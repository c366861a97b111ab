import DeltaFs.Types
import DeltaFs.Words
import Mathlib.Data.List.TakeWhile

/-!
# Pathname resolution

`Resolv` walks a pathname with three pointers `p`, `q`, `c` over its bytes;
`Resolu` starts the walk at the root of an `AT` or of the filesystem, rewrites
the walk's errors to name a prefix of the path, and looks one byte past the
last component for a slash.

A pointer is an index into the bytes of the C string, the terminating NUL
included; a read past it has no value, and neither has a loop that runs out of
fuel. The reference is the list of words of the path: look up all of them but
the last, each beneath the one before.

`resolvLoop_eq` is the invariant of the loop: where the pointers stand, the components that
are left are the words of the rest of the path. All else is about words, in `Words`, where
slashes are one separator of many and those that come in a row do not matter.
-/

namespace DeltaFs

open Words

/-- The path splitter, `'/'`. -/
def slash : UInt8 := 0x2f

/-- What `Resolv` and `Resolu` use of the client: its state `σ`, and the leases
it hands out. -/
structure LeaseClient (σ Lease : Type) where
  /-- `lease->rep` -/
  rep : Lease → LookupStat
  /-- `Lokup`: the lease found, or the code and the message of the failure -/
  lokup : σ → LookupStat → Slice → LokupMode → σ × Except (ErrCode × Slice) Lease
  /-- `Release(Lease*)` -/
  release : σ → Lease → σ
  /-- `&rtlease_` -/
  rtlease : Lease

/-- A slice into the bytes of a pathname. -/
structure PathSlice where
  /-- where it starts -/
  data : Nat
  size : Nat
  deriving DecidableEq

/-- The bytes of a slice. -/
def PathSlice.bytes (mem : Slice) (s : PathSlice) : Slice := (mem.drop s.data).take s.size

/-- What `Resolv` returns through its status and its three out-parameters. -/
structure Resolved (Lease : Type) where
  status : Status
  parentDir : Lease
  lastComponent : PathSlice
  /-- set on errors only -/
  remainingPath : Option Nat

/-- The scanning loops: `for (; q[0]; q++) if (stop(q[0])) break;`. -/
def scan (mem : Slice) (stop : UInt8 → Bool) : Nat → Nat → Option Nat
  | 0, _ => none
  | fuel + 1, q =>
    match mem[q]? with
    | none => none
    | some b => if b = 0 then some q else if stop b then some q else scan mem stop fuel (q + 1)

/-- Jump forward to the next path splitter, or to the end of the path. -/
def nextSplitter (mem : Slice) : Nat → Option Nat := scan mem (· = slash) mem.length

/-- Skip repeated slashes. -/
def skipSlashes (mem : Slice) : Nat → Option Nat := scan mem (· ≠ slash) mem.length

variable {σ Lease : Type} (fs : LeaseClient σ Lease)

/-- What `Resolv` returns when its loop ends at the end of the path. -/
def endOfPath (currentParent : Lease) (p q : Nat) : Resolved Lease where
  status := .ok
  parentDir := currentParent
  lastComponent := ⟨p + 1, q - p - 1⟩
  remainingPath := none

/-- The loop of `Resolv`. -/
def resolvLoop (mem : Slice) : Nat → σ → Lease → Nat → Option (σ × Resolved Lease)
  | 0, _, _, _ => none
  | fuel + 1, s, currentParent, p => do
    let q ← nextSplitter mem (p + 1)
    let b ← mem[q]?
    if b = 0 then
      some (s, endOfPath currentParent p q)
    else if q - p - 1 = 0 then
      -- an empty name at the beginning of the path
      resolvLoop mem fuel s currentParent q
    else
      let c ← skipSlashes mem (q + 1)
      let b ← mem[c]?
      if b = 0 then
        some (s, endOfPath currentParent p q)
      else
        let currentName : PathSlice := ⟨p + 1, q - p - 1⟩
        match fs.lokup s (fs.rep currentParent) (currentName.bytes mem) .kRegular with
        | (s, .ok tmp) => resolvLoop mem fuel (fs.release s currentParent) tmp (c - 1)
        | (s, .error e) => some (s, {
            status := .err e.1 e.2
            parentDir := currentParent
            lastComponent := currentName
            remainingPath := some (c - 1) })

/-- `Resolv`, given the bytes of the pathname with its NUL. -/
def resolv (s : σ) (relativeRoot : Lease) (mem : Slice) : Option (σ × Resolved Lease) :=
  resolvLoop fs mem mem.length s relativeRoot 0

/-- What `Resolu` returns. -/
structure Resolution (Lease : Type) where
  status : Status
  /-- may be set on errors too -/
  parentDir : Option Lease
  lastComponent : PathSlice
  hasTailingSlashes : Bool

/-- The status `Resolu` makes of a status of `Resolv`: "not found" and "not a
directory" name the prefix of the path up to the remaining path. -/
def resoluStatus (mem : Slice) (r : Resolved Lease) : Status :=
  match r.remainingPath with
  | some rp =>
    if r.status.isDirExpected then .err .dirExpected (mem.take rp)
    else if r.status.isNotFound then .err .notFound (mem.take rp)
    else r.status
  | none => r.status

/-- The part of `Resolu` after the relative root is known. -/
def resoluFrom (s : σ) (rr : Lease) (mem : Slice) : Option (σ × Resolution Lease) := do
  let (s, r) ← resolv fs s rr mem
  let status := resoluStatus mem r
  if status.isOk then
    let b ← mem[r.lastComponent.data + r.lastComponent.size]?
    some (s, ⟨status, some r.parentDir, r.lastComponent, b = slash⟩)
  else some (s, ⟨status, some r.parentDir, r.lastComponent, false⟩)

/-- `Resolu`; `at` is the parent of an `AT`'s root and its name. The callers
hand in `*has_tailing_slashes == false` and an empty `*last_component`. -/
def resolu (s : σ) (at? : Option (LookupStat × Slice)) (mem : Slice) :
    Option (σ × Resolution Lease) :=
  match at? with
  | none => resoluFrom fs s fs.rtlease mem
  | some (parentOfRoot, name) =>
    match fs.lokup s parentOfRoot name .kRegular with
    | (s, .ok rr) => resoluFrom fs s rr mem
    | (s, .error e) => some (s, ⟨.err e.1 e.2, none, ⟨0, 0⟩, false⟩)

/-! ## The reference

What resolution is for, said on the list of components: look each one up beneath the one before,
and stop at the last. No pointers and no slashes are left. It is also the definition that all
other modules use. -/

/-- The components of a path: split on `'/'`, empty names dropped. -/
def components (path : Slice) : List Slice := words slash path

/-- What a resolution shows its caller, the last component as bytes. -/
structure WalkResult (Lease : Type) where
  status : Status
  parentDir : Lease
  lastComponent : Slice

/-- The outcome of `Resolv`. -/
def Resolved.outcome {Lease : Type} (mem : Slice) (r : Resolved Lease) : WalkResult Lease where
  status := r.status
  parentDir := r.parentDir
  lastComponent := r.lastComponent.bytes mem

/-- The reference: look up the components but the last, each beneath the one
before. -/
def resolveComponents : σ → Lease → List Slice → σ × WalkResult Lease
  | s, l, [] => (s, ⟨.ok, l, []⟩)
  | s, l, [c] => (s, ⟨.ok, l, c⟩)
  | s, l, c :: c' :: cs =>
    match fs.lokup s (fs.rep l) c .kRegular with
    | (s, .ok tmp) => resolveComponents (fs.release s l) tmp (c' :: cs)
    | (s, .error e) => (s, ⟨.err e.1 e.2, l, c⟩)

/-- `Walk fs s l cs s' l'`: the names `cs` are looked up in order, each beneath
the lease the lookup before it returned, and every lookup succeeds. -/
inductive Walk : σ → Lease → List Slice → σ → Lease → Prop where
  /-- no lookup -/
  | nil {s : σ} {l : Lease} : Walk s l [] s l
  /-- the lease walked from is released -/
  | cons {s s₁ s' : σ} {l tmp l' : Lease} {c : Slice} {cs : List Slice} :
      fs.lokup s (fs.rep l) c .kRegular = (s₁, .ok tmp) →
      Walk (fs.release s₁ l) tmp cs s' l' → Walk s l (c :: cs) s' l'

/-- Where a resolution of the components `cs` from the lease `l` may end. -/
inductive Ends (s : σ) (l : Lease) (cs : List Slice) (s' : σ) : WalkResult Lease → Prop where
  /-- all names but the last were looked up, the last is returned -/
  | ok {l' : Lease} : Walk fs s l cs.dropLast s' l' → Ends s l cs s' ⟨.ok, l', cs.getLastD []⟩
  /-- a lookup before the last name failed -/
  | failed {done left : List Slice} {c : Slice} {s₁ : σ} {l' : Lease} {e : ErrCode × Slice} :
      cs = done ++ c :: left → left ≠ [] → Walk fs s l done s₁ l' →
      fs.lokup s₁ (fs.rep l') c .kRegular = (s', .error e) →
      Ends s l cs s' ⟨.err e.1 e.2, l', c⟩

variable {fs}

/-- One successful lookup in front. -/
theorem Ends.cons {s s₁ s' : σ} {l tmp : Lease} {c c' : Slice} {cs : List Slice}
    {o : WalkResult Lease} (hlokup : fs.lokup s (fs.rep l) c .kRegular = (s₁, .ok tmp))
    (h : Ends fs (fs.release s₁ l) tmp (c' :: cs) s' o) : Ends fs s l (c :: c' :: cs) s' o := by
  cases h with
  | ok hw => exact .ok (.cons hlokup hw)
  | failed heq hleft hw hfail =>
    exact .failed (congrArg (c :: ·) heq) hleft (.cons hlokup hw) hfail

variable (fs) in
/-- The reference performs exactly the lookups of the components but the last,
up to the first failure. -/
theorem resolveComponents_ends (s : σ) (l : Lease) (cs : List Slice) :
    Ends fs s l cs (resolveComponents fs s l cs).1 (resolveComponents fs s l cs).2 := by
  induction s, l, cs using resolveComponents.induct fs with
  | case1 s l => exact .ok .nil
  | case2 s l c => exact .ok .nil
  | case3 s l c c' cs s₁ tmp hlokup ih =>
    rw [resolveComponents, hlokup]
    exact ih.cons hlokup
  | case4 s l c c' cs s₁ e hlokup =>
    rw [resolveComponents, hlokup]
    exact .failed (List.nil_append (c :: c' :: cs)).symm (List.cons_ne_nil c' cs) .nil hlokup

/-! ## The scanner

The pathname is an array of bytes with a zero at its end, and every loop reads one byte at a
time. Each loop is specified by the position at which it stops; that it reads nothing behind the
zero, and that its fuel does not run out before, is part of the specification. -/

/-- A pathname in memory. -/
def cstr (path : Slice) : Slice := path ++ [0]

/-- A scanning loop passes over the bytes that do not stop it, reads none after
the one that does, and does not run out of fuel before. -/
theorem scan_eq {stop : UInt8 → Bool} {b : UInt8} (hb : b = 0 ∨ stop b = true) (tl : Slice) :
    ∀ (w pre : Slice) (fuel : Nat), (∀ a ∈ w, a ≠ 0 ∧ stop a = false) → w.length < fuel →
      scan (pre ++ (w ++ b :: tl)) stop fuel pre.length = some (pre.length + w.length) := by
  intro w
  induction w with
  | nil =>
    intro pre fuel _ hfuel
    obtain ⟨fuel, rfl⟩ := Nat.exists_eq_succ_of_ne_zero (Nat.pos_iff_ne_zero.mp hfuel)
    have hread : (pre ++ ([] ++ b :: tl))[pre.length]? = some b := by simp
    rw [scan, hread]
    rcases hb with rfl | hstop
    · simp
    · simp [hstop]
  | cons a w ih =>
    intro pre fuel hw hfuel
    obtain ⟨fuel, rfl⟩ := Nat.exists_eq_succ_of_ne_zero (Nat.ne_zero_of_lt hfuel)
    obtain ⟨ha, hstop⟩ := hw a (List.mem_cons_self ..)
    have hread : (pre ++ (a :: w ++ b :: tl))[pre.length]? = some a := by simp
    have hnext := ih (pre ++ [a]) fuel (fun x hx => hw x (List.mem_cons_of_mem _ hx))
      (Nat.lt_of_succ_lt_succ hfuel)
    rw [List.append_assoc, List.length_append, List.length_singleton] at hnext
    rw [scan, hread]
    simp only [ha, hstop, if_false, Bool.false_eq_true]
    rw [List.length_cons, ← Nat.add_assoc, Nat.add_right_comm]
    exact hnext

/-- The jump to the end of a component. -/
theorem nextSplitter_eq {mem pre w tl : Slice} {b : UInt8}
    (hmem : mem = pre ++ (w ++ b :: tl)) (hb : b = 0 ∨ b = slash) (h0 : 0 ∉ w) (hw : slash ∉ w) :
    nextSplitter mem pre.length = some (pre.length + w.length) ∧
      mem[pre.length + w.length]? = some b := by
  subst hmem
  refine ⟨scan_eq ?_ tl w pre _ ?_ ?_, ?_⟩
  · simpa using hb
  · intro a ha
    exact ⟨fun h => h0 (h ▸ ha), decide_eq_false fun h => hw (h ▸ ha)⟩
  · simp only [List.length_append, List.length_cons]
    omega
  · simp

/-- The jump over a run of slashes. -/
theorem skipSlashes_eq {mem pre tl : Slice} {b : UInt8} (k : Nat)
    (hmem : mem = pre ++ (List.replicate k slash ++ b :: tl)) (hb : b ≠ slash) :
    skipSlashes mem pre.length = some (pre.length + k) ∧ mem[pre.length + k]? = some b := by
  subst hmem
  constructor
  · have hrun : ∀ a ∈ List.replicate k slash, a ≠ 0 ∧ decide (a ≠ slash) = false := by
      intro a ha
      obtain rfl := List.eq_of_mem_replicate ha
      exact ⟨by decide, by decide⟩
    have hfuel : (List.replicate k slash).length <
        (pre ++ (List.replicate k slash ++ b :: tl)).length := by
      simp only [List.length_append, List.length_cons]
      omega
    have h := scan_eq (.inr (decide_eq_true hb)) tl (List.replicate k slash) pre _ hrun hfuel
    rwa [List.length_replicate] at h
  · rw [List.getElem?_append_right (Nat.le_add_right _ _), Nat.add_sub_cancel_left,
      List.getElem?_append_right (by simp), List.length_replicate, Nat.sub_self]
    rfl

/-- Where in the path a result lies. On success the last component is followed
by slashes only; on errors the remaining path follows the component whose
lookup failed, and something is left of the path there. -/
inductive Located (path : Slice) (r : Resolved Lease) : Prop where
  /-- `path` is what precedes the last component, the component, and `k` slashes -/
  | ok {pre last : Slice} {k : Nat} : r.status = .ok → r.remainingPath = none →
      path = pre ++ slash :: (last ++ List.replicate k slash) → slash ∉ last →
      (last = [] → k = 0) → r.lastComponent = ⟨pre.length + 1, last.length⟩ → Located path r
  /-- the components of `path` up to the remaining path end with the one that failed -/
  | failed {rp : Nat} {done left : List Slice} : r.status ≠ .ok → r.remainingPath = some rp →
      rp ≤ path.length → components (path.take rp) = done ++ [r.lastComponent.bytes (cstr path)] →
      components path = components (path.take rp) ++ left → left ≠ [] → Located path r

/-- The bytes of a component of a path. -/
theorem bytes_of_path {path pre w l : Slice} (hpath : path = pre ++ slash :: (w ++ l)) :
    PathSlice.bytes (cstr path) ⟨pre.length + 1, w.length⟩ = w := by
  have hmem : cstr path = (pre ++ [slash]) ++ (w ++ (l ++ [0])) := by simp [cstr, hpath]
  have hlen : (pre ++ [slash]).length = pre.length + 1 := List.length_append
  rw [hmem, ← hlen]
  simp [PathSlice.bytes]

/-- The loop at the last component. -/
theorem resolvLoop_end {path pre last : Slice} {k : Nat} (fuel : Nat) (s : σ) (l : Lease)
    (hpath : path = pre ++ slash :: (last ++ List.replicate k slash)) (h0 : 0 ∉ last)
    (hlast : slash ∉ last) (hk : last = [] → k = 0) :
    resolvLoop fs (cstr path) (fuel + 1) s l pre.length =
      some (s, endOfPath l pre.length (pre.length + 1 + last.length)) := by
  have hlen : (pre ++ [slash]).length = pre.length + 1 := List.length_append
  cases k with
  | zero =>
    -- the jump ends at the NUL
    have hmem : cstr path = (pre ++ [slash]) ++ (last ++ 0 :: []) := by simp [cstr, hpath]
    obtain ⟨hq, hb⟩ := nextSplitter_eq hmem (.inl rfl) h0 hlast
    rw [hlen] at hq hb
    simp [resolvLoop, hq, hb]
  | succ k =>
    have hne : last.length ≠ 0 := fun h => absurd (hk (List.eq_nil_of_length_eq_zero h)) (by omega)
    have hmem : cstr path = (pre ++ [slash]) ++ (last ++ slash :: (List.replicate k slash ++ [0])) := by
      simp [cstr, hpath, List.replicate_succ]
    obtain ⟨hq, hb⟩ := nextSplitter_eq hmem (.inr rfl) h0 hlast
    -- only slashes are left, so the look-ahead ends at the NUL
    have hmem' : cstr path = (pre ++ slash :: (last ++ [slash])) ++ (List.replicate k slash ++ 0 :: []) := by
      simp [cstr, hpath, List.replicate_succ]
    obtain ⟨hc, hb'⟩ := skipSlashes_eq k hmem' (by decide)
    have hlen' : (pre ++ slash :: (last ++ [slash])).length = pre.length + 1 + last.length + 1 := by
      simp only [List.length_append, List.length_cons, List.length_nil]
      omega
    rw [hlen] at hq hb
    rw [hlen'] at hc hb'
    have hsub : pre.length + 1 + last.length - pre.length - 1 = last.length := by omega
    simp [resolvLoop, hq, hb, hc, hb', hsub, hne]

/-- The loop at an empty name. -/
theorem resolvLoop_skip {path pre rest : Slice} (fuel : Nat) (s : σ) (l : Lease)
    (hpath : path = pre ++ slash :: slash :: rest) :
    resolvLoop fs (cstr path) (fuel + 1) s l pre.length =
      resolvLoop fs (cstr path) fuel s l (pre ++ [slash]).length := by
  have hmem : cstr path = (pre ++ [slash]) ++ ([] ++ slash :: (rest ++ [0])) := by
    simp [cstr, hpath]
  obtain ⟨hq, hb⟩ := nextSplitter_eq hmem (.inr rfl) (by simp) (by simp)
  have hlen : (pre ++ [slash]).length = pre.length + 1 := List.length_append
  have hslash : slash ≠ 0 := by decide
  rw [hlen, List.length_nil] at hq hb
  simp [resolvLoop, hq, hb, hlen, hslash]

/-- The loop at a component that others follow. -/
theorem resolvLoop_lokup {path pre w u : Slice} {x : UInt8} {k : Nat} (fuel : Nat) (s : σ) (l : Lease)
    (hpath : path = pre ++ slash :: (w ++ slash :: (List.replicate k slash ++ x :: u)))
    (h0 : 0 ∉ w) (hw : slash ∉ w) (hne : w ≠ []) (hx : x ≠ slash) (hx0 : x ≠ 0) :
    resolvLoop fs (cstr path) (fuel + 1) s l pre.length =
      match fs.lokup s (fs.rep l) w .kRegular with
      | (s, .ok tmp) =>
        resolvLoop fs (cstr path) fuel (fs.release s l) tmp
          (pre ++ slash :: (w ++ List.replicate k slash)).length
      | (s, .error e) => some (s, {
          status := .err e.1 e.2
          parentDir := l
          lastComponent := ⟨pre.length + 1, w.length⟩
          remainingPath := some (pre ++ slash :: (w ++ List.replicate k slash)).length }) := by
  have hmem : cstr path =
      (pre ++ [slash]) ++ (w ++ slash :: (List.replicate k slash ++ x :: (u ++ [0]))) := by
    simp [cstr, hpath]
  have hmem' : cstr path =
      (pre ++ slash :: (w ++ [slash])) ++ (List.replicate k slash ++ x :: (u ++ [0])) := by
    simp [cstr, hpath]
  obtain ⟨hq, hb⟩ := nextSplitter_eq hmem (.inr rfl) h0 hw
  obtain ⟨hc, hb'⟩ := skipSlashes_eq k hmem' hx
  have hlen : (pre ++ [slash]).length = pre.length + 1 := List.length_append
  have hlen' : (pre ++ slash :: (w ++ [slash])).length = pre.length + 1 + w.length + 1 := by
    simp only [List.length_append, List.length_cons, List.length_nil]
    omega
  have hp : pre.length + 1 + w.length + 1 + k - 1 =
      (pre ++ slash :: (w ++ List.replicate k slash)).length := by
    simp only [List.length_append, List.length_cons, List.length_replicate]
    omega
  have hname := bytes_of_path (l := slash :: (List.replicate k slash ++ x :: u)) hpath
  have hsub : pre.length + 1 + w.length - pre.length - 1 = w.length := by omega
  have hwl : w.length ≠ 0 := fun h => hne (List.eq_nil_of_length_eq_zero h)
  have hslash : slash ≠ 0 := by decide
  rw [hlen] at hq hb
  rw [hlen'] at hc hb'
  simp only [resolvLoop, hq, hb, hc, hb', hsub, hwl, hslash, hx0, hname, hp, if_false,
    Option.bind_eq_bind, Option.bind_some]

/-- What the end of the path returns: the last component, beneath the lease
reached. -/
theorem endOfPath_located {path pre last : Slice} {k : Nat} (l : Lease)
    (hpath : path = pre ++ slash :: (last ++ List.replicate k slash)) (hlast : slash ∉ last)
    (hk : last = [] → k = 0) :
    (endOfPath l pre.length (pre.length + 1 + last.length)).outcome (cstr path) = ⟨.ok, l, last⟩ ∧
      Located path (endOfPath l pre.length (pre.length + 1 + last.length)) := by
  have hsub : pre.length + 1 + last.length - pre.length - 1 = last.length := by omega
  constructor
  · simp only [Resolved.outcome, endOfPath, hsub]
    rw [bytes_of_path hpath]
  · refine .ok rfl rfl hpath hlast hk ?_
    simp only [endOfPath, hsub]

/-- What a failed lookup returns: the component it failed on, and the remaining
path right behind it. -/
theorem lokupFailed_located {path w left c : Slice} {done : List Slice} {rp : Nat} {x : UInt8}
    {r : Resolved Lease} (hpath : path = w ++ slash :: x :: left) (hw : components w = done ++ [c])
    (hc : r.lastComponent.bytes (cstr path) = c) (hx : x ≠ slash)
    (hrp : rp = w.length) (hrem : r.remainingPath = some rp) (hst : r.status ≠ .ok) :
    Located path r := by
  subst hc
  have htake : path.take rp = w := by
    rw [hpath, hrp]
    exact List.take_left ..
  have hle : rp ≤ path.length := by
    rw [hpath, hrp, List.length_append]
    exact Nat.le_add_right _ _
  have hsplit : components path = components (path.take rp) ++ components (x :: left) := by
    rw [htake, hpath]
    exact words_append_sep w (x :: left)
  exact .failed hst hrem hle (htake ▸ hw) hsplit (words_cons_ne_nil hx left)

/-- **The loop of `Resolv`** entered at a slash computes the reference on the
components after it, whatever precedes the slash. -/
theorem resolvLoop_eq {path : Slice} (n : Nat) :
    ∀ (rest pre : Slice) (s : σ) (l : Lease) (fuel : Nat), rest.length ≤ n → 0 ∉ rest →
      path = pre ++ slash :: rest → rest.length < fuel →
      ∃ r, resolvLoop fs (cstr path) fuel s l pre.length =
          some ((resolveComponents fs s l (components rest)).1, r) ∧
        r.outcome (cstr path) = (resolveComponents fs s l (components rest)).2 ∧
        Located path r := by
  induction n using Nat.strong_induction_on with
  | _ n ih =>
    intro rest pre s l fuel hn h0 hpath hfuel
    obtain ⟨fuel, rfl⟩ := Nat.exists_eq_succ_of_ne_zero (Nat.ne_zero_of_lt hfuel)
    by_cases hs : slash ∈ rest
    · obtain ⟨w, rest', rfl, hw⟩ := List.eq_append_cons_of_mem hs
      simp only [List.length_append, List.length_cons] at hn hfuel
      simp only [List.mem_append, List.mem_cons, not_or] at h0
      by_cases hne : w = []
      · -- an empty name: go on at the slash after it
        subst hne
        rw [resolvLoop_skip fuel s l hpath]
        have hcomp : components ([] ++ slash :: rest') = components rest' := words_sep_cons rest'
        rw [hcomp]
        refine ih rest'.length (by omega) rest' (pre ++ [slash]) s l fuel le_rfl h0.2.2 ?_ (by omega)
        simpa using hpath
      · obtain ⟨k, u, rfl, hu⟩ := exists_replicate_append slash rest'
        simp only [List.length_append, List.length_replicate] at hn hfuel
        have hcomp : components (w ++ slash :: (List.replicate k slash ++ u)) = w :: components u := by
          rw [components, words_append_sep_of_not_mem hne hw, words_replicate_append]
          rfl
        rw [hcomp]
        cases u with
        | nil =>
          -- the last component, with slashes behind it
          have hlast : path = pre ++ slash :: (w ++ List.replicate (k + 1) slash) := by
            simpa [List.replicate_succ] using hpath
          have hk : w = [] → k + 1 = 0 := fun h => absurd h hne
          have hnil : components [] = [] := words_nil
          rw [resolvLoop_end fuel s l hlast h0.1 hw hk, hnil]
          exact ⟨_, rfl, endOfPath_located l hlast hw hk⟩
        | cons x u =>
          have hx : x ≠ slash := fun h => hu (congrArg some h)
          have hx0 : x ≠ 0 := fun h => h0.2.2 (by simp [h])
          obtain ⟨c', cs, hcs⟩ := List.exists_cons_of_ne_nil (words_cons_ne_nil hx u)
          have hcs : components (x :: u) = c' :: cs := hcs
          have hname := bytes_of_path (l := slash :: (List.replicate k slash ++ x :: u)) hpath
          rw [resolvLoop_lokup fuel s l hpath h0.1 hw hne hx hx0, hcs, resolveComponents]
          have hsplit : path = (pre ++ slash :: (w ++ List.replicate k slash)) ++ slash :: x :: u := by
            rw [hpath, cons_replicate_append]
            simp
          rcases hlokup : fs.lokup s (fs.rep l) w .kRegular with ⟨s₁, e | tmp⟩
          · -- the lookup fails
            refine ⟨_, rfl, ?_, ?_⟩
            · simp only [Resolved.outcome, hname]
            · have hcomp : components (pre ++ slash :: (w ++ List.replicate k slash)) =
                  components pre ++ [w] := by
                rw [components, words_append_sep, words_append_replicate hne hw]
                rfl
              exact lokupFailed_located hsplit hcomp hname hx rfl rfl Status.noConfusion
          · -- the lookup succeeds: go on beneath the lease it returned
            rw [← hcs]
            have h0' : 0 ∉ x :: u := fun h => h0.2.2 (List.mem_append_right _ h)
            simp only [List.length_cons] at hn hfuel
            refine ih (x :: u).length ?_ (x :: u) (pre ++ slash :: (w ++ List.replicate k slash))
              (fs.release s₁ l) tmp fuel le_rfl h0' hsplit ?_
            · simp only [List.length_cons]
              omega
            · simp only [List.length_cons]
              omega
    · -- the last component, up to the end of the path
      have hlast : path = pre ++ slash :: (rest ++ List.replicate 0 slash) := by simpa using hpath
      have hk : rest = [] → 0 = 0 := fun _ => rfl
      rw [resolvLoop_end fuel s l hlast h0 hs hk]
      have href : resolveComponents fs s l (components rest) = (s, ⟨.ok, l, rest⟩) := by
        by_cases hne : rest = []
        · subst hne
          rfl
        · rw [components, words_of_not_mem hne hs]
          rfl
      rw [href]
      exact ⟨_, rfl, endOfPath_located l hlast hs hk⟩

/-! ## Resolv and Resolu

The scanner and the reference side by side: the same lookups in the same order, the same lease
at the end, and the last component as a slice of the pathname. `Resolu` adds how it reports an
error and whether a slash follows the last component. -/

variable (fs) in
/-- **`Resolv` computes the reference** on the components of the path: it ends,
and reads nothing past the NUL. -/
theorem resolv_eq {path : Slice} (h0 : 0 ∉ path) (hs : path.head? = some slash) (s : σ) (rr : Lease) :
    ∃ r, resolv fs s rr (cstr path) = some ((resolveComponents fs s rr (components path)).1, r) ∧
      r.outcome (cstr path) = (resolveComponents fs s rr (components path)).2 ∧ Located path r := by
  obtain ⟨rest, rfl⟩ := List.head?_eq_some_iff.mp hs
  have hcomp : components (slash :: rest) = components rest := words_sep_cons rest
  have h0' : 0 ∉ rest := fun h => h0 (List.mem_cons_of_mem _ h)
  rw [hcomp]
  refine resolvLoop_eq rest.length rest [] s rr _ le_rfl h0' rfl ?_
  simp only [cstr, List.length_append, List.length_cons]
  omega

/-- The error `Resolu` reports is of the kind of the lookup's; when it is
rewritten, its message is the prefix of the path that ends with the component
whose lookup failed. -/
theorem resoluStatus_located {path : Slice} {r : Resolved Lease} (hr : Located path r) :
    resoluStatus (cstr path) r = r.status ∨
      ∃ code msg msg' done, r.status = .err code msg ∧ resoluStatus (cstr path) r = .err code msg' ∧
        msg' <+: path ∧ components msg' = done ++ [r.lastComponent.bytes (cstr path)] := by
  cases hr with
  | ok _ hrem =>
    rw [resoluStatus, hrem]
    exact .inl rfl
  | @failed rp done left _ hrem hle hcomp =>
    have htake : (cstr path).take rp = path.take rp := List.take_append_of_le_length hle
    rcases hst : r.status with _ | ⟨code, msg⟩
    · simp [resoluStatus, hrem, hst, Status.isDirExpected, Status.isNotFound]
    · simp only [resoluStatus, hrem, hst, htake]
      split_ifs with hde hnf
      · cases code <;> cases hde
        exact .inr ⟨_, msg, _, done, rfl, rfl, List.take_prefix .., hcomp⟩
      · cases code <;> cases hnf
        exact .inr ⟨_, msg, _, done, rfl, rfl, List.take_prefix .., hcomp⟩
      · exact .inl rfl

theorem resoluStatus_isOk {path : Slice} {r : Resolved Lease} (hr : Located path r) :
    (resoluStatus (cstr path) r).isOk = r.status.isOk := by
  rcases resoluStatus_located hr with h | ⟨code, msg, msg', done, hst, h, -⟩
  · rw [h]
  · rw [h, hst]
    rfl

/-- The reference succeeds with the last component. -/
theorem resolveComponents_lastComponent {s : σ} {l : Lease} {cs : List Slice}
    (h : (resolveComponents fs s l cs).2.status = .ok) :
    (resolveComponents fs s l cs).2.lastComponent = cs.getLastD [] := by
  have hends := resolveComponents_ends fs s l cs
  generalize (resolveComponents fs s l cs).2 = o at h hends
  cases hends with
  | ok _ => rfl
  | failed => cases h

/-- A path has a last component that a slash follows: `c`, between a slash and
a run of slashes that ends the path. -/
def TailingSlashes (path : Slice) : Prop :=
  ∃ pre c k, c ≠ [] ∧ slash ∉ c ∧ path = pre ++ slash :: (c ++ List.replicate (k + 1) slash)

theorem TailingSlashes.components {path : Slice} (h : TailingSlashes path) :
    components path ≠ [] ∧ path.getLast? = some slash := by
  obtain ⟨pre, c, k, hne, hc, rfl⟩ := h
  constructor
  · rw [DeltaFs.components, words_append_sep, words_append_replicate hne hc]
    exact List.append_ne_nil_of_right_ne_nil _ (List.cons_ne_nil _ _)
  · rw [List.replicate_succ', ← List.append_assoc, ← List.cons_append, ← List.append_assoc,
      List.getLast?_concat]

/-- The byte after the last component is a slash iff the path has tailing
slashes. -/
theorem tailing_slash_iff {path pre last : Slice} {k : Nat}
    (hpath : path = pre ++ slash :: (last ++ List.replicate k slash)) (hlast : slash ∉ last)
    (hk : last = [] → k = 0) (hcomp : last = (components path).getLastD []) :
    ∃ b, (cstr path)[pre.length + 1 + last.length]? = some b ∧ (b = slash ↔ TailingSlashes path) := by
  have hlen : (pre ++ slash :: last).length = pre.length + 1 + last.length := by
    simp only [List.length_append, List.length_cons]
    omega
  cases k with
  | zero =>
    refine ⟨0, ?_, fun h => absurd h (by decide), fun h => ?_⟩
    · have hmem : cstr path = (pre ++ slash :: last) ++ [0] := by simp [cstr, hpath]
      rw [hmem, ← hlen]
      simp
    · -- the path would end with a slash, but its last component is not empty
      obtain ⟨hne, hend⟩ := h.components
      have hmem : last ∈ components path := by
        rw [hcomp, List.getLastD_eq_getLast?, List.getLast?_eq_some_getLast hne]
        exact List.getLast_mem hne
      have hl := ne_nil_of_mem_words hmem
      rw [hpath, List.replicate_zero, List.append_nil, List.getLast?_append,
        List.getLast?_cons, Option.some_or] at hend
      rw [Option.some.injEq, List.getLast?_eq_some_getLast hl, Option.getD_some] at hend
      exact absurd (hend ▸ List.getLast_mem hl) hlast
  | succ k =>
    refine ⟨slash, ?_, fun _ => ⟨pre, last, k, ?_, hlast, hpath⟩, fun _ => rfl⟩
    · have hmem : cstr path = (pre ++ slash :: last) ++ slash :: (List.replicate k slash ++ [0]) := by
        simp [cstr, hpath, List.replicate_succ]
      rw [hmem, ← hlen]
      simp
    · intro hnil
      exact absurd (hk hnil) (Nat.succ_ne_zero k)

variable (fs) in
/-- `Resolu` beneath a known root. -/
theorem resoluFrom_eq {path : Slice} (h0 : 0 ∉ path) (hs : path.head? = some slash) (s : σ)
    (rr : Lease) :
    ∃ s' r, resoluFrom fs s rr (cstr path) = some (s', r) ∧
      (r.status = .ok →
        r.lastComponent.bytes (cstr path) = (components path).getLastD [] ∧
        (r.hasTailingSlashes = true ↔ TailingSlashes path)) := by
  obtain ⟨r, hr, hout, hloc⟩ := resolv_eq fs h0 hs s rr
  have hok := resoluStatus_isOk hloc
  rcases hst : r.status with _ | ⟨code, msg⟩
  · rw [hst] at hok
    have href : (resolveComponents fs s rr (components path)).2.status = .ok := by
      rw [← hout]
      exact hst
    have hlast := resolveComponents_lastComponent href
    rw [← hout] at hlast
    cases hloc with
    | @ok pre last k _ hrem hpath hns hk heq =>
      have hbytes : last = (components path).getLastD [] := by
        rw [← hlast]
        simp only [Resolved.outcome, heq, bytes_of_path hpath]
      obtain ⟨b, hb, hiff⟩ := tailing_slash_iff hpath hns hk hbytes
      refine ⟨(resolveComponents fs s rr (components path)).1,
        ⟨resoluStatus (cstr path) r, some r.parentDir, r.lastComponent, b = slash⟩, ?_,
        fun _ => ⟨hlast, ?_⟩⟩
      · simp only [resoluFrom, hr, Option.bind_eq_bind, Option.bind_some, hok, Status.isOk_ok, if_true,
          heq, hb]
      · simpa using hiff
    | failed h => exact absurd hst h
  · rw [hst] at hok
    refine ⟨(resolveComponents fs s rr (components path)).1,
      ⟨resoluStatus (cstr path) r, some r.parentDir, r.lastComponent, false⟩, ?_,
      fun h => ?_⟩
    · simp only [resoluFrom, hr, Option.bind_eq_bind, Option.bind_some, hok, Status.isOk_err,
        Bool.false_eq_true, if_false]
    · rw [Status.isOk_iff.mpr h] at hok
      cases hok

/-- **Pathname resolution**: for every pathname, relative root and outcome of
the lookups, `Resolv` ends without reading past the NUL and looks up exactly
the components but the last, each beneath the lease before, up to the first
failure; `Resolu` reports tailing slashes iff a slash follows a last component;
and extra slashes change nothing `Resolv` does or returns. -/
theorem resolv_resolu (fs : LeaseClient σ Lease) {path : Slice} (h0 : 0 ∉ path)
    (hs : path.head? = some slash) (s : σ) :
    (∀ rr, ∃ s' r, resolv fs s rr (cstr path) = some (s', r) ∧
      Ends fs s rr (components path) s' (r.outcome (cstr path))) ∧
    (∀ at?, ∃ s' r, resolu fs s at? (cstr path) = some (s', r) ∧
      (r.status = .ok →
        r.lastComponent.bytes (cstr path) = (components path).getLastD [] ∧
        (r.hasTailingSlashes = true ↔ TailingSlashes path))) ∧
    ∀ rr path', Padded slash path path' →
      ∃ s' r r', resolv fs s rr (cstr path) = some (s', r) ∧
        resolv fs s rr (cstr path') = some (s', r') ∧
        r'.outcome (cstr path') = r.outcome (cstr path) := by
  refine ⟨fun rr => ?_, fun at? => ?_, fun rr path' hpad => ?_⟩
  · obtain ⟨r, hr, hout, -⟩ := resolv_eq fs h0 hs s rr
    refine ⟨_, r, hr, ?_⟩
    rw [hout]
    exact resolveComponents_ends fs s rr (components path)
  · rcases at? with _ | ⟨parentOfRoot, name⟩
    · exact resoluFrom_eq fs h0 hs s fs.rtlease
    · rw [resolu]
      rcases fs.lokup s parentOfRoot name .kRegular with ⟨s₁, e | rr⟩
      · exact ⟨s₁, _, rfl, fun h => by cases h⟩
      · exact resoluFrom_eq fs h0 hs s₁ rr
  · have h0' : 0 ∉ path' := fun h => (hpad.mem h).elim h0 (by decide)
    obtain ⟨r, hr, hout, -⟩ := resolv_eq fs h0 hs s rr
    obtain ⟨r', hr', hout', -⟩ := resolv_eq fs h0' (hpad.head? hs) s rr
    have hcomp : components path' = components path := hpad.words_eq
    rw [hcomp] at hr' hout'
    exact ⟨_, r, r', hr, hr', hout'.trans hout.symm⟩

/-- A client whose lookups all succeed; its state is the names looked up. -/
def recordingClient : LeaseClient (List Slice) Nat where
  rep _ := ⟨0, 0, 0, 0, 0, 0, 0⟩
  lokup s _ name _ := (s ++ [name], .ok s.length)
  release s _ := s
  rtlease := 0

/-- The path `//a/bc//d/` beneath any root of such a client. -/
theorem resolv_resolu_recording :
    (0 : UInt8) ∉ str "//a/bc//d/" ∧ (str "//a/bc//d/").head? = some slash ∧
    ∀ rr, ∃ s' r, resolv recordingClient [] rr (cstr (str "//a/bc//d/")) = some (s', r) ∧
      Ends recordingClient [] rr (components (str "//a/bc//d/")) s'
        (r.outcome (cstr (str "//a/bc//d/"))) :=
  ⟨by decide, by decide, (resolv_resolu recordingClient (by decide) (by decide) []).1⟩

end DeltaFs
