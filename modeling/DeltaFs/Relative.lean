import DeltaFs.Permissions
import DeltaFs.Sequential

/-!
# Paths beneath an `AT`

`Atdir` turns a path into a handle, the stat of the parent directory and the
last name, or NULL for the root, and other operations start from it. On a
filesystem of its own a client's regular lookups return what the filesystem
holds, so an operation is a function of its content; `relative_iff` compares
the operation on `p2` beneath the handle of `p1` with the one on `p1` followed
by `p2`.

The lookups of a client with leases return what a function of the content returns
(`lokup_resolve`), and so do whole operations (`withParent_resolve`). Paths are then compared
on the content alone, where a path that is appended to another is followed from where that
one has led.
-/

namespace DeltaFs

open Words

/-! ## Paths one after the other

As bytes the second path is appended to the first; it begins with a slash itself. The components
of the whole are those of the first and then those of the second, and a slash follows the last
component of the whole if one follows that of the second, provided that this has a component. -/

theorem components_append {p₁ p₂ : Slice} (h : p₂.head? = some slash) :
    components (p₁ ++ p₂) = components p₁ ++ components p₂ := by
  cases p₂ with
  | nil => cases h
  | cons b p₂ =>
    obtain rfl : b = slash := Option.some.inj h
    rw [components, words_append_sep, components, components, words_sep_cons]

/-- An absolute path has tailing slashes if it has a component and ends with a
slash. -/
theorem tailingSlashes_iff {path : Slice} (hs : path.head? = some slash) :
    TailingSlashes path ↔ components path ≠ [] ∧ path.getLast? = some slash := by
  refine ⟨TailingSlashes.components, fun h => ?_⟩
  obtain ⟨hne, hlast⟩ := h
  obtain ⟨k, m, hrev, hm⟩ := exists_replicate_append slash path.reverse
  have hpath : path = m.reverse ++ List.replicate k slash := by
    rw [← List.reverse_reverse path, hrev, List.reverse_append, List.reverse_replicate]
  cases k with
  | zero =>
    rw [List.replicate_zero, List.nil_append] at hrev
    rw [← hrev, List.head?_reverse] at hm
    exact absurd hlast hm
  | succ k =>
    have hmem : slash ∈ m := by
      cases hmr : m.reverse with
      | nil =>
        rw [hpath, hmr, List.nil_append, components, ← List.append_nil (List.replicate _ slash),
          words_replicate_append, words_nil] at hne
        exact absurd rfl hne
      | cons b t =>
        rw [hpath, hmr] at hs
        obtain rfl : b = slash := Option.some.inj hs
        exact List.mem_reverse.mp (hmr ▸ List.mem_cons_self ..)
    -- the last slash before the run that ends the path
    obtain ⟨c, pre, rfl, hc⟩ := List.eq_append_cons_of_mem hmem
    refine ⟨pre.reverse, c.reverse, k, fun hnil => ?_, fun h => hc (List.mem_reverse.mp h), ?_⟩
    · rw [List.reverse_eq_nil_iff.mp hnil] at hm
      exact hm rfl
    · rw [hpath, List.reverse_append, List.reverse_cons, List.append_assoc, List.append_assoc]
      rfl

namespace FilesystemCli

open Client Rpc

/-- `p1` followed by `p2`. -/
def AbsolutePath.append (p₁ p₂ : AbsolutePath) : AbsolutePath where
  bytes := p₁.bytes ++ p₂.bytes
  noNul h := (List.mem_append.mp h).elim p₁.noNul p₂.noNul
  absolute := by
    rw [List.head?_append, p₁.absolute]
    rfl

theorem tailingSlashes_append {p₁ p₂ : AbsolutePath} (h : components p₂.bytes ≠ []) :
    TailingSlashes (p₁.append p₂).bytes ↔ TailingSlashes p₂.bytes := by
  have hlast : (p₁.append p₂).bytes.getLast? = p₂.bytes.getLast? := by
    cases hp : p₂.bytes with
    | nil => rw [hp] at h; exact absurd words_nil h
    | cons b t =>
      show (p₁.bytes ++ p₂.bytes).getLast? = (b :: t).getLast?
      rw [hp, List.getLast?_append, List.getLast?_cons, Option.some_or]
  have hne : components (p₁.append p₂).bytes ≠ [] := by
    rw [AbsolutePath.append, components_append p₂.absolute]
    exact List.append_ne_nil_of_right_ne_nil _ h
  rw [tailingSlashes_iff (p₁.append p₂).absolute, tailingSlashes_iff p₂.absolute, hlast]
  exact and_congr_left fun _ => iff_of_true hne h

/-! ## Lookups as functions of the content

What a client's regular lookups return is what the filesystem holds, whatever leases there
are, so a walk along a path can be computed from the content. -/

section Content

open Filesystem

variable (opts : Options) (fs : Filesystem) (ts : UInt64)

/-- What a regular lookup returns, by the content of the filesystem alone. -/
def resolve (d : Content) (u : User) (p : LookupStat) (name : Slice) :
    Except (ErrCode × Slice) LookupStat :=
  if isLookupOk opts.skipPermChecks p u then ((fs.server ts).lokup d u p name).2
  else .error (.accessDenied, str "No x perm")

/-- The names looked up in order, each in the directory found before it. -/
def resolveAll (d : Content) (u : User) : LookupStat → List Slice →
    Except (ErrCode × Slice) LookupStat
  | p, [] => .ok p
  | p, c :: cs =>
    match resolve opts fs ts d u p c with
    | .error e => .error e
    | .ok p => resolveAll d u p cs

/-- The relative root of a path. -/
def resolveAt (d : Content) (u : User) : At → Except (ErrCode × Slice) LookupStat
  | none => .ok rtlokupstat
  | some (p, name) => resolve opts fs ts d u p name

/-- The final parent of the path with the components `cs`. -/
def finalParent (d : Content) (u : User) (start : At) (cs : List Slice) :
    Except (ErrCode × Slice) LookupStat :=
  match resolveAt opts fs ts d u start with
  | .error e => .error e
  | .ok p => resolveAll opts fs ts d u p cs.dropLast

variable {opts fs ts} {d : Content} {u : User} {p : LookupStat}

theorem resolveAll_append (cs cs' : List Slice) :
    resolveAll opts fs ts d u p (cs ++ cs') =
      match resolveAll opts fs ts d u p cs with
      | .error e => .error e
      | .ok p => resolveAll opts fs ts d u p cs' := by
  induction cs generalizing p with
  | nil => rfl
  | cons c cs ih =>
    rw [List.cons_append, resolveAll, resolveAll]
    cases resolve opts fs ts d u p c with
    | error e => rfl
    | ok p => exact ih

/-- A lookup returns a directory, under a lease that does not end. -/
theorem resolve_ok {name : Slice} {q : LookupStat} (h : resolve opts fs ts d u p name = .ok q) :
    q.leaseDue = -1 ∧ isDir q.dirMode = true := by
  rw [resolve] at h
  split at h
  · obtain ⟨-, -, st, -, hdir, rfl⟩ := entry_of_lokup h
    exact ⟨rfl, hdir⟩
  · cases h

theorem resolveAll_due {cs : List Slice} {q : LookupStat} (hp : p.leaseDue = -1)
    (h : resolveAll opts fs ts d u p cs = .ok q) : q.leaseDue = -1 := by
  induction cs generalizing p with
  | nil =>
    cases h
    exact hp
  | cons c cs ih =>
    rw [resolveAll] at h
    cases hc : resolve opts fs ts d u p c with
    | error e => rw [hc] at h; cases h
    | ok p' =>
      rw [hc] at h
      exact ih (resolve_ok hc).1 h

theorem isLookupOk_mono {b b' : Bool} {who : User} (h : b = true → b' = true)
    (hok : isLookupOk b p who = true) : isLookupOk b' p who = true := by
  cases b' with
  | true => rfl
  | false =>
    cases b with
    | false => exact hok
    | true => cases h rfl

variable (hperm : opts.skipPermChecks = true → fs.options.skipPermChecks = true)
  (hcoll : fs.options.skipNameCollisionChecks = false)

include hperm hcoll

/-- **A regular lookup** returns what the filesystem holds, whatever leases the
client has. -/
theorem lokup_resolve {s : Client Content} (hi : s.Inv fs.Entry) (u : User) {p : LookupStat}
    (hdue : p.leaseDue = -1) (name : Slice) :
    (lokup opts (fs.server ts) u s p name .kRegular).1.Inv fs.Entry ∧
      (lokup opts (fs.server ts) u s p name .kRegular).1.content = s.content ∧
      match (lokup opts (fs.server ts) u s p name .kRegular).2 with
      | .error e => resolve opts fs ts s.content u p name = .error e
      | .ok h => resolve opts fs ts s.content u p name =
          .ok ((pathClient opts (fs.server ts) u).rep h) ∧
          ((pathClient opts (fs.server ts) u).rep h).leaseDue = -1 := by
  obtain ⟨hinv, -, hspec⟩ := hi.lokup (keeps_entry opts hcoll) u p name .kRegular rfl
  generalize lokup opts (fs.server ts) u s p name .kRegular = r at hinv hspec
  obtain ⟨s', found⟩ := r
  cases hspec with
  | @ok r hok _ _ hentry hcontent =>
    have hc : s'.content = s.content := by
      cases hcontent with
      | inl h => exact h
      | inr h => exact h.trans (lokup_content ..)
    rw [hc] at hentry
    refine ⟨hinv, hc, ?_, ?_⟩
    · rw [resolve, if_pos hok, lokup_entry hentry (isLookupOk_mono hperm hok) hdue]
      rfl
    · obtain ⟨-, -, st, -, -, hrep⟩ := hentry
      show r.rep.leaseDue = -1
      rw [hrep]
      rfl
  | refused hok hs =>
    refine ⟨hinv, congrArg Client.content hs, ?_⟩
    show resolve opts fs ts s.content u p name = _
    rw [resolve, hok]
    rfl
  | mismatch hother hne => exact absurd hother.1 hne
  | failed hok herr hcontent =>
    refine ⟨hinv, hcontent.trans (lokup_content ..), ?_⟩
    show resolve opts fs ts s.content u p name = _
    rw [resolve, if_pos hok, herr]

/-- **A walk** ends where the content says. By induction on the components, with
`lokup_resolve` for each. -/
theorem resolveComponents_resolve (u : User) (s : Client Content) (l : Handle) (cs : List Slice)
    (hi : s.Inv fs.Entry) (hdue : ((pathClient opts (fs.server ts) u).rep l).leaseDue = -1) :
    (resolveComponents (pathClient opts (fs.server ts) u).toLeaseClient s l cs).1.Inv fs.Entry ∧
      (resolveComponents (pathClient opts (fs.server ts) u).toLeaseClient s l cs).1.content =
        s.content ∧
      match resolveAll opts fs ts s.content u ((pathClient opts (fs.server ts) u).rep l)
        cs.dropLast with
      | .error e => (resolveComponents (pathClient opts (fs.server ts) u).toLeaseClient s l
          cs).2.status = .err e.1 e.2
      | .ok p => (resolveComponents (pathClient opts (fs.server ts) u).toLeaseClient s l
            cs).2.status = .ok ∧
          (pathClient opts (fs.server ts) u).rep (resolveComponents
            (pathClient opts (fs.server ts) u).toLeaseClient s l cs).2.parentDir = p := by
  induction s, l, cs using
    resolveComponents.induct (pathClient opts (fs.server ts) u).toLeaseClient with
  | case1 s l => exact ⟨hi, rfl, rfl, rfl⟩
  | case2 s l c => exact ⟨hi, rfl, rfl, rfl⟩
  | case3 s l c c' cs s₁ tmp hfound ih =>
    obtain ⟨hinv, hcontent, hres⟩ := lokup_resolve hperm hcoll hi u hdue c
    have hlokup : lokup opts (fs.server ts) u s ((pathClient opts (fs.server ts) u).rep l) c
      .kRegular = (s₁, .ok tmp) := hfound
    rw [hlokup] at hinv hcontent hres
    obtain ⟨hres, hdue'⟩ := hres
    have hcontent' : ((pathClient opts (fs.server ts) u).release s₁ l).content = s.content :=
      (release_content s₁ l).trans hcontent
    obtain ⟨hinv', hc', hrest⟩ := ih (hinv.release l) hdue'
    rw [hcontent'] at hrest
    rw [resolveComponents, hfound]
    refine ⟨hinv', hc'.trans hcontent', ?_⟩
    rw [List.dropLast_cons_of_ne_nil (List.cons_ne_nil c' cs), resolveAll, hres]
    exact hrest
  | case4 s l c c' cs s₁ e hfound =>
    obtain ⟨hinv, hcontent, hres⟩ := lokup_resolve hperm hcoll hi u hdue c
    have hlokup : lokup opts (fs.server ts) u s ((pathClient opts (fs.server ts) u).rep l) c
      .kRegular = (s₁, .error e) := hfound
    rw [hlokup] at hinv hcontent hres
    rw [resolveComponents, hfound]
    refine ⟨hinv, hcontent, ?_⟩
    rw [List.dropLast_cons_of_ne_nil (List.cons_ne_nil c' cs), resolveAll]
    simp only at hres
    rw [hres]

/-- The relative root. -/
theorem start_resolve (u : User) {s : Client Content} (hi : s.Inv fs.Entry) (start : At)
    (hstart : ∀ p name, start = some (p, name) → p.leaseDue = -1) :
    ((pathClient opts (fs.server ts) u).start s start).1.Inv fs.Entry ∧
      ((pathClient opts (fs.server ts) u).start s start).1.content = s.content ∧
      match ((pathClient opts (fs.server ts) u).start s start).2 with
      | .error e => resolveAt opts fs ts s.content u start = .error e
      | .ok h => resolveAt opts fs ts s.content u start =
          .ok ((pathClient opts (fs.server ts) u).rep h) ∧
          ((pathClient opts (fs.server ts) u).rep h).leaseDue = -1 := by
  cases start with
  | none => exact ⟨hi, rfl, rfl, rfl⟩
  | some a => exact lokup_resolve hperm hcoll hi u (hstart a.1 a.2 rfl) a.2

/-- **An operation on a path** is a function of the content, if its last part
is. -/
theorem withParent_resolve {α : Type} (u : User) {s : Client Content} (hi : s.Inv fs.Entry)
    (start : At) (hstart : ∀ p name, start = some (p, name) → p.leaseDue = -1)
    (pathname : AbsolutePath) (ret : α)
    {f : Client Content → Handle → Slice → Bool → Client Content × Status × α}
    {F : Content → LookupStat → Slice → Bool → Content × Status × α}
    (hf : ∀ s l tgt tailing, ((f s l tgt tailing).1.content, (f s l tgt tailing).2) =
      F s.content ((pathClient opts (fs.server ts) u).rep l) tgt tailing) :
    ∃ x tailing, (pathClient opts (fs.server ts) u).withParent s start (cstr pathname.bytes) ret f =
        some x ∧ (tailing = true ↔ TailingSlashes pathname.bytes) ∧
      match finalParent opts fs ts s.content u start (components pathname.bytes) with
      | .error e => x.1.content = s.content ∧ x.2.1.code = some e.1 ∧ x.2.2 = ret
      | .ok p =>
        x.1.content = (F s.content p ((components pathname.bytes).getLastD []) tailing).1 ∧
        x.2.1.code = (F s.content p ((components pathname.bytes).getLastD []) tailing).2.1.code ∧
        x.2.2 = (F s.content p ((components pathname.bytes).getLastD []) tailing).2.2 := by
  obtain ⟨x, tailing, hx, htail, hstate, hcode, hval⟩ := (pathClient opts (fs.server ts)
    u).withParent_eq pathname.noNul pathname.absolute s start ret f
  refine ⟨x, tailing, hx, htail, ?_⟩
  rw [hstate, hcode, hval, PathClient.beneath, finalParent]
  obtain ⟨hinv, hcontent, hres⟩ := start_resolve hperm hcoll u hi start hstart
  generalize (pathClient opts (fs.server ts) u).start s start = r at hinv hcontent hres
  obtain ⟨s₁, found⟩ := r
  cases found with
  | error e =>
    simp only at hres hcontent ⊢
    rw [hres]
    exact ⟨hcontent, rfl, trivial⟩
  | ok rr =>
    obtain ⟨hres, hdue⟩ := hres
    obtain ⟨-, hcontent', hwalk⟩ := resolveComponents_resolve hperm hcoll u s₁ rr
      (components pathname.bytes) hinv hdue
    have hcontent : s₁.content = s.content := hcontent
    rw [hcontent] at hcontent' hwalk
    simp only [hres]
    cases hall : resolveAll opts fs ts s.content u ((pathClient opts (fs.server ts) u).rep rr)
      (components pathname.bytes).dropLast with
    | error e =>
      rw [hall] at hwalk
      simp only [hwalk]
      exact ⟨(release_content _ _).trans hcontent', rfl, trivial⟩
    | ok p =>
      rw [hall] at hwalk
      obtain ⟨hst, hrep⟩ := hwalk
      simp only [hst]
      have hfx := hf (resolveComponents (pathClient opts (fs.server ts) u).toLeaseClient s₁ rr
        (components pathname.bytes)).1 (resolveComponents (pathClient opts (fs.server ts)
        u).toLeaseClient s₁ rr (components pathname.bytes)).2.parentDir
        ((components pathname.bytes).getLastD []) tailing
      rw [hrep, hcontent'] at hfx
      rw [← hfx]
      exact ⟨release_content _ _, rfl, rfl⟩

end Content

/-! ## The last part of an operation, on the content

The same for the request that follows the walk: its result, and the content after it. -/

section Operations

open Filesystem

variable (opts : Options) (fs : Filesystem) (ts : UInt64) (u : User)

/-- A request that is sent if the user may. -/
def requestOn (ok : Bool) (msg : String) (d : Content) (stat : Stat)
    (f : Content → Content × Status × Stat) : Content × Status × Stat :=
  if ok then f d else (d, .err .accessDenied (str msg), stat)

/-- The last part of `Mkfle`. -/
def mkfleOn (mode : UInt32) (stat : Stat) (d : Content) (p : LookupStat) (tgt : Slice)
    (tailing : Bool) : Content × Status × Stat :=
  if tgt ≠ [] ∧ tailing = false then
    requestOn (isDirWriteOk opts.skipPermChecks p u) "No write perm" d stat fun d =>
      (fs.server ts).mkfle d u p tgt mode stat
  else (d, .err .fileExpected (str "Path is dir"), stat)

/-- The last part of `Mkdir`. -/
def mkdirOn (mode : UInt32) (stat : Stat) (d : Content) (p : LookupStat) (tgt : Slice)
    (_ : Bool) : Content × Status × Stat :=
  if tgt ≠ [] then
    requestOn (isDirWriteOk opts.skipPermChecks p u) "No write perm" d stat fun d =>
      (fs.server ts).mkdir d u p tgt mode stat
  else (d, .err .alreadyExists [], stat)

/-- The last part of `Lstat`. -/
def lstatOn (stat : Stat) (d : Content) (p : LookupStat) (tgt : Slice) (tailing : Bool) :
    Content × Status × Stat :=
  if tgt ≠ [] then
    let r := requestOn (isLookupOk opts.skipPermChecks p u) "No x perm" d stat fun d =>
      (fs.server ts).lstat d u p tgt stat
    if tailing ∧ isDir r.2.2.fileMode = false then
      (r.1, .err .dirExpected (str "Not a dir"), r.2.2)
    else r
  else (d, .ok, rtstat)

/-- The last part of `Atdir`. -/
def atdirOn (d : Content) (p : LookupStat) (tgt : Slice) (_ : Bool) : Content × Status × Option At :=
  if tgt ≠ [] then (d, .ok, some (some (p, tgt))) else (d, .ok, some none)

end Operations

/-! ## Composition

Two operations compose if they come to the same final parent with the same last name. For a
handle and a path beneath it that is a fact about lists of components. -/

section Composition

open Filesystem

variable (opts : Options) (fs : Filesystem) (ts : UInt64)

/-- The clients of a filesystem: new, or after an operation of any user without
a batch or a bulk insertion, or after others worked on the filesystem. -/
inductive Reached (content : Content) (clock : Nat → UInt64) : Client Content → Prop where
  | start : Reached content clock (Client.start opts content clock)
  | path {s s' : Client Content} {who : User} {op : PathOp} {start : At}
      {pathname : AbsolutePath} : Reached content clock s → (∀ mode, op ≠ .initHandle mode) →
      op.run (pathClient opts (fs.server ts) who) s start (cstr pathname.bytes) = some s' →
      Reached content clock s'
  | lokup {s : Client Content} {who : User} {p : LookupStat} {name : Slice} :
      Reached content clock s →
      Reached content clock (Client.lokup opts (fs.server ts) who s p name .kRegular).1
  | release {s : Client Content} {h : Handle} : Reached content clock s →
      Reached content clock (s.release h)
  | deletePartition {s : Client Content} {k : DirId × Nat} : Reached content clock s →
      Reached content clock (s.deletePartition opts k)
  | mkfle {s : Client Content} {who : User} {p : LookupStat} {name : Slice} {mode : UInt32}
      {stat : Stat} : Reached content clock s → Reached content clock
        { s with content := ((fs.server ts).mkfle s.content who p name mode stat).1 }
  | mkdir {s : Client Content} {who : User} {p : LookupStat} {name : Slice} {mode : UInt32}
      {stat : Stat} : Reached content clock s → Reached content clock
        { s with content := ((fs.server ts).mkdir s.content who p name mode stat).1 }

/-- Two outcomes that differ at most in the message of the status: the same
content, the same code, and the same value by `f`. -/
def SameOutcome {α β : Type} (f : α → β) (x y : Option (Client Content × Status × α)) : Prop :=
  ∃ a b, x = some a ∧ y = some b ∧ a.1.content = b.1.content ∧ a.2.1.code = b.2.1.code ∧
    f a.2.2 = f b.2.2

/-- `Lstat`, `Mkdir`, `Mkfle` and `Atdir` of `p2` beneath `h` do what they do of
`p1` followed by `p2`. Two handles are the same if they denote the same
directory. -/
structure Composes (u : User) (s : Client Content) (h : At) (p₁ p₂ : AbsolutePath) : Prop where
  lstat : ∀ stat, SameOutcome id
    ((pathClient opts (fs.server ts) u).lstat s h (cstr p₂.bytes) stat)
    ((pathClient opts (fs.server ts) u).lstat s none (cstr (p₁.append p₂).bytes) stat)
  mkdir : ∀ mode stat, SameOutcome id
    ((pathClient opts (fs.server ts) u).mkdir s h (cstr p₂.bytes) mode stat)
    ((pathClient opts (fs.server ts) u).mkdir s none (cstr (p₁.append p₂).bytes) mode stat)
  mkfle : ∀ mode stat, SameOutcome id
    ((pathClient opts (fs.server ts) u).mkfle s h (cstr p₂.bytes) mode stat)
    ((pathClient opts (fs.server ts) u).mkfle s none (cstr (p₁.append p₂).bytes) mode stat)
  atdir : SameOutcome (Option.map (resolveAt opts fs ts s.content u))
    ((pathClient opts (fs.server ts) u).atdir s h (cstr p₂.bytes))
    ((pathClient opts (fs.server ts) u).atdir s none (cstr (p₁.append p₂).bytes))

variable {opts fs ts} {u : User} {s : Client Content} {p₁ p₂ : AbsolutePath} {h : At}
  (hperm : opts.skipPermChecks = true → fs.options.skipPermChecks = true)
  (hcoll : fs.options.skipNameCollisionChecks = false)

include hcoll in
theorem Reached.inv {content : Content} {clock : Nat → UInt64}
    (hs : Reached opts fs ts content clock s) : s.Inv fs.Entry := by
  have hk : Keeps opts (fs.server ts) (fun mode => mode = .kRegular) fs.Entry :=
    keeps_entry opts hcoll
  induction hs with
  | start => exact Inv.start _ _
  | path _ hop hx ih =>
    exact pathOp_inv hk rfl (fun mode heq => absurd heq (hop mode)) _ ih _ _ hx
  | lokup _ ih => exact (ih.lokup hk _ _ _ .kRegular rfl).1
  | release _ ih => exact ih.release _
  | deletePartition _ ih => exact ih.deletePartition _
  | mkfle _ ih => exact ih.content hk.mkfle
  | mkdir _ ih => exact ih.content hk.mkdir

/-- The handle of a path: its final parent and last name, or NULL for the
root. -/
def handleOf (p : LookupStat) (cs : List Slice) : At :=
  if cs.getLastD [] ≠ [] then some (p, cs.getLastD []) else none

/-- Beneath the handle of a path with a component one gets where the longer path
leads. -/
theorem finalParent_append {d : Content} {p : LookupStat} {cs cs' : List Slice} (hcs : cs ≠ [])
    (hcs' : cs' ≠ []) (hp : finalParent opts fs ts d u none cs = .ok p) :
    finalParent opts fs ts d u none (cs ++ cs') =
      finalParent opts fs ts d u (some (p, cs.getLastD [])) cs' := by
  have hsplit : (cs ++ cs').dropLast = cs.dropLast ++ cs.getLastD [] :: cs'.dropLast := by
    rw [List.dropLast_append_of_ne_nil hcs', ← List.dropLast_append_getLast hcs,
      List.append_assoc, List.dropLast_concat, List.getLastD_concat]
    rfl
  have hp : resolveAll opts fs ts d u rtlokupstat cs.dropLast = .ok p := hp
  show resolveAll opts fs ts d u rtlokupstat (cs ++ cs').dropLast = _
  rw [hsplit, resolveAll_append, hp, finalParent, resolveAt]
  rfl

variable (opts fs ts u) in
/-- The last part of `Atdir`, on the content. -/
theorem atdir_content (s : Client Content) (l : Handle) (tgt : Slice) (tailing : Bool) :
    (((if tgt ≠ [] then (s, Status.ok, some (some ((pathClient opts (fs.server ts) u).rep l, tgt)))
      else (s, .ok, some none) : Client Content × Status × Option At)).1.content,
      ((if tgt ≠ [] then (s, Status.ok, some (some ((pathClient opts (fs.server ts) u).rep l, tgt)))
      else (s, .ok, some none) : Client Content × Status × Option At)).2) =
      atdirOn s.content ((pathClient opts (fs.server ts) u).rep l) tgt tailing := by
  rw [atdirOn]
  split
  · rfl
  · rfl

/-- Beneath the handle of `p1`, two paths with the same outcome for every
operation whose last part is a function of the content. -/
theorem Composes.of_same
    (hsame : ∀ {α β : Type} (g : α → β) (ret : α)
      {f : Client Content → Handle → Slice → Bool → Client Content × Status × α}
      {F : Content → LookupStat → Slice → Bool → Content × Status × α},
      (∀ d p t t', F d p [] t = F d p [] t') →
      (∀ s l tgt tailing, ((f s l tgt tailing).1.content, (f s l tgt tailing).2) =
        F s.content ((pathClient opts (fs.server ts) u).rep l) tgt tailing) →
      SameOutcome g ((pathClient opts (fs.server ts) u).withParent s h (cstr p₂.bytes) ret f)
        ((pathClient opts (fs.server ts) u).withParent s none (cstr (p₁.append p₂).bytes) ret f)) :
    Composes opts fs ts u s h p₁ p₂ where
  lstat stat := by
    refine hsame (F := lstatOn opts fs ts u stat) id stat (fun _ _ _ _ => rfl)
      fun s l tgt tailing => ?_
    rw [lstatOn]
    split
    · -- a request reads of the client only the content, so what it gives is a function of it
      have hreq : ∀ ok msg (g : Content → Content × Status × Stat),
          (request ok msg s stat g).2 = (requestOn ok msg s.content stat g).2 ∧
          (request ok msg s stat g).1.content = (requestOn ok msg s.content stat g).1 := by
        intro ok msg g
        rw [request, requestOn]
        split
        · exact ⟨rfl, rfl⟩
        · exact ⟨rfl, rfl⟩
      have hlstat : ((pathClient opts (fs.server ts) u).lstat1 s
            ((pathClient opts (fs.server ts) u).rep l) tgt stat).2 = (requestOn
              (isLookupOk opts.skipPermChecks ((pathClient opts (fs.server ts) u).rep l) u)
              "No x perm" s.content stat fun d => (fs.server ts).lstat d u
                ((pathClient opts (fs.server ts) u).rep l) tgt stat).2 ∧
          ((pathClient opts (fs.server ts) u).lstat1 s
            ((pathClient opts (fs.server ts) u).rep l) tgt stat).1.content = (requestOn
              (isLookupOk opts.skipPermChecks ((pathClient opts (fs.server ts) u).rep l) u)
              "No x perm" s.content stat fun d => (fs.server ts).lstat d u
                ((pathClient opts (fs.server ts) u).rep l) tgt stat).1 := hreq _ _ _
      generalize requestOn _ _ s.content stat _ = x at hlstat
      generalize (pathClient opts (fs.server ts) u).lstat1 s _ tgt stat = y at hlstat
      obtain ⟨d, st, stat₁⟩ := x
      obtain ⟨s₁, st', stat₂⟩ := y
      obtain ⟨hval, hcontent⟩ := hlstat
      cases hval
      have hcontent : s₁.content = d := hcontent
      subst hcontent
      dsimp only
      split
      · rfl
      · rfl
    · rfl
  mkdir mode stat := by
    refine hsame (F := mkdirOn opts fs ts u mode stat) id stat (fun _ _ _ _ => rfl)
      fun s l tgt tailing => ?_
    rw [mkdirOn]
    split
    · show ((request _ _ s stat _).1.content, (request _ _ s stat _).2) = _
      rw [request, requestOn]
      split
      · rfl
      · rfl
    · rfl
  mkfle mode stat := by
    refine hsame (F := mkfleOn opts fs ts u mode stat) id stat (fun _ _ t t' => ?_)
      fun s l tgt tailing => ?_
    · -- without a name `Mkfle` fails whether or not the path ends in a slash
      rw [mkfleOn, mkfleOn, if_neg (fun h => h.1 rfl), if_neg (fun h => h.1 rfl)]
    · rw [mkfleOn]
      split
      · show ((request _ _ s stat _).1.content, (request _ _ s stat _).2) = _
        rw [request, requestOn]
        split
        · rfl
        · rfl
      · rfl
  atdir := by
    refine hsame (F := atdirOn) _ none (fun _ _ _ _ => rfl) fun s l tgt tailing => ?_
    exact atdir_content opts fs ts u s l tgt tailing

include hperm hcoll

/-- Two paths with the same final parent and the same end. -/
theorem sameOutcome {α β : Type} (g : α → β) (hi : s.Inv fs.Entry) {start start' : At}
    (hstart : ∀ p name, start = some (p, name) → p.leaseDue = -1)
    (hstart' : ∀ p name, start' = some (p, name) → p.leaseDue = -1) {q q' : AbsolutePath}
    (hpar : finalParent opts fs ts s.content u start (components q.bytes) =
      finalParent opts fs ts s.content u start' (components q'.bytes))
    (hlast : (components q.bytes).getLastD [] = (components q'.bytes).getLastD [])
    (htail : components q.bytes ≠ [] → (TailingSlashes q.bytes ↔ TailingSlashes q'.bytes))
    {ret : α} {f : Client Content → Handle → Slice → Bool → Client Content × Status × α}
    {F : Content → LookupStat → Slice → Bool → Content × Status × α}
    (hF : ∀ d p t t', F d p [] t = F d p [] t')
    (hf : ∀ s l tgt tailing, ((f s l tgt tailing).1.content, (f s l tgt tailing).2) =
      F s.content ((pathClient opts (fs.server ts) u).rep l) tgt tailing) :
    SameOutcome g ((pathClient opts (fs.server ts) u).withParent s start (cstr q.bytes) ret f)
      ((pathClient opts (fs.server ts) u).withParent s start' (cstr q'.bytes) ret f) := by
  obtain ⟨x, t, hx, ht, hres⟩ := withParent_resolve hperm hcoll u hi start hstart q ret hf
  obtain ⟨y, t', hy, ht', hres'⟩ := withParent_resolve hperm hcoll u hi start' hstart' q' ret hf
  have heq : ∀ d p, F d p ((components q.bytes).getLastD []) t =
      F d p ((components q'.bytes).getLastD []) t' := by
    intro d p
    by_cases hne : components q.bytes = []
    · rw [← hlast, hne]
      exact hF d p t t'
    · rw [← hlast, Bool.eq_iff_iff.mpr (ht.trans ((htail hne).trans ht'.symm))]
  refine ⟨x, y, hx, hy, ?_⟩
  rw [← hpar] at hres'
  cases hfin : finalParent opts fs ts s.content u start (components q.bytes) with
  | error e =>
    rw [hfin] at hres hres'
    exact ⟨hres.1.trans hres'.1.symm, hres.2.1.trans hres'.2.1.symm, by rw [hres.2.2, hres'.2.2]⟩
  | ok p =>
    rw [hfin] at hres hres'
    simp only [heq] at hres
    exact ⟨hres.1.trans hres'.1.symm, hres.2.1.trans hres'.2.1.symm, by rw [hres.2.2, hres'.2.2]⟩

/-- The handle `Atdir` makes of a path. -/
theorem atdir_handle (hi : s.Inv fs.Entry) {s' : Client Content}
    (hat : (pathClient opts (fs.server ts) u).atdir s none (cstr p₁.bytes) = some (s', .ok, some h)) :
    ∃ p, s'.content = s.content ∧
      finalParent opts fs ts s.content u none (components p₁.bytes) = .ok p ∧
      h = handleOf p (components p₁.bytes) ∧ p.leaseDue = -1 := by
  obtain ⟨x, t, hx, -, hres⟩ := withParent_resolve hperm hcoll u hi none (fun _ _ h => by cases h)
    p₁ none (atdir_content opts fs ts u)
  have hx' : some x = some (s', .ok, some h) := hx.symm.trans hat
  cases hx'
  cases hfin : finalParent opts fs ts s.content u none (components p₁.bytes) with
  | error e =>
    rw [hfin] at hres
    cases hres.2.1
  | ok p =>
    rw [hfin] at hres
    refine ⟨p, ?_, rfl, ?_, resolveAll_due rfl hfin⟩
    · refine hres.1.trans ?_
      rw [atdirOn]
      split
      · rfl
      · rfl
    · have hval := hres.2.2
      rw [atdirOn] at hval
      rw [handleOf]
      split at hval
      · rename_i hne
        rw [if_pos hne]
        exact Option.some.inj hval
      · rename_i hne
        rw [if_neg hne]
        exact Option.some.inj hval

/-- NULL stands for the root, which no name leads to. -/
theorem not_composes {p : LookupStat} {name : Slice} (hi : s.Inv fs.Entry) (hdue : p.leaseDue = -1)
    (hname : name ≠ []) (hcs : components p₂.bytes = [])
    (hfin : finalParent opts fs ts s.content u none (components (p₁.append p₂).bytes) = .ok p)
    (hlast : (components (p₁.append p₂).bytes).getLastD [] = name) :
    ¬Composes opts fs ts u s (some (p, name)) p₁ p₂ := by
  intro hcomp
  obtain ⟨a, b, ha, hb, -, hcode, hval⟩ := hcomp.atdir
  obtain ⟨x, t, hx, -, hres⟩ := withParent_resolve hperm hcoll u hi (some (p, name))
    (fun q n h => by cases h; exact hdue) p₂ none
    (atdir_content opts fs ts u)
  obtain ⟨y, t', hy, -, hres'⟩ := withParent_resolve hperm hcoll u hi none
    (fun _ _ h => by cases h) (p₁.append p₂) none
    (atdir_content opts fs ts u)
  have hax : some x = some a := hx.symm.trans ha
  have hby : some y = some b := hy.symm.trans hb
  cases hax
  cases hby
  rw [hfin] at hres'
  simp only [hlast, atdirOn, if_pos hname] at hres'
  rw [hres'.2.1] at hcode
  rw [hcs] at hres
  cases hroot : resolve opts fs ts s.content u p name with
  | error e =>
    simp only [finalParent, resolveAt, hroot] at hres
    rw [hres.2.1] at hcode
    cases hcode
  | ok q =>
    simp only [finalParent, resolveAt, hroot, List.dropLast_nil, resolveAll, List.getLastD_nil,
      atdirOn, ne_eq, not_true_eq_false, if_false] at hres
    rw [hres.2.2, hres'.2.2] at hval
    have hq : some (Except.ok rtlokupstat) = some (resolve opts fs ts s.content u p name) := hval
    rw [hroot] at hq
    cases hq
    exact absurd (resolve_ok hroot).2 (by decide)

/-- **Relative resolution composes** exactly for the paths `p2` that have a
component, and for all of them beneath the root.

With a component, `p2` is followed from the handle the way it is followed after `p1`, since
the lease of the handle is the one `p1` leads to. Without one the operations take the path
for the root of the filesystem, wherever the handle is (`not_composes`). -/
theorem relative_iff {content : Content} {clock : Nat → UInt64} {s₀ : Client Content}
    (hreached : Reached opts fs ts content clock s₀)
    (hat : (pathClient opts (fs.server ts) u).atdir s₀ none (cstr p₁.bytes) = some (s, .ok, some h)) :
    Composes opts fs ts u s h p₁ p₂ ↔ components p₂.bytes ≠ [] ∨ components p₁.bytes = [] := by
  have hi₀ := hreached.inv hcoll
  obtain ⟨p, hcontent, hfin, hh, hdue⟩ := atdir_handle hperm hcoll hi₀ hat
  have hrun : PathOp.atdir.run (pathClient opts (fs.server ts) u) s₀ none (cstr p₁.bytes) =
      some s := by
    rw [PathOp.run, hat]
    rfl
  have hi : s.Inv fs.Entry := (hreached.path (fun _ h => by cases h) hrun).inv hcoll
  rw [← hcontent] at hfin
  have hcomp : components (p₁.append p₂).bytes = components p₁.bytes ++ components p₂.bytes :=
    components_append p₂.absolute
  by_cases h₁ : components p₁.bytes = []
  · -- the handle is NULL, and the two paths have the same components
    refine iff_of_true ?_ (.inr h₁)
    rw [handleOf, h₁, List.getLastD_nil, if_neg (fun hne => hne rfl)] at hh
    rw [h₁, List.nil_append] at hcomp
    subst hh
    refine Composes.of_same fun g ret _ _ hF hf => ?_
    exact sameOutcome hperm hcoll g hi (fun _ _ h => by cases h) (fun _ _ h => by cases h)
      (by rw [hcomp]) (by rw [hcomp]) (fun hne => (tailingSlashes_append hne).symm) hF hf
  · have hne₁ : (components p₁.bytes).getLastD [] ≠ [] := getLastD_ne_nil h₁
    rw [handleOf, if_pos hne₁] at hh
    subst hh
    by_cases h₂ : components p₂.bytes = []
    · refine iff_of_false ?_ fun h => h.elim (fun h => h h₂) h₁
      rw [h₂, List.append_nil] at hcomp
      exact not_composes hperm hcoll hi hdue hne₁ h₂ (by rw [hcomp]; exact hfin) (by rw [hcomp])
    · refine iff_of_true ?_ (.inl h₂)
      refine Composes.of_same fun g ret _ _ hF hf => ?_
      refine sameOutcome hperm hcoll g hi (fun q n h => by cases h; exact hdue)
        (fun _ _ h => by cases h) ?_ ?_ (fun hne => (tailingSlashes_append hne).symm) hF hf
      · rw [hcomp]
        exact (finalParent_append h₁ h₂ hfin).symm
      · rw [hcomp, List.getLastD_eq_getLast?, List.getLastD_eq_getLast?,
          List.getLast?_append_of_ne_nil _ h₂]

end Composition

/-! ## Where it does not compose

`Atdir` of a path and then a path that is only slashes. The last component is then empty, which
is how the root is recognised, and so the operation is about the root of the filesystem instead
of the directory the handle stands for. -/

/-- A filesystem with the default options. -/
def ownFs : Filesystem := ⟨FilesystemOptions.default, ⟨fun _ _ => 0, fun _ _ => 0⟩, []⟩

/-- A user. -/
def someone : User := ⟨1, 1⟩

/-- A filesystem with the directory `a` in its root. -/
def withDir : Filesystem.Content where
  db := Function.update (fun _ => none) (entryKey ⟨0, 0⟩ (str "a"))
    (some (Stat.encodeTo ⟨0, 1, 0, 0o040777, 0, 1, 1, 0, 0⟩))
  inoq := 1

/-- `/a`. -/
def dirA : AbsolutePath := ⟨str "/a", by decide, by decide⟩

/-- `/`. -/
def rootPath : AbsolutePath := ⟨str "/", by decide, by decide⟩

/-- The server `someone` works on. -/
abbrev aServer : Server Filesystem.Content := ownFs.server 0

/-- `Atdir` of `/a`. -/
theorem atdir_dirA : ∃ s, (pathClient checking aServer someone).atdir
    (Client.start checking withDir fun _ => 0) none (cstr dirA.bytes) =
      some (s, .ok, some (some (rtlokupstat, str "a"))) := by
  have hrun : ((pathClient checking aServer someone).atdir
      (Client.start checking withDir fun _ => 0) none (cstr dirA.bytes)).map (fun x => x.2) =
        some (.ok, some (some (rtlokupstat, str "a"))) := by decide +kernel
  obtain ⟨⟨s, r⟩, hx, hr⟩ := Option.map_eq_some_iff.mp hrun
  have hr : r = (.ok, some (some (rtlokupstat, str "a"))) := hr
  exact ⟨s, hr ▸ hx⟩

/-- Beneath the handle of `/a`, the path `/` is the root and not `/a/`. -/
theorem relative_root :
    ∃ s h, (pathClient checking aServer someone).atdir (Client.start checking withDir fun _ => 0)
        none (cstr dirA.bytes) = some (s, .ok, some h) ∧
      ¬Composes checking ownFs 0 someone s h dirA rootPath := by
  obtain ⟨s, hat⟩ := atdir_dirA
  have hrun : PathOp.atdir.run (pathClient checking aServer someone)
      (Client.start checking withDir fun _ => 0) none (cstr dirA.bytes) = some s := by
    rw [PathOp.run, hat]
    rfl
  have hreached : Reached checking ownFs 0 withDir (fun _ => 0) s :=
    .path .start (fun _ h => by cases h) hrun
  refine ⟨s, _, hat, not_composes (fun h => h) rfl (hreached.inv rfl) rfl (by decide) (by decide) ?_ ?_⟩
  · rfl
  · decide

/-- `/a/f`, beneath `/a`. -/
theorem relative_iff_dirA :
    ∃ s h, (pathClient checking aServer someone).atdir (Client.start checking withDir fun _ => 0)
        none (cstr dirA.bytes) = some (s, .ok, some h) ∧
      (Composes checking ownFs 0 someone s h dirA fileInDir ↔
        components fileInDir.bytes ≠ [] ∨ components dirA.bytes = []) := by
  obtain ⟨s, hat⟩ := atdir_dirA
  exact ⟨s, _, hat, relative_iff (fun h => h) rfl .start hat⟩

end FilesystemCli

end DeltaFs
