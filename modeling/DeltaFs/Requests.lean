import DeltaFs.Paths
import DeltaFs.Remote

/-!
# The size of requests

All clients but `MkflsCli` write their request to the 200 bytes of
`Message::buf`, and assert afterwards that it has fit. What an operation on a
path sends is a matter of the components of the path; whether it fits, one of
their lengths.

Only the names vary in length, and each request has at most one of them; the fixed part is
counted once for each kind of request (`room`). Which requests an operation may send is
given by its path (`Asks`), and every one of them is sent to a server that grants all
(`asks_sent`), so the condition leaves nothing out.
-/

namespace DeltaFs

namespace Rpc

/-! ## Requests and their buffer

A request has fixed fields and one field of variable length, with the prefix of its length. So
whether it fits the 200 bytes depends on the length of the name alone, and on the kind of
request: those that carry a mode have four bytes less to spare. Which requests an operation on a
path sends is the other half: a lookup for each name but the last, and one request for that. -/

/-- How many bytes of variable length `Message::buf` has room for, besides the
fixed fields of a request and the length of the bytes. -/
def room : Request → Nat
  | .mkdir _ _ => 142
  | .mkfle _ _ => 142
  | _ => 146

theorem length_varint (n : Nat) :
    1 ≤ (encodeVarint32 (UInt32.ofNat n)).length ∧
      (n < 128 → (encodeVarint32 (UInt32.ofNat n)).length = 1) ∧
      (128 ≤ n → n < 16384 → (encodeVarint32 (UInt32.ofNat n)).length = 2) := by
  have hval : ∀ k, n < k → k < 2 ^ 32 → (UInt32.ofNat n).toNat = n := by
    intro k hk hlt
    rw [UInt32.toNat_ofNat']
    omega
  refine ⟨?_, fun h => ?_, fun hlo h => ?_⟩
  · rw [encodeVarint32]
    split_ifs <;> simp
  · rw [encodeVarint32, hval 128 h (by decide), if_pos (show n < 1 <<< 7 from h)]
    rfl
  · rw [encodeVarint32, hval 16384 h (by decide), if_neg (show ¬n < 1 <<< 7 by omega),
      if_pos (show n < 1 <<< 14 from h)]
    rfl

/-- **A request fits its buffer** iff its bytes of variable length have room. The rest
of it has the same length in all requests of the operation. -/
theorem fits_iff {c : Call} (hbuf : isBuffered c.req = true) :
    Fits c ↔ (bytes c.req).length ≤ room c.req := by
  obtain ⟨who, parent, req⟩ := c
  have hvar := length_varint (bytes req).length
  have hlen : Fits ⟨who, parent, req⟩ ↔ (encode ⟨who, parent, req⟩).length ≤ 200 :=
    ⟨fun h => h hbuf, fun h _ => h⟩
  rw [hlen]
  cases req with
  | mkfls namearr mode n => cases hbuf
  | lokup name | bukin dir | lstat name =>
    simp only [bytes] at hvar
    simp only [encode, lokupRequest, bukinRequest, lstatRequest, encodeHead, encodeLookupStat,
      encodeUser, putLengthPrefixedSlice, List.length_append, length_encodeFixed32,
      length_encodeFixed64, List.length_nil, bytes, room]
    omega
  | mkdir name mode | mkfle name mode =>
    simp only [bytes] at hvar
    simp only [encode, mkdirRequest, mkfleRequest, encodeHead, encodeLookupStat, encodeUser,
      putLengthPrefixedSlice, List.length_append, length_encodeFixed32, length_encodeFixed64,
      List.length_nil, bytes, room]
    omega

/-- What the requests of a client run into: leases the client has already, and
the replies of the servers. Both may depend on what has been sent so far. -/
structure Surroundings where
  cached : List Call → LookupStat → Slice → Option (Except (ErrCode × Slice) LookupStat)
  look : List Call → Except (ErrCode × Slice) LookupStat
  stat : List Call → Status × Stat
  root : LookupStat
  rootStat : Stat

/-- A client over servers, as far as its requests go: its state is the calls it
has sent. -/
def sender (skipPermChecks : Bool) (who : User) (e : Surroundings) :
    PathClient (List Call) LookupStat where
  rep := id
  lokup sent p name _ :=
    if isLookupOk skipPermChecks p who then
      match e.cached sent p name with
      | some found => (sent, found)
      | none =>
        let sent := sent ++ [⟨who, p, .lokup name⟩]
        (sent, e.look sent)
    else (sent, .error (.accessDenied, str "No x perm"))
  release sent _ := sent
  rtlease := e.root
  mkfle1 sent p name mode stat :=
    if isDirWriteOk skipPermChecks p who then
      let sent := sent ++ [⟨who, p, .mkfle name mode⟩]
      (sent, e.stat sent)
    else (sent, .err .accessDenied (str "No write perm"), stat)
  mkdir1 sent p name mode stat :=
    if isDirWriteOk skipPermChecks p who then
      let sent := sent ++ [⟨who, p, .mkdir name mode⟩]
      (sent, e.stat sent)
    else (sent, .err .accessDenied (str "No write perm"), stat)
  lstat1 sent p name stat :=
    if isLookupOk skipPermChecks p who then
      let sent := sent ++ [⟨who, p, .lstat name⟩]
      (sent, e.stat sent)
    else (sent, .err .accessDenied (str "No x perm"), stat)
  rtstat := e.rootStat

/-- The operations on paths. -/
inductive PathOp where
  | mkfle (mode : UInt32)
  | mkdir (mode : UInt32)
  | lstat
  | atdir
  | initHandle (mode : LokupMode)

/-- The state an operation leaves. -/
def PathOp.run {σ Lease : Type} (cli : PathClient σ Lease) (s : σ) (at? : At) (mem : Slice) :
    PathOp → Option σ
  | .mkfle mode => (cli.mkfle s at? mem mode noStat).map Prod.fst
  | .mkdir mode => (cli.mkdir s at? mem mode noStat).map Prod.fst
  | .lstat => (cli.lstat s at? mem noStat).map Prod.fst
  | .atdir => (cli.atdir s at? mem).map Prod.fst
  | .initHandle mode => (cli.initHandle mode s at? mem).map Prod.fst

/-- The requests of an operation on a path: its relative root and all names but
the last are looked up, and the last name goes into a request of its own. -/
inductive Asks (op : PathOp) (at? : At) (path : Slice) : Request → Prop where
  | root {p : LookupStat} {name : Slice} : at? = some (p, name) → Asks op at? path (.lokup name)
  | walk {name : Slice} : name ∈ (components path).dropLast → Asks op at? path (.lokup name)
  | mkfle {name : Slice} {mode : UInt32} : op = .mkfle mode → ¬TailingSlashes path →
      (components path).getLast? = some name → Asks op at? path (.mkfle name mode)
  | mkdir {name : Slice} {mode : UInt32} : op = .mkdir mode →
      (components path).getLast? = some name → Asks op at? path (.mkdir name mode)
  | lstat {name : Slice} : op = .lstat →
      (components path).getLast? = some name → Asks op at? path (.lstat name)
  | handle {name : Slice} {mode : LokupMode} : op = .initHandle mode →
      (components path).getLast? = some name → Asks op at? path (.lokup name)

section Sender

variable {skipPermChecks : Bool} {who : User} {e : Surroundings} {P : Request → Prop}

/-- All calls of a list ask something of a kind. -/
def AllAsk (P : Request → Prop) (sent : List Call) : Prop := ∀ c ∈ sent, P c.req

theorem AllAsk.nil : AllAsk P [] := fun _ h => by cases h

theorem AllAsk.push {sent : List Call} (h : AllAsk P sent) {c : Call} (hc : P c.req) :
    AllAsk P (sent ++ [c]) := by
  intro c' hc'
  cases List.mem_append.mp hc' with
  | inl h' => exact h c' h'
  | inr h' =>
    rw [List.mem_singleton] at h'
    exact h' ▸ hc

theorem lokup_asks {sent : List Call} (h : AllAsk P sent) (p : LookupStat) {name : Slice}
    (hname : P (.lokup name)) (mode : LokupMode) :
    AllAsk P ((sender skipPermChecks who e).lokup sent p name mode).1 := by
  simp only [sender]
  split
  · split
    · exact h
    · exact h.push hname
  · exact h

theorem start_asks {at? : At} (h : ∀ p name, at? = some (p, name) → P (.lokup name)) :
    AllAsk P ((sender skipPermChecks who e).start [] at?).1 := by
  cases at? with
  | none => exact AllAsk.nil
  | some a => exact lokup_asks AllAsk.nil a.1 (h a.1 a.2 rfl) .kRegular

/-- A walk sends one lookup for each name but the last. -/
theorem resolveComponents_asks (sent : List Call) (l : LookupStat) (cs : List Slice)
    (hsent : AllAsk P sent) (h : ∀ name ∈ cs.dropLast, P (.lokup name)) :
    AllAsk P
      (resolveComponents (sender skipPermChecks who e).toLeaseClient sent l cs).1 := by
  induction sent, l, cs using
    resolveComponents.induct (sender skipPermChecks who e).toLeaseClient with
  | case1 sent l => exact hsent
  | case2 sent l c => exact hsent
  | case3 sent l c c' cs sent₁ tmp hlokup ih =>
    rw [resolveComponents, hlokup]
    refine ih ?_ fun name hname => h name ?_
    · have hasks : AllAsk P ((sender skipPermChecks who e).lokup sent
          ((sender skipPermChecks who e).rep l) c .kRegular).1 :=
        lokup_asks hsent l (h c (by simp)) .kRegular
      rw [hlokup] at hasks
      exact hasks
    · rw [List.dropLast_cons_of_ne_nil (by simp)]
      exact List.mem_cons_of_mem c hname
  | case4 sent l c c' cs sent₁ e' hlokup =>
    rw [resolveComponents, hlokup]
    have hasks : AllAsk P ((sender skipPermChecks who e).lokup sent
        ((sender skipPermChecks who e).rep l) c .kRegular).1 :=
      lokup_asks hsent l (h c (by simp)) .kRegular
    rw [hlokup] at hasks
    exact hasks

/-- What an operation beneath a known parent directory sends, on top of its
walk. -/
theorem withParent_asks {α : Type} {at? : At} {path : Slice} (h0 : 0 ∉ path)
    (hs : path.head? = some slash) (ret : α)
    (f : List Call → LookupStat → Slice → Bool → List Call × Status × α)
    (hroot : ∀ p name, at? = some (p, name) → P (.lokup name))
    (hwalk : ∀ name ∈ (components path).dropLast, P (.lokup name))
    (hlast : ∀ sent l tailing, AllAsk P sent → (tailing = false → ¬TailingSlashes path) →
      AllAsk P (f sent l ((components path).getLastD []) tailing).1)
    {x : List Call × Status × α}
    (hx : (sender skipPermChecks who e).withParent [] at? (cstr path) ret f = some x) :
    AllAsk P x.1 := by
  obtain ⟨y, tailing, hy, htail, hagree, -⟩ :=
    (sender skipPermChecks who e).withParent_eq h0 hs [] at? ret f
  rw [hx] at hy
  cases hy
  rw [hagree, PathClient.beneath]
  have hstart : AllAsk P ((sender skipPermChecks who e).start [] at?).1 := start_asks hroot
  cases hst : (sender skipPermChecks who e).start [] at? with
  | mk sent found =>
    rw [hst] at hstart
    cases found with
    | error e' => exact hstart
    | ok rr =>
      have hwalked : AllAsk P (resolveComponents (sender skipPermChecks who e).toLeaseClient sent
          rr (components path)).1 := resolveComponents_asks sent rr (components path) hstart hwalk
      simp only
      cases (resolveComponents (sender skipPermChecks who e).toLeaseClient sent rr
        (components path)).2.status with
      | ok =>
        refine hlast _ _ _ hwalked fun h hslash => ?_
        rw [htail.mpr hslash] at h
        cases h
      | err c msg => exact hwalked

theorem getLastD_components {path : Slice} (h : (components path).getLastD [] ≠ []) :
    (components path).getLast? = some ((components path).getLastD []) := by
  cases hl : (components path).getLast? with
  | none => rw [List.getLastD_eq_getLast?, hl] at h; exact absurd rfl h
  | some name => rw [List.getLastD_eq_getLast?, hl]; rfl

/-- **All an operation sends** is a request it asks. The lookups of the walk ask about
the names on the way, and the operation itself about the last one. -/
theorem run_asks {op : PathOp} {at? : At} {path : Slice} (h0 : 0 ∉ path)
    (hs : path.head? = some slash) {sent : List Call}
    (h : op.run (sender skipPermChecks who e) [] at? (cstr path) = some sent) :
    AllAsk (Asks op at? path) sent := by
  have hroot : ∀ p name, at? = some (p, name) → Asks op at? path (.lokup name) :=
    fun p name h => .root h
  have hwalk : ∀ name ∈ (components path).dropLast, Asks op at? path (.lokup name) :=
    fun name h => .walk h
  -- each operation adds at most its own request to those of the walk
  cases op with
  | mkfle mode =>
    obtain ⟨x, hx, rfl⟩ := Option.map_eq_some_iff.mp h
    refine withParent_asks h0 hs _ _ hroot hwalk (fun sent l tailing hsent htail => ?_) hx
    split_ifs with hif
    · simp only [sender]
      split_ifs
      · exact hsent.push (.mkfle rfl (htail hif.2) (getLastD_components hif.1))
      · exact hsent
    · exact hsent
  | mkdir mode =>
    obtain ⟨x, hx, rfl⟩ := Option.map_eq_some_iff.mp h
    refine withParent_asks h0 hs _ _ hroot hwalk (fun sent l tailing hsent htail => ?_) hx
    split_ifs with hif
    · simp only [sender]
      split_ifs
      · exact hsent.push (.mkdir rfl (getLastD_components hif))
      · exact hsent
    · exact hsent
  | lstat =>
    obtain ⟨x, hx, rfl⟩ := Option.map_eq_some_iff.mp h
    refine withParent_asks h0 hs _ _ hroot hwalk (fun sent l tailing hsent htail => ?_) hx
    split_ifs with hif
    · have hlstat : AllAsk (Asks .lstat at? path)
          ((sender skipPermChecks who e).lstat1 sent l ((components path).getLastD []) noStat).1 := by
        simp only [sender]
        split_ifs
        · exact hsent.push (.lstat rfl (getLastD_components hif))
        · exact hsent
      simp only
      split <;> exact hlstat
    · exact hsent
  | atdir =>
    obtain ⟨x, hx, rfl⟩ := Option.map_eq_some_iff.mp h
    refine withParent_asks h0 hs _ _ hroot hwalk (fun sent l tailing hsent htail => ?_) hx
    split_ifs <;> exact hsent
  | initHandle mode =>
    obtain ⟨x, hx, rfl⟩ := Option.map_eq_some_iff.mp h
    refine withParent_asks h0 hs _ _ hroot hwalk (fun sent l tailing hsent htail => ?_) hx
    split_ifs with hif
    · have hasks : AllAsk (Asks (.initHandle mode) at? path) ((sender skipPermChecks who e).lokup
          sent l ((components path).getLastD []) mode).1 :=
        lokup_asks hsent l (.handle rfl (getLastD_components hif)) mode
      split
      case h_1 heq => exact (congrArg Prod.fst heq) ▸ hasks
      case h_2 heq => exact (congrArg Prod.fst heq) ▸ hasks
    · exact hsent

/-- Servers that grant everything, and a client with no leases. -/
def granting : Surroundings := ⟨fun _ _ _ => none, fun _ => .ok zeroLook, fun _ => (.ok, noStat),
  zeroLook, noStat⟩

/-- The superuser's lookup of a name. -/
def rootLokup (p : LookupStat) (name : Slice) : Call := ⟨⟨0, 0⟩, p, .lokup name⟩

theorem granting_lokup (sent : List Call) (p : LookupStat) (name : Slice) (mode : LokupMode) :
    (sender false ⟨0, 0⟩ granting).lokup sent p name mode =
      (sent ++ [rootLokup p name], .ok zeroLook) := rfl

/-- A walk that is granted everything. -/
theorem granting_resolve (sent : List Call) (cs : List Slice) :
    resolveComponents (sender false ⟨0, 0⟩ granting).toLeaseClient sent zeroLook cs =
      (sent ++ cs.dropLast.map (rootLokup zeroLook), ⟨.ok, zeroLook, cs.getLastD []⟩) := by
  induction cs generalizing sent with
  | nil => simp [resolveComponents]
  | cons c cs ih =>
    cases cs with
    | nil => simp [resolveComponents]
    | cons c' cs =>
      have hlokup := granting_lokup sent zeroLook c .kRegular
      rw [resolveComponents]
      simp only [show (sender false ⟨0, 0⟩ granting).rep zeroLook = zeroLook from rfl, hlokup]
      refine (ih (sent ++ [rootLokup zeroLook c])).trans ?_
      simp [List.dropLast_cons_of_ne_nil]

/-- What an operation sends for its last name, when that is granted. -/
def PathOp.last (tgt : Slice) (tailing : Bool) : PathOp → List Call
  | .mkfle mode =>
    if tgt ≠ [] ∧ tailing = false then [⟨⟨0, 0⟩, zeroLook, .mkfle tgt mode⟩] else []
  | .mkdir mode => if tgt ≠ [] then [⟨⟨0, 0⟩, zeroLook, .mkdir tgt mode⟩] else []
  | .lstat => if tgt ≠ [] then [⟨⟨0, 0⟩, zeroLook, .lstat tgt⟩] else []
  | .atdir => []
  | .initHandle _ => if tgt ≠ [] then [rootLokup zeroLook tgt] else []

/-- What an operation sends beneath a parent directory whose walk is granted. -/
theorem granting_withParent {α : Type} (at? : At) {path : Slice} (h0 : 0 ∉ path)
    (hs : path.head? = some slash) (ret : α)
    (f : List Call → LookupStat → Slice → Bool → List Call × Status × α) {op : PathOp}
    (hf : ∀ sent tgt tailing, (f sent zeroLook tgt tailing).1 = sent ++ op.last tgt tailing) :
    ∃ tailing, (tailing = true ↔ TailingSlashes path) ∧
      ((sender false ⟨0, 0⟩ granting).withParent [] at? (cstr path) ret f).map Prod.fst =
        some (((at?.toList.map fun a => rootLokup a.1 a.2) ++
          (components path).dropLast.map (rootLokup zeroLook)) ++
            op.last ((components path).getLastD []) tailing) := by
  obtain ⟨x, tailing, hx, htail, hagree, -⟩ :=
    (sender false ⟨0, 0⟩ granting).withParent_eq h0 hs [] at? ret f
  refine ⟨tailing, htail, ?_⟩
  have hstart : (sender false ⟨0, 0⟩ granting).start [] at? =
      (at?.toList.map fun a => rootLokup a.1 a.2, .ok zeroLook) := by
    cases at? with
    | none => rfl
    | some a => exact granting_lokup [] a.1 a.2 .kRegular
  rw [hx, Option.map_some, hagree, PathClient.beneath, hstart]
  simp only [granting_resolve]
  exact congrArg some (hf _ _ _)

/-- An operation that is granted everything. -/
theorem run_granting (op : PathOp) (at? : At) {path : Slice} (h0 : 0 ∉ path)
    (hs : path.head? = some slash) :
    ∃ tailing, (tailing = true ↔ TailingSlashes path) ∧
      op.run (sender false ⟨0, 0⟩ granting) [] at? (cstr path) =
        some (((at?.toList.map fun a => rootLokup a.1 a.2) ++
          (components path).dropLast.map (rootLokup zeroLook)) ++
            op.last ((components path).getLastD []) tailing) := by
  cases op with
  | mkfle mode =>
    refine granting_withParent at? h0 hs _ _ fun sent tgt tailing => ?_
    simp only [PathOp.last]
    split_ifs
    · rfl
    · exact (List.append_nil sent).symm
  | mkdir mode =>
    refine granting_withParent at? h0 hs _ _ fun sent tgt tailing => ?_
    simp only [PathOp.last]
    split_ifs
    · rfl
    · exact (List.append_nil sent).symm
  | lstat =>
    refine granting_withParent at? h0 hs _ _ fun sent tgt tailing => ?_
    simp only [PathOp.last]
    split_ifs
    · rfl
    · rfl
    · exact (List.append_nil sent).symm
  | atdir =>
    refine granting_withParent at? h0 hs _ _ fun sent tgt tailing => ?_
    simp only [PathOp.last]
    split_ifs <;> exact (List.append_nil sent).symm
  | initHandle mode =>
    refine granting_withParent at? h0 hs _ _ fun sent tgt tailing => ?_
    simp only [PathOp.last]
    split_ifs
    · rfl
    · exact (List.append_nil sent).symm

theorem getLastD_of_getLast? {path name : Slice}
    (h : (components path).getLast? = some name) :
    (components path).getLastD [] = name ∧ name ≠ [] := by
  refine ⟨?_, Words.ne_nil_of_mem_words (List.mem_of_getLast? h)⟩
  rw [List.getLastD_eq_getLast?, h]
  rfl

/-- **Every request an operation asks** is sent, by some client. The one that grants
everything is asked about every name of the path. -/
theorem asks_sent {op : PathOp} {at? : At} {path : Slice} (h0 : 0 ∉ path)
    (hs : path.head? = some slash) {req : Request} (h : Asks op at? path req) :
    ∃ sent, op.run (sender false ⟨0, 0⟩ granting) [] at? (cstr path) = some sent ∧
      ∃ c ∈ sent, c.req = req := by
  obtain ⟨tailing, htail, hrun⟩ := run_granting op at? h0 hs
  refine ⟨_, hrun, ?_⟩
  cases h with
  | @root p name hat =>
    refine ⟨rootLokup p name, List.mem_append_left _ (List.mem_append_left _ ?_), rfl⟩
    rw [hat]
    exact List.mem_singleton_self _
  | @walk name hname =>
    exact ⟨rootLokup zeroLook name,
      List.mem_append_left _ (List.mem_append_right _ (List.mem_map_of_mem hname)), rfl⟩
  | @mkfle name mode hop hslash hlast =>
    obtain ⟨hname, hne⟩ := getLastD_of_getLast? hlast
    have hfalse : tailing = false := by
      cases tailing with
      | false => rfl
      | true => exact absurd (htail.mp rfl) hslash
    refine ⟨⟨⟨0, 0⟩, zeroLook, .mkfle name mode⟩, List.mem_append_right _ ?_, rfl⟩
    rw [hop, hname, PathOp.last, if_pos ⟨hne, hfalse⟩]
    exact List.mem_singleton_self _
  | @mkdir name mode hop hlast =>
    obtain ⟨hname, hne⟩ := getLastD_of_getLast? hlast
    refine ⟨⟨⟨0, 0⟩, zeroLook, .mkdir name mode⟩, List.mem_append_right _ ?_, rfl⟩
    rw [hop, hname, PathOp.last, if_pos hne]
    exact List.mem_singleton_self _
  | @lstat name hop hlast =>
    obtain ⟨hname, hne⟩ := getLastD_of_getLast? hlast
    refine ⟨⟨⟨0, 0⟩, zeroLook, .lstat name⟩, List.mem_append_right _ ?_, rfl⟩
    rw [hop, hname, PathOp.last, if_pos hne]
    exact List.mem_singleton_self _
  | @handle name mode hop hlast =>
    obtain ⟨hname, hne⟩ := getLastD_of_getLast? hlast
    refine ⟨rootLokup zeroLook name, List.mem_append_right _ ?_, rfl⟩
    rw [hop, hname, PathOp.last, if_pos hne]
    exact List.mem_singleton_self _

/-- `dbloc`, of the bulk context of a directory at server `i`: the root of the
context's dbs, and at most 49 bytes of an id. -/
def dbloc (bkrt : Slice) (bkid : Int) (id : DirId) (i : Nat) : Slice :=
  bkrt ++ (str ("/b" ++ toString bkid ++ "-" ++ toString id.dno.toNat ++ "-" ++
    toString id.ino.toNat ++ "-" ++ toString i)).take 49

/-- **Requests fit their buffer**: those of an operation on a path iff every
name the operation asks about has room in its request, and that of a bulk
insertion iff the location of its db has.

The operation may be refused on its way and ask about fewer names, so the left side is
about every server; the one that grants everything (`granting`) is asked about all of
them. -/
theorem requests_fit {path : Slice} (h0 : 0 ∉ path) (hs : path.head? = some slash) (op : PathOp)
    (at? : At) :
    ((∀ skipPermChecks who e sent,
        op.run (sender skipPermChecks who e) [] at? (cstr path) = some sent →
        ∀ c ∈ sent, Fits c) ↔
      ∀ req, Asks op at? path req → (bytes req).length ≤ room req) ∧
    ∀ who parent bkrt bkid id i, Fits ⟨who, parent, .bukin (dbloc bkrt bkid id i)⟩ ↔
      (dbloc bkrt bkid id i).length ≤ 146 := by
  have hbuf : ∀ req, Asks op at? path req → isBuffered req = true := by
    intro req h
    cases h <;> rfl
  refine ⟨⟨fun h req hreq => ?_, fun h skipPermChecks who e sent hrun c hc => ?_⟩,
    fun who parent bkrt bkid id i => fits_iff rfl⟩
  · obtain ⟨sent, hrun, c, hc, rfl⟩ := asks_sent h0 hs hreq
    exact (fits_iff (hbuf c.req hreq)).mp (h false ⟨0, 0⟩ granting sent hrun c hc)
  · have hasks := run_asks h0 hs hrun c hc
    exact (fits_iff (hbuf c.req hasks)).mpr (h c.req hasks)

/-- The requests of `Lstat` on `/a/b`. -/
theorem requests_fit_lstat :
    (∀ skipPermChecks who e sent,
      PathOp.lstat.run (sender skipPermChecks who e) [] none (cstr (str "/a/b")) = some sent →
        ∀ c ∈ sent, Fits c) ↔
      ∀ req, Asks .lstat none (str "/a/b") req → (bytes req).length ≤ room req :=
  (requests_fit (by decide) (by decide) .lstat none).1

/-- A path with one name of 147 bytes. -/
def longPath : Slice := slash :: List.replicate 147 0x61

/-- **A name of 147 bytes** makes a request of 201. -/
theorem lstat_overflows :
    0 ∉ longPath ∧ longPath.head? = some slash ∧
    ∃ sent, PathOp.lstat.run (sender false ⟨0, 0⟩ granting) [] none (cstr longPath) = some sent ∧
      ∃ c ∈ sent, ¬Fits c ∧ (encode c).length = 201 := by
  refine ⟨by decide, by decide, [⟨⟨0, 0⟩, zeroLook, .lstat (List.replicate 147 0x61)⟩],
    by decide +kernel, _, List.mem_singleton_self _, fun h => absurd (h rfl) ?_, ?_⟩
  · decide +kernel
  · decide +kernel

end Sender

end Rpc

end DeltaFs
