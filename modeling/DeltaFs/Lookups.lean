import DeltaFs.Client
import DeltaFs.Transition

/-!
# Lookups of many threads

`fscli.cc`: the threads of a client look up directories at the same time.
`Lokup2` checks for a lease, waits for its turn among the lookups of names with
the same hash, checks again, and drops the mutex of the partition for the
lookup at the server. A step of `lookups` is what one thread does in one go
under that mutex, or at the server.

`Lookups.Inv P Q` is the invariant: the leases of every partition count the
references of the lookups that have returned and not given theirs back, `P`
holds of what they say, `Q` of a lookup and its lease, and a lookup that is at
the server is the only one of its way and has no lease to find.
-/

namespace DeltaFs

namespace FilesystemCli

open Client

/-! ## Threads and partitions

A thread is a lookup that has been called, and what it holds when it has returned. Partitions
are told apart by directory and index, and each has its table of leases and its ways. Everything
that can be observed of a step is an event: leases that are deleted, results, and the moment at
which a result is settled. -/

/-- Where a lookup has got to. -/
inductive Phase where
  /-- before the first check -/
  | entered
  /-- waiting for its way -/
  | waiting
  /-- holding its way, before the lookup at the server -/
  | fetching
  /-- holding its way, with what the server returned -/
  | fetched (reply : Except (ErrCode × Slice) LookupStat)
  /-- returned -/
  | returned

/-- A lookup, from its call until its lease has been given back. -/
structure Lookup where
  who : User
  parent : LookupStat
  name : Slice
  mode : LokupMode
  phase : Phase
  /-- the lease it has returned -/
  held : Option Ref

/-- A lookup holds its way. -/
def Phase.inside : Phase → Bool
  | .fetching => true
  | .fetched _ => true
  | _ => false

/-- A lookup has returned. -/
def Phase.finished : Phase → Bool
  | .returned => true
  | _ => false

/-- A client at work. -/
structure Lookups (δ : Type) where
  content : δ
  parts : DirId × Nat → Leases
  /-- `busy`, of each partition -/
  busy : DirId × Nat → Nat → Bool
  ops : List Lookup

/-- What can be seen of a client. -/
inductive LookupEvent (δ : Type) where
  | invoked (i : Nat)
  /-- the result of a lookup is settled, at the content `d` -/
  | answered (i : Nat) (d : δ) (result : Except (ErrCode × Slice) LookupStat)
  | ret (i : Nat) (result : Except (ErrCode × Slice) LookupStat)
  /-- a lease was inserted in the table, in the place of `old` -/
  | installed (i : Nat) (old : Option Nat)
  /-- `DeleteLease` ran -/
  | deleted (k : DirId × Nat) (d : Deleted)

/-- What a step is about. -/
inductive LookupLabel (δ : Type) where
  | call (who : User) (parent : LookupStat) (name : Slice) (mode : LokupMode)
  /-- the first check, at the time `now` -/
  | check (i : Nat) (now : UInt64)
  /-- the way is free: the second check -/
  | take (i : Nat) (now : UInt64)
  /-- the lookup at the server -/
  | fetch (i : Nat)
  /-- the rest of the lookup -/
  | finish (i : Nat)
  /-- `Release(Lease*)` -/
  | release (i : Nat)
  /-- `Destroy(BAT*)` or `Destroy(BULK*)` -/
  | destroy (i : Nat)
  /-- an idle partition is deleted -/
  | deletePartition (k : DirId × Nat)
  /-- others work on the server -/
  | others (d : δ)

/-- A lookup that has just been called. -/
def Lookup.new (who : User) (parent : LookupStat) (name : Slice) (mode : LokupMode) : Lookup where
  who := who
  parent := parent
  name := name
  mode := mode
  phase := .entered
  held := none

variable {δ : Type} (opts : Options) (srv : Server δ) (hash : Slice → UInt32)

/-- The partition of a lookup. -/
def Lookup.part (op : Lookup) : DirId × Nat := partOf opts op.parent.dirId op.name

/-- `kWays - 1`, as a mask. -/
def waysMask : UInt32 := 7

/-- The way of a lookup. -/
def Lookup.way (op : Lookup) : Nat := (hash op.name &&& waysMask).toNat

namespace Lookups

/-! ## The steps

The labels follow the places where `Lokup2` gives up the mutex: to wait for its way, and for the
lookup at the server. A label that does not fit the phase of its lookup is no step. Whatever
else goes on at the server is the label `others`. -/

/-- Lookup `i`, now `op`, leaves the partition `k` as `t`. -/
def put (s : Lookups δ) (i : Nat) (op : Lookup) (k : DirId × Nat) (t : Leases) : Lookups δ :=
  { s with parts := Function.update s.parts k t, ops := s.ops.set i op }

/-- Set `busy` for a way. -/
def setBusy (s : Lookups δ) (k : DirId × Nat) (w : Nat) (b : Bool) : Lookups δ :=
  { s with busy := Function.update s.busy k (Function.update (s.busy k) w b) }

/-- The end of `Lokup1`, with the lease at `l`. -/
def grant (s : Lookups δ) (i : Nat) (op : Lookup) (k : DirId × Nat) (t : Leases) (l : Nat) :
    Option (Lookups δ × Except (ErrCode × Slice) LookupStat × List Deleted) := do
  match ← t.grant l op.mode with
  | (t, .ok, ds) =>
    let lease ← t.mem l
    some
      (s.put i { op with phase := .returned, held := some ⟨k.1, k.2, l, op.mode, lease.rep⟩ } k t,
        .ok lease.rep, ds)
  | (t, .err c msg, ds) => some (s.put i { op with phase := .returned } k t, .error (c, msg), ds)

/-- The events of a lookup that returns what it has just found. -/
def returns (i : Nat) (d : δ) (k : DirId × Nat) (result : Except (ErrCode × Slice) LookupStat)
    (ds : List Deleted) : List (LookupEvent δ) :=
  ds.map (.deleted k) ++ [.answered i d result, .ret i result]

/-- A check, and what follows it: `next` is where a lookup without a lease goes
on. -/
def checkLease (s : Lookups δ) (i : Nat) (op : Lookup) (now : UInt64) (next : Lookups δ → Lookups δ)
    (phase : Phase) : Option (Lookups δ × List (LookupEvent δ)) := do
  let k := op.part opts
  match ← (s.parts k).check op.name now with
  | (t, some l, ds) =>
    let r ← s.grant i op k t l
    some (r.1, returns i s.content k r.2.1 (ds ++ r.2.2))
  | (t, none, ds) => some (next (s.put i { op with phase := phase } k t), ds.map (.deleted k))

/-- The rest of a lookup that comes back from the server. -/
def finishLookup (s : Lookups δ) (i : Nat) (op : Lookup)
    (reply : Except (ErrCode × Slice) LookupStat) : Option (Lookups δ × List (LookupEvent δ)) := do
  let k := op.part opts
  let s := s.setBusy k (op.way hash) false
  match reply with
  | .error e => some (s.put i { op with phase := .returned } k (s.parts k), [.ret i (.error e)])
  | .ok rep =>
    let contexts := Leases.newContexts op.who op.mode
    let (t, l, old, ds) ← (s.parts k).install op.name op.mode contexts.1 contexts.2 rep
    let r ← s.grant i op k t l
    some (r.1, .installed i old :: (ds ++ r.2.2).map (.deleted k) ++ [.ret i r.2.1])

/-- A reference is given back by `f`. -/
def giveBack (s : Lookups δ) (i : Nat) (op : Lookup) (r : Ref)
    (f : Leases → Option (Leases × List Deleted)) : Option (Lookups δ × List (LookupEvent δ)) :=
  (f (s.parts r.part)).map fun x =>
    (s.put i { op with held := none } r.part x.1, x.2.map (.deleted r.part))

/-- Nobody is in a partition. -/
def idle (s : Lookups δ) (k : DirId × Nat) : Bool :=
  s.ops.all fun op => op.part opts ≠ k ∨ op.phase.finished = true ∧ op.held = none

/-- One step. -/
def step (s : Lookups δ) : LookupLabel δ → Option (Lookups δ × List (LookupEvent δ))
  | .call who parent name mode =>
    some ({ s with ops := s.ops ++ [Lookup.new who parent name mode] }, [.invoked s.ops.length])
  | .check i now => do
    let op ← s.ops[i]?
    match op.phase with
    | .entered =>
      if isLookupOk opts.skipPermChecks op.parent op.who then
        s.checkLease opts i op now id .waiting
      else
        some ({ s with ops := s.ops.set i { op with phase := .returned } },
          returns i s.content (op.part opts) (.error (.accessDenied, str "No x perm")) [])
    | _ => none
  | .take i now => do
    let op ← s.ops[i]?
    match op.phase with
    | .waiting =>
      if s.busy (op.part opts) (op.way hash) then none
      else
        s.checkLease opts i op now (fun s => s.setBusy (op.part opts) (op.way hash) true) .fetching
    | _ => none
  | .fetch i => do
    let op ← s.ops[i]?
    match op.phase with
    | .fetching =>
      let r := srv.lokup s.content op.who op.parent op.name
      some ({ s with content := r.1, ops := s.ops.set i { op with phase := .fetched r.2 } },
        [.answered i s.content r.2])
    | _ => none
  | .finish i => do
    let op ← s.ops[i]?
    match op.phase with
    | .fetched reply => s.finishLookup opts hash i op reply
    | _ => none
  | .release i => do
    let op ← s.ops[i]?
    let r ← op.held
    if r.mode = .kRegular then s.giveBack i op r fun t => t.releaseLease r.lease else none
  | .destroy i => do
    let op ← s.ops[i]?
    let r ← op.held
    match r.mode with
    | .kRegular => none
    | .kBatchedCreats =>
      s.giveBack i op r fun t => (t.destroyBat r.lease).map fun x => (x.1, x.2.2)
    | .kBulkIn => s.giveBack i op r fun t => (t.destroyBulk r.lease).map fun x => (x.1, x.2.2)
  | .deletePartition k =>
    if s.idle opts k then
      let t := Leases.empty opts.perPartitionLeaseLruSize
      some ({ s with parts := Function.update s.parts k t }, [])
    else none
  | .others d => some ({ s with content := d }, [])

/-- A client that has done nothing. -/
def start (content : δ) : Lookups δ where
  content := content
  parts _ := Leases.empty opts.perPartitionLeaseLruSize
  busy _ _ := false
  ops := []

end Lookups

/-- The threads of a client. -/
def lookups : TransitionSystem (Lookups δ) (LookupLabel δ) (LookupEvent δ) where
  init s := ∃ content, s = Lookups.start opts content
  step := Lookups.step opts srv hash

/-! ## The invariant

The leases of a partition count the references that lookups hold, which is a number that can be
read off the lookups themselves (`references`). So the invariant is that of `Leases` for every
partition, with the references counted, and what each lookup knows of the lease it holds. `P` is
what is known of directories, and `Q` what a lookup and the lease it has taken have in common;
both are parameters, since users of this module ask for different things. -/

/-- A lookup references the lease at `l` of the partition `k`. -/
def Lookup.holds (k : DirId × Nat) (l : Nat) (op : Lookup) : Bool :=
  op.held.any fun r => r.part = k ∧ r.lease = l

/-- The number of references lookups have to a lease. -/
def references (ops : List Lookup) (k : DirId × Nat) (l : Nat) : Nat :=
  ops.countP (Lookup.holds k l)

/-- What holds of a lookup and the lease it has returned, `Q` among it. -/
structure Holding (Q : User → Lease → Prop) (parts : DirId × Nat → Leases) (op : Lookup)
    (r : Ref) : Prop where
  part : r.part = op.part opts
  mode : r.mode = op.mode
  returned : op.phase = .returned
  lease : ∃ lease, (parts r.part).mem r.lease = some lease ∧ lease.mode = op.mode ∧
    lease.rep = r.rep ∧ lease.key = op.name ∧ Q op.who lease

/-- What is known of a lookup and its lease does not change while the lease is
held, and holds of one made for the lookup. -/
structure Sharing (Q : User → Lease → Prop) : Prop where
  same : ∀ {who lease lease'}, lease.Same lease' → Q who lease → Q who lease'
  new : ∀ {who name mode rep}, Q who ⟨0, rep, (Leases.newContexts who mode).1,
    (Leases.newContexts who mode).2, name, mode, false⟩

/-- The invariant of the threads, whose calls satisfy `M`. -/
structure Threads (M : User → LookupStat → LokupMode → Prop)
    (P : δ → DirId → Slice → LokupMode → LookupStat → Prop) (Q : User → Lease → Prop)
    (s : Lookups δ) : Prop where
  calls : ∀ {i : Nat} {op : Lookup}, s.ops[i]? = some op → M op.who op.parent op.mode
  leases : ∀ k, Leases.Inv (P s.content k.1) (s.parts k) (references s.ops k)
  held : ∀ {i : Nat} {op : Lookup} {r : Ref}, s.ops[i]? = some op → op.held = some r →
    Holding opts Q s.parts op r
  /-- a lookup that holds its way has no lease to find -/
  inside : ∀ {i : Nat} {op : Lookup}, s.ops[i]? = some op → op.phase.inside = true →
    s.busy (op.part opts) (op.way hash) = true ∧ (s.parts (op.part opts)).table op.name = none
  /-- and is the only one of its way -/
  alone : ∀ {i j : Nat} {op op' : Lookup}, s.ops[i]? = some op → s.ops[j]? = some op' →
    op.phase.inside = true → op'.phase.inside = true → op.part opts = op'.part opts →
    op.way hash = op'.way hash → i = j
  fetched : ∀ {i : Nat} {op : Lookup} {rep : LookupStat}, s.ops[i]? = some op →
    op.phase = .fetched (.ok rep) → P s.content op.parent.dirId op.name op.mode rep

/-- What the threads rely on: `P d id name mode rep` says that `rep` is a stat of
the directory `name` in the directory `id`, for a lookup in that mode. -/
structure Serves (M : User → LookupStat → LokupMode → Prop)
    (P : δ → DirId → Slice → LokupMode → LookupStat → Prop) : Prop where
  lokup : ∀ {d who p name id k mode rep}, P d id k mode rep →
    P (srv.lokup d who p name).1 id k mode rep
  found : ∀ {d who p name mode rep}, M who p mode → (srv.lokup d who p name).2 = .ok rep →
    P (srv.lokup d who p name).1 p.dirId name mode rep

/-- Two records of one call. -/
structure SameCall (op op' : Lookup) : Prop where
  who : op'.who = op.who
  parent : op'.parent = op.parent
  name : op'.name = op.name
  mode : op'.mode = op.mode

namespace Lookups

variable {opts srv hash} {M : User → LookupStat → LokupMode → Prop}
  {P : δ → DirId → Slice → LokupMode → LookupStat → Prop}
  {Q : User → Lease → Prop} {s : Lookups δ} {i : Nat} {op op' : Lookup} {t : Leases}
  {k : DirId × Nat} {r : Ref} {ops : List Lookup}

theorem sharing_true : Sharing fun _ _ => True := ⟨fun _ _ => trivial, trivial⟩

/-- What any server returns will do. -/
theorem serves_true : Serves srv (fun _ _ _ => True) fun _ _ _ _ _ => True :=
  ⟨fun _ => trivial, fun _ _ => trivial⟩

theorem threads_start (content : δ) : Threads opts hash M P Q (start opts content) where
  calls h := by cases h
  leases _ := Leases.Inv.empty _ _
  held h := by cases h
  inside h := by cases h
  alone h := by cases h
  fetched h := by cases h

theorem part_eq (h : SameCall op op') : op'.part opts = op.part opts := by
  rw [Lookup.part, Lookup.part, h.parent, h.name]

theorem way_eq (h : SameCall op op') : op'.way hash = op.way hash := by
  rw [Lookup.way, Lookup.way, h.name]

/-! ## References

Who holds a lease is counted over the operations, so an operation that gets a lease or gives
it back changes the count of that one lease by one. -/

theorem holds_iff {l : Nat} :
    op.holds k l = true ↔ ∃ r, op.held = some r ∧ r.part = k ∧ r.lease = l := by
  rw [Lookup.holds, Option.any_eq_true]
  simp

theorem references_pos (hop : ops[i]? = some op) (hr : op.held = some r) :
    0 < references ops r.part r.lease :=
  List.countP_pos_iff.mpr ⟨op, List.mem_of_getElem? hop, holds_iff.mpr ⟨r, hr, rfl, rfl⟩⟩

/-- The references a lookup does not touch. -/
theorem references_of_eq {l : Nat} (hop : ops[i]? = some op) (h : op.holds k l = op'.holds k l) :
    references (ops.set i op') k l = references ops k l := by
  have hc := TransitionSystem.countP_pool_set (a := op') (Lookup.holds k l) hop
  rw [h] at hc
  exact Nat.add_right_cancel hc

theorem references_keep (hop : ops[i]? = some op) (h : op'.held = op.held) :
    references (ops.set i op') k = references ops k := by
  funext l
  apply references_of_eq hop
  rw [Lookup.holds, Lookup.holds, h]

/-- A lookup returns a lease. -/
theorem references_take (op' : Lookup) (hop : ops[i]? = some op) (h : op.held = none)
    (h' : op'.held = some r) :
    references (ops.set i op') r.part = Leases.more (references ops r.part) r.lease := by
  funext l
  have hc := TransitionSystem.countP_pool_set (a := op') (Lookup.holds r.part l) hop
  have hno : op.holds r.part l = false := by rw [Lookup.holds, h]; rfl
  by_cases hl : l = r.lease
  · subst hl
    have hyes : op'.holds r.part r.lease = true := holds_iff.mpr ⟨r, h', rfl, rfl⟩
    rw [hno, hyes] at hc
    rw [Leases.more_self]
    exact hc
  · rw [Leases.more_of_ne _ hl]
    apply references_of_eq hop
    rw [hno, Lookup.holds, h']
    simp [Ne.symm hl]

/-- A lookup gives its lease back. -/
theorem references_drop (op' : Lookup) (hop : ops[i]? = some op) (h : op.held = some r)
    (h' : op'.held = none) :
    references (ops.set i op') r.part r.lease + 1 = references ops r.part r.lease ∧
      ∀ q, q ≠ r.lease → references (ops.set i op') r.part q = references ops r.part q := by
  constructor
  · have hc := TransitionSystem.countP_pool_set (a := op') (Lookup.holds r.part r.lease) hop
    have hyes : op.holds r.part r.lease = true := holds_iff.mpr ⟨r, h, rfl, rfl⟩
    have hno : op'.holds r.part r.lease = false := by rw [Lookup.holds, h']; rfl
    rw [hno, hyes] at hc
    exact hc.symm ▸ rfl
  · intro q hq
    apply references_of_eq hop
    rw [Lookup.holds, Lookup.holds, h, h']
    simp [Ne.symm hq]

/-- Other partitions. -/
theorem references_ne (hop : ops[i]? = some op) (h : ∀ r, op.held = some r → r.part ≠ k)
    (h' : ∀ r, op'.held = some r → r.part ≠ k) :
    references (ops.set i op') k = references ops k := by
  have hno : ∀ {o : Lookup} {l : Nat}, (∀ r, o.held = some r → r.part ≠ k) →
      o.holds k l = false := by
    intro o l ho
    rw [Bool.eq_false_iff]
    intro hl
    obtain ⟨r, hr, hk, -⟩ := holds_iff.mp hl
    exact ho r hr hk
  funext l
  apply references_of_eq hop
  rw [hno h, hno h']

/-! ## One lookup moves

A section is about one operation and one partition. `Move` says what it may do to them, and
`Move.threads` that this is enough for everybody else. -/

/-- What a step does to the lookup that moves, to its partition and to the
ways. -/
structure Move (opts : Options) (hash : Slice → UInt32)
    (P : δ → DirId → Slice → LokupMode → LookupStat → Prop) (Q : User → Lease → Prop)
    (s s' : Lookups δ) (i : Nat) (op op' : Lookup) (t : Leases) : Prop where
  call : SameCall op op'
  ops : s'.ops = s.ops.set i op'
  parts : s'.parts = Function.update s.parts (op.part opts) t
  content : ∀ {id k mode rep}, P s.content id k mode rep → P s'.content id k mode rep
  leases : Leases.Inv (P s'.content (op.part opts).1) t (references s'.ops (op.part opts))
  stays : Leases.Stays (s.parts (op.part opts)) t (references s'.ops (op.part opts))
  table : ∀ {x l}, t.table x = some l →
    (s.parts (op.part opts)).table x = some l ∨ op.phase.inside = true ∧ x = op.name
  held : ∀ {r}, op'.held = some r → Holding opts Q s'.parts op' r
  /-- only its own way is opened -/
  busy : ∀ k w, s.busy k w = true →
    s'.busy k w = true ∨ op.phase.inside = true ∧ k = op.part opts ∧ w = op.way hash
  inside : op'.phase.inside = true → s'.busy (op.part opts) (op.way hash) = true ∧
    t.table op.name = none ∧ (op.phase.inside = true ∨ s.busy (op.part opts) (op.way hash) = false)
  fetched : ∀ {rep}, op'.phase = .fetched (.ok rep) →
    P s'.content op.parent.dirId op.name op.mode rep

/-- The partition of a lookup that has moved, and the others. -/
theorem Move.parts_self {s' : Lookups δ} (m : Move opts hash P Q s s' i op op' t) :
    s'.parts (op.part opts) = t := by rw [m.parts, Function.update_self]

theorem Move.parts_ne {s' : Lookups δ} (m : Move opts hash P Q s s' i op op' t) {k : DirId × Nat}
    (hk : k ≠ op.part opts) : s'.parts k = s.parts k := by
  rw [m.parts, Function.update_of_ne hk]

theorem Move.pool {s' : Lookups δ} (m : Move opts hash P Q s s' i op op' t) {j : Nat} {o : Lookup}
    (hj : s'.ops[j]? = some o) : j = i ∧ o = op' ∨ j ≠ i ∧ s.ops[j]? = some o := by
  rw [m.ops] at hj
  exact TransitionSystem.pool_set hj

/-- The partition of the move has the leases that the move leaves, any other one those it had. -/
theorem Move.leases_inv {s' : Lookups δ} (hi : Threads opts hash M P Q s)
    (hop : s.ops[i]? = some op) (m : Move opts hash P Q s s' i op op' t) (k : DirId × Nat) :
    Leases.Inv (P s'.content k.1) (s'.parts k) (references s'.ops k) := by
  by_cases hk : k = op.part opts
  · subst hk
    rw [m.parts_self]
    exact m.leases
  · have href : references s'.ops k = references s.ops k := by
      rw [m.ops]
      refine references_ne hop (fun r hr h => hk ?_) fun r hr h => hk ?_
      · rw [← h, (hi.held hop hr).part]
      · rw [← h, (m.held hr).part, part_eq m.call]
    rw [m.parts_ne hk, href]
    exact (hi.leases k).mono fun _ _ _ h => m.content h

/-- A lookup that has returned a lease still has it: leases that are held stay. -/
theorem Move.holding {s' : Lookups δ} (hQ : Sharing Q) (hi : Threads opts hash M P Q s)
    (m : Move opts hash P Q s s' i op op' t) {j : Nat} {o : Lookup} {r : Ref}
    (hj : s'.ops[j]? = some o) (hr : o.held = some r) : Holding opts Q s'.parts o r := by
  cases m.pool hj with
  | inl h => obtain ⟨rfl, rfl⟩ := h; exact m.held hr
  | inr h =>
    have hh := hi.held h.2 hr
    obtain ⟨lease, hl, hmode, hrep, hkey, hq⟩ := hh.lease
    by_cases hk : r.part = op.part opts
    · have hpos : 0 < references s'.ops (op.part opts) r.lease := hk ▸ references_pos hj hr
      obtain ⟨lease', hl', hsame⟩ := m.stays (hk ▸ hl) hpos
      refine ⟨hh.part, hh.mode, hh.returned, lease', ?_, hsame.mode.trans hmode,
        hsame.rep.trans hrep, hsame.key.trans hkey, hQ.same hsame hq⟩
      rw [hk, m.parts_self]
      exact hl'
    · refine ⟨hh.part, hh.mode, hh.returned, lease, ?_, hmode, hrep, hkey, hq⟩
      rw [m.parts_ne hk]
      exact hl

/-- Two lookups that hold their ways at the same time, the one that moves and another, are of
different ways. -/
theorem Move.apart {s' : Lookups δ} (hi : Threads opts hash M P Q s) (hop : s.ops[i]? = some op)
    (m : Move opts hash P Q s s' i op op' t) {j : Nat} {o : Lookup} (hj : j ≠ i)
    (ho : s.ops[j]? = some o) (hin : op.phase.inside = true ∨ op'.phase.inside = true)
    (hin' : o.phase.inside = true) (hp : op.part opts = o.part opts) :
    op.way hash ≠ o.way hash := by
  intro hw
  have hapart : op.phase.inside = true → False := fun hin =>
    hj (hi.alone hop ho hin hin' hp hw).symm
  -- a lookup that goes in finds its way free
  rcases hin with hin | hin
  · exact hapart hin
  · cases (m.inside hin).2.2 with
    | inl hin₀ => exact hapart hin₀
    | inr hfree =>
      rw [hp, hw, (hi.inside ho hin').1] at hfree
      cases hfree

/-- **Step lemma**: the invariant survives a move. For the operation that moves this is what
`Move` says; for the others nothing has changed that they have seen, because leases that are
held stay. -/
theorem Move.threads {s' : Lookups δ} (hQ : Sharing Q) (hi : Threads opts hash M P Q s)
    (hop : s.ops[i]? = some op) (m : Move opts hash P Q s s' i op op' t) :
    Threads opts hash M P Q s' := by
  have hpart : op'.part opts = op.part opts := part_eq m.call
  have hway : op'.way hash = op.way hash := way_eq m.call
  refine ⟨fun {j o} hj => ?_, m.leases_inv hi hop, m.holding hQ hi, fun {j o} hj hin => ?_,
    fun {j j' o o'} hj hj' hin hin' hp hw => ?_, fun {j o rep} hj hf => ?_⟩
  · cases m.pool hj with
    | inl h =>
      obtain ⟨rfl, rfl⟩ := h
      rw [m.call.who, m.call.parent, m.call.mode]
      exact hi.calls hop
    | inr h => exact hi.calls h.2
  · cases m.pool hj with
    | inl h =>
      obtain ⟨rfl, rfl⟩ := h
      obtain ⟨hbusy, htable, -⟩ := m.inside hin
      rw [hpart, hway, m.parts_self, m.call.name]
      exact ⟨hbusy, htable⟩
    | inr h =>
      obtain ⟨hbusy, htable⟩ := hi.inside h.2 hin
      constructor
      · cases m.busy _ _ hbusy with
        | inl h => exact h
        | inr hown => exact absurd hown.2.2.symm (m.apart hi hop h.1 h.2 (.inl hown.1) hin hown.2.1.symm)
      · by_cases hk : o.part opts = op.part opts
        · rw [hk, m.parts_self, Option.eq_none_iff_forall_ne_some]
          intro l hl
          cases m.table hl with
          | inl hold => rw [← hk, htable] at hold; cases hold
          | inr hown =>
            refine m.apart hi hop h.1 h.2 (.inl hown.1) hin hk.symm ?_
            rw [Lookup.way, Lookup.way, hown.2]
        · rw [m.parts_ne hk]
          exact htable
  · cases m.pool hj with
    | inl h =>
      obtain ⟨rfl, rfl⟩ := h
      cases m.pool hj' with
      | inl h' => exact h'.1.symm
      | inr h' =>
        exact absurd (hway ▸ hw) (m.apart hi hop h'.1 h'.2 (.inr hin) hin' (hpart ▸ hp))
    | inr h =>
      cases m.pool hj' with
      | inl h' =>
        obtain ⟨rfl, rfl⟩ := h'
        exact absurd (hway ▸ hw.symm)
          (m.apart hi hop h.1 h.2 (.inr hin') hin (hpart ▸ hp.symm))
      | inr h' => exact hi.alone h.2 h'.2 hin hin' hp hw
  · cases m.pool hj with
    | inl h =>
      obtain ⟨rfl, rfl⟩ := h
      rw [m.call.parent, m.call.name, m.call.mode]
      exact m.fetched hf
    | inr h => exact m.content (hi.fetched h.2 hf)

/-! ## What a step shows

Besides its effect a section shows events, which are what the results are about: what was
answered, returned, installed and deleted. `Steps` is a `Move` with its events. -/

/-- A step at which a bulk insertion loses its last handle when its lease is
out. -/
def Outlived (s : Lookups δ) (op : Lookup) : Prop :=
  ∃ r lease, op.held = some r ∧ r.mode = .kBulkIn ∧ (s.parts r.part).mem r.lease = some lease ∧
    lease.out = true ∧ references s.ops r.part r.lease = 1

/-- What a step of lookup `i` shows, before and after the leases it deletes. -/
inductive Shows (opts : Options) (srv : Server δ)
    (P : δ → DirId → Slice → LokupMode → LookupStat → Prop) (s : Lookups δ) (i : Nat)
    (op op' : Lookup) : List (LookupEvent δ) → List (LookupEvent δ) → Prop where
  | refused : op.phase = .entered → isLookupOk opts.skipPermChecks op.parent op.who = false →
      op'.phase = .returned →
      Shows opts srv P s i op op' []
        [.answered i s.content (.error (.accessDenied, str "No x perm")),
          .ret i (.error (.accessDenied, str "No x perm"))]
  /-- a lease was found -/
  | granted {r : Ref} : op.phase = .entered ∨ op.phase = .waiting →
      (op.phase = .entered → isLookupOk opts.skipPermChecks op.parent op.who = true) →
      P s.content op.parent.dirId op.name op.mode r.rep → op'.phase = .returned →
      op'.held = some r →
      Shows opts srv P s i op op' [] [.answered i s.content (.ok r.rep), .ret i (.ok r.rep)]
  | mismatch {other : LokupMode} {rep : LookupStat} : op.phase = .entered ∨ op.phase = .waiting →
      (op.phase = .entered → isLookupOk opts.skipPermChecks op.parent op.who = true) →
      P s.content op.parent.dirId op.name other rep → other ≠ op.mode → op'.phase = .returned →
      Shows opts srv P s i op op' []
        [.answered i s.content (.error (.accessDenied, Leases.modeMismatch)),
          .ret i (.error (.accessDenied, Leases.modeMismatch))]
  /-- no lease was found -/
  | missing : op.phase = .entered ∨ op.phase = .waiting →
      (op.phase = .entered → isLookupOk opts.skipPermChecks op.parent op.who = true) →
      op'.phase = .waiting ∨ op'.phase = .fetching →
      Shows opts srv P s i op op' [] []
  | fetched : op.phase = .fetching →
      op'.phase = .fetched (srv.lokup s.content op.who op.parent op.name).2 →
      Shows opts srv P s i op op' []
        [.answered i s.content (srv.lokup s.content op.who op.parent op.name).2]
  | failed {e : ErrCode × Slice} : op.phase = .fetched (.error e) → op'.phase = .returned →
      Shows opts srv P s i op op' [] [.ret i (.error e)]
  /-- a lease was installed where there was none -/
  | installed {r : Ref} : op.phase = .fetched (.ok r.rep) → op'.phase = .returned →
      op'.held = some r → Shows opts srv P s i op op' [.installed i none] [.ret i (.ok r.rep)]
  | given {r : Ref} : op.held = some r → op'.held = none → op'.phase = .returned →
      Shows opts srv P s i op op' [] []

/-! ### What one lookup does

The sections of `Leases` were proved for one partition. Here they become steps of a lookup: each
lemma takes a branch of the code and gives the move with what it shows. -/

/-- A step of lookup `i`: what it does, the leases it deletes, and what it
shows. -/
inductive Steps (opts : Options) (srv : Server δ) (hash : Slice → UInt32)
    (P : δ → DirId → Slice → LokupMode → LookupStat → Prop) (Q : User → Lease → Prop)
    (s : Lookups δ) (i : Nat) (op : Lookup) : Lookups δ → List (LookupEvent δ) → Prop where
  | mk {s' : Lookups δ} (op' : Lookup) (t : Leases) (ds : List Deleted)
      (before : List (LookupEvent δ)) {after : List (LookupEvent δ)} :
      Move opts hash P Q s s' i op op' t →
      (∀ d ∈ ds, references s'.ops (op.part opts) d.1 = 0) →
      (¬s.Outlived op → Leases.AllClean ds) → Shows opts srv P s i op op' before after →
      Steps opts srv hash P Q s i op s' (before ++ ds.map (.deleted (op.part opts)) ++ after)

/-- The condition on a check: a lease it finds may be shared. -/
def Joins (opts : Options) (Q : User → Lease → Prop) (s : Lookups δ) (op : Lookup) (now : UInt64) :
    Prop :=
  ∀ {t l ds lease}, (s.parts (op.part opts)).check op.name now = some (t, some l, ds) →
    t.mem l = some lease → lease.mode = op.mode → Q op.who lease

theorem free (hi : Threads opts hash M P Q s) (hop : s.ops[i]? = some op)
    (h : op.phase ≠ .returned) : op.held = none := by
  cases hr : op.held with
  | none => rfl
  | some r => exact absurd (hi.held hop hr).returned h

/-- A check that finds no lease: the lookup waits for its way, or has it and goes to the
server. -/
theorem steps_missing (hop : s.ops[i]? = some op)
    (hphase : op.phase = .entered ∨ op.phase = .waiting)
    (hperm : op.phase = .entered → isLookupOk opts.skipPermChecks op.parent op.who = true)
    (hfree : op.held = none) (next : Lookups δ → Lookups δ) {phase : Phase}
    (f : (DirId × Nat → Nat → Bool) → DirId × Nat → Nat → Bool)
    (hnext : ∀ x, next x = { x with busy := f x.busy })
    (hbusy : ∀ k w, s.busy k w = true → f s.busy k w = true)
    (hgoes : phase = .waiting ∨ op.phase = .waiting ∧ phase = .fetching ∧
      f s.busy (op.part opts) (op.way hash) = true ∧ s.busy (op.part opts) (op.way hash) = false)
    {t : Leases} {ds : List Deleted}
    (hinv : Leases.Inv (P s.content (op.part opts).1) t (references s.ops (op.part opts)))
    (hmoved : Leases.Moved (s.parts (op.part opts)) t (references s.ops (op.part opts)) none ds)
    (hclean : Leases.AllClean ds) (hnone : t.table op.name = none) :
    Steps opts srv hash P Q s i op (next (s.put i { op with phase := phase } (op.part opts) t))
      (ds.map (.deleted (op.part opts))) := by
  have hkeep : references (s.ops.set i { op with phase := phase }) (op.part opts) =
      references s.ops (op.part opts) := references_keep hop rfl
  have hsteps : Steps opts srv hash P Q s i op
      (next (s.put i { op with phase := phase } (op.part opts) t))
      ([] ++ ds.map (.deleted (op.part opts)) ++ []) := by
    rw [hnext]
    refine .mk { op with phase := phase } t ds [] ⟨⟨rfl, rfl, rfl, rfl⟩, rfl, rfl,
      fun h => h, ?_, ?_, fun h => .inl ((hmoved.table h).resolve_right nofun),
      fun {r} hr => ?_, fun k w h => .inl (hbusy k w h), fun hin => ?_, fun {rep} hf => ?_⟩ ?_
      (fun _ => hclean) (.missing hphase hperm (hgoes.imp_right fun h => h.2.1))
    · show Leases.Inv _ t (references (s.ops.set i _) _)
      rw [hkeep]
      exact hinv
    · show Leases.Stays _ t (references (s.ops.set i _) _)
      rw [hkeep]
      exact hmoved.stays
    · exact absurd (hfree.symm.trans hr) nofun
    · cases hgoes with
      | inl h => subst h; cases hin
      | inr h => exact ⟨h.2.2.1, hnone, .inr h.2.2.2⟩
    · cases hgoes with
      | inl h => rw [show phase = _ from hf] at h; cases h
      | inr h => rw [show phase = _ from hf] at h; cases h.2.1
    · show ∀ d ∈ ds, references (s.ops.set i _) _ d.1 = 0
      rw [hkeep]
      exact hmoved.gone
  rw [List.nil_append, List.append_nil] at hsteps
  exact hsteps

/-- A check that finds a lease of the mode asked for: the lookup takes a reference to it and
returns. -/
theorem steps_granted (hQ : Sharing Q) (hi : Threads opts hash M P Q s) (hop : s.ops[i]? = some op)
    (hphase : op.phase = .entered ∨ op.phase = .waiting)
    (hperm : op.phase = .entered → isLookupOk opts.skipPermChecks op.parent op.who = true)
    (hfree : op.held = none) {t : Leases} {l : Nat} {lease : Lease}
    (hcore : Leases.Core t (Leases.more (references s.ops (op.part opts)) l))
    (hmem : t.mem = (s.parts (op.part opts)).mem)
    (htable : t.table = (s.parts (op.part opts)).table) (hl : t.mem l = some lease)
    (hkey : lease.key = op.name) (hmode : lease.mode = op.mode) (hshare : Q op.who lease) :
    ∃ s' result ds, s.grant i op (op.part opts) t l = some (s', result, ds) ∧
      Steps opts srv hash P Q s i op s' (returns i s.content (op.part opts) result ds) := by
  have hok : ∀ {q lease'}, t.mem q = some lease' →
      Leases.Ok (P s.content (op.part opts).1) lease' (references s.ops (op.part opts) q) := by
    intro q lease' hq
    rw [hmem] at hq
    exact (hi.leases _).ok hq
  have ho := hok hl
  obtain ⟨t', lease', hgrant, hinv, hmoved, hl', hsame, htable'⟩ := Leases.grant_same hcore
    (fun _ h => hok h) hl ho.rep ho.due ho.out ho.counts
  rw [hmode] at hgrant
  let r : Ref := ⟨(op.part opts).1, (op.part opts).2, l, op.mode, lease'.rep⟩
  let op' : Lookup := { op with phase := .returned, held := some r }
  have htake := references_take op' hop hfree rfl
  refine ⟨s.put i op' (op.part opts) t', .ok lease'.rep, [], ?_, .mk op' t' [] []
    ⟨⟨rfl, rfl, rfl, rfl⟩, rfl, rfl,
    fun h => h, ?_, ?_, fun {x q} h => ?_, fun {r} hr => ?_, fun k w h => .inl h,
    fun hin => (nomatch hin), fun hf => (nomatch hf)⟩ (fun d hd => (nomatch hd))
    (fun _ => Leases.allClean_nil) (.granted (r := r) hphase hperm ?_ rfl rfl)⟩
  · simp only [Lookups.grant, hgrant, Option.bind_eq_bind, Option.bind_some, hl']
    rfl
  · exact htake ▸ hinv
  · intro q lease₁ hq hpos
    rw [← hmem] at hq
    exact hmoved.stays hq (hpos.trans_eq (congrFun htake q))
  · rw [htable', htable] at h
    exact .inl h
  · cases hr
    refine ⟨rfl, rfl, rfl, lease', ?_, hsame.mode.trans hmode, rfl, hsame.key.trans hkey,
      hQ.same hsame hshare⟩
    show (Function.update s.parts (op.part opts) t' (op.part opts)).mem l = _
    rw [Function.update_self]
    exact hl'
  · have h := ho.rep
    rw [hkey, hmode, ← hsame.rep] at h
    exact h

/-- A check that finds a lease of another mode: the reference it took is given back, and the
lookup returns an error. -/
theorem steps_mismatch (hi : Threads opts hash M P Q s) (hop : s.ops[i]? = some op)
    (hphase : op.phase = .entered ∨ op.phase = .waiting)
    (hperm : op.phase = .entered → isLookupOk opts.skipPermChecks op.parent op.who = true)
    (hfree : op.held = none) {t : Leases} {l : Nat} {lease : Lease}
    (hcore : Leases.Core t (Leases.more (references s.ops (op.part opts)) l))
    (hmem : t.mem = (s.parts (op.part opts)).mem)
    (htable : t.table = (s.parts (op.part opts)).table) (hl : t.mem l = some lease)
    (hkey : lease.key = op.name) (hmode : lease.mode ≠ op.mode) :
    ∃ s' result ds, s.grant i op (op.part opts) t l = some (s', result, ds) ∧
      Steps opts srv hash P Q s i op s' (returns i s.content (op.part opts) result ds) := by
  have hok : ∀ {q lease'}, t.mem q = some lease' →
      Leases.Ok (P s.content (op.part opts).1) lease' (references s.ops (op.part opts) q) := by
    intro q lease' hq
    rw [hmem] at hq
    exact (hi.leases _).ok hq
  obtain ⟨t', ds, hgrant, hinv, hmoved, hclean⟩ := Leases.grant_other hcore (fun h => hok h) hl
    hmode
  have hkeep : references (s.ops.set i { op with phase := .returned }) (op.part opts) =
      references s.ops (op.part opts) := references_keep hop rfl
  refine ⟨s.put i { op with phase := .returned } (op.part opts) t',
    .error (.accessDenied, Leases.modeMismatch), ds, ?_, .mk { op with phase := .returned } t' ds []
    ⟨⟨rfl, rfl, rfl, rfl⟩, rfl, rfl, fun h => h, ?_, ?_, fun {x q} h => ?_, fun {r} hr => ?_,
    fun k w h => .inl h, fun hin => (nomatch hin), fun hf => (nomatch hf)⟩ ?_
    (fun _ => hclean) (.mismatch hphase hperm (hkey ▸ (hok hl).rep) hmode rfl)⟩
  · simp only [Lookups.grant, hgrant, Option.bind_eq_bind, Option.bind_some]
  · exact hkeep ▸ hinv
  · intro q lease₁ hq hpos
    rw [← hmem] at hq
    exact hmoved.stays hq (hpos.trans_eq (congrFun hkeep q))
  · have h := (hmoved.table h).resolve_right nofun
    rw [htable] at h
    exact .inl h
  · exact absurd (hfree.symm.trans hr) nofun
  · exact hkeep ▸ hmoved.gone

/-- **A check**, when no lookup holds the way it would take. There is nothing to find,
or a lease that the lookup may have, or one in another mode; each is a step of its own. -/
theorem steps_check (hQ : Sharing Q) (hi : Threads opts hash M P Q s) (hop : s.ops[i]? = some op)
    (hphase : op.phase = .entered ∨ op.phase = .waiting)
    (hperm : op.phase = .entered → isLookupOk opts.skipPermChecks op.parent op.who = true)
    {now : UInt64} (hjoins : Joins opts Q s op now) (next : Lookups δ → Lookups δ) {phase : Phase}
    (f : (DirId × Nat → Nat → Bool) → DirId × Nat → Nat → Bool)
    (hnext : ∀ x, next x = { x with busy := f x.busy })
    (hbusy : ∀ k w, s.busy k w = true → f s.busy k w = true)
    (hgoes : phase = .waiting ∨ op.phase = .waiting ∧ phase = .fetching ∧
      f s.busy (op.part opts) (op.way hash) = true ∧ s.busy (op.part opts) (op.way hash) = false) :
    ∃ s' es, s.checkLease opts i op now next phase = some (s', es) ∧
      Steps opts srv hash P Q s i op s' es := by
  have hfree : op.held = none := by
    apply free hi hop
    cases hphase with
    | inl h => rw [h]; exact fun h => nomatch h
    | inr h => rw [h]; exact fun h => nomatch h
  obtain ⟨t, o, ds, hcheck, hc⟩ := (hi.leases (op.part opts)).check op.name now
  cases hc with
  | missing hinv hmoved hclean hnone =>
    refine ⟨_, _, ?_, steps_missing hop hphase hperm hfree next f hnext hbusy hgoes hinv hmoved
      hclean hnone⟩
    simp only [checkLease, hcheck, Option.bind_eq_bind, Option.bind_some]
  | @found l lease hcore hmem htable hl hlist hdue =>
    have hl' : t.mem l = some lease := by rw [hmem, hl]
    obtain ⟨lease', h', hkey, -⟩ := ((hi.leases (op.part opts)).listed op.name l).mp hlist
    obtain rfl := Option.some.inj (hl.symm.trans h')
    obtain ⟨s', result, ds, hgrant, hsteps⟩ : ∃ s' result ds,
        s.grant i op (op.part opts) t l = some (s', result, ds) ∧
        Steps opts srv hash P Q s i op s' (returns i s.content (op.part opts) result ds) := by
      by_cases hmode : lease.mode = op.mode
      · exact steps_granted hQ hi hop hphase hperm hfree hcore hmem htable hl' hkey hmode
          (hjoins hcheck hl' hmode)
      · exact steps_mismatch hi hop hphase hperm hfree hcore hmem htable hl' hkey hmode
    refine ⟨_, _, ?_, hsteps⟩
    simp only [checkLease, hcheck, Option.bind_eq_bind, Option.bind_some, hgrant, List.nil_append]

/-- A step that leaves the partition as it is. -/
theorem steps_still (hi : Threads opts hash M P Q s) (hop : s.ops[i]? = some op)
    (hfree : op.held = none) {s' : Lookups δ} {phase : Phase} {after : List (LookupEvent δ)}
    (hops : s'.ops = s.ops.set i { op with phase := phase }) (hparts : s'.parts = s.parts)
    (hcontent : ∀ {id k mode rep}, P s.content id k mode rep → P s'.content id k mode rep)
    (hbusy : ∀ k w, s.busy k w = true →
      s'.busy k w = true ∨ op.phase.inside = true ∧ k = op.part opts ∧ w = op.way hash)
    (hin : phase.inside = true → op.phase.inside = true ∧ s'.busy = s.busy)
    (hfetched : ∀ {rep}, phase = .fetched (.ok rep) →
      P s'.content op.parent.dirId op.name op.mode rep)
    (hshows : Shows opts srv P s i op { op with phase := phase } [] after) :
    Steps opts srv hash P Q s i op s' after := by
  have hkeep : references s'.ops (op.part opts) = references s.ops (op.part opts) := by
    rw [hops]
    exact references_keep hop rfl
  refine .mk { op with phase := phase } (s.parts (op.part opts)) [] []
    ⟨⟨rfl, rfl, rfl, rfl⟩, hops, ?_, hcontent, ?_, fun {l lease} hl _ => ?_, .inl,
    fun {r} hr => ?_, hbusy, fun hin' => ?_, hfetched⟩ (fun d hd => (nomatch hd))
    (fun _ => Leases.allClean_nil) hshows
  · rw [hparts, Function.update_eq_self]
  · rw [hkeep]
    exact (hi.leases _).mono fun _ _ _ h => hcontent h
  · exact ⟨lease, hl, .refl _⟩
  · exact absurd (hfree.symm.trans hr) nofun
  · obtain ⟨h, hb⟩ := hin hin'
    obtain ⟨hb', htable⟩ := hi.inside hop h
    exact ⟨by rw [hb, hb'], htable, .inl h⟩

/-- **The rest of a lookup** that comes back from the server. It holds its way, so no
other lookup of the name can have inserted a lease meanwhile: the place in the table is
free. -/
theorem steps_finish (hQ : Sharing Q) (hi : Threads opts hash M P Q s) (hop : s.ops[i]? = some op)
    {reply : Except (ErrCode × Slice) LookupStat} (hphase : op.phase = .fetched reply) :
    ∃ s' es, s.finishLookup opts hash i op reply = some (s', es) ∧
      Steps opts srv hash P Q s i op s' es := by
  have hin : op.phase.inside = true := by rw [hphase]; rfl
  have hfree : op.held = none := free hi hop (by rw [hphase]; exact nofun)
  have hbusy : ∀ k w, s.busy k w = true → (s.setBusy (op.part opts) (op.way hash) false).busy k w =
      true ∨ op.phase.inside = true ∧ k = op.part opts ∧ w = op.way hash := by
    intro k w h
    by_cases hk : k = op.part opts ∧ w = op.way hash
    · exact .inr ⟨hin, hk⟩
    · refine .inl ?_
      show Function.update s.busy (op.part opts) _ k w = true
      by_cases hk' : k = op.part opts
      · subst hk'
        rw [Function.update_self, Function.update_of_ne fun hw => hk ⟨rfl, hw⟩]
        exact h
      · rw [Function.update_of_ne hk']
        exact h
  cases reply with
  | error e =>
    refine ⟨(s.setBusy (op.part opts) (op.way hash) false).put i { op with phase := .returned }
      (op.part opts) (s.parts (op.part opts)), _, rfl, ?_⟩
    refine steps_still hi hop hfree rfl ?_ (fun h => h) hbusy (fun h => (nomatch h))
      (fun h => (nomatch h)) (.failed hphase rfl)
    exact Function.update_eq_self ..
  | ok rep =>
    obtain ⟨t₁, l, ds, t', lease, hinstall, hgrant, hinv, hmoved, hclean, -, hl, hsame⟩ :=
      (hi.leases (op.part opts)).installed (hi.inside hop hin).2 (hi.fetched hop hphase)
        (Leases.newContexts_counts op.who op.name op.mode rep)
    have hrep : lease.rep = rep := hsame.rep
    let op' : Lookup := { op with
      phase := .returned
      held := some ⟨(op.part opts).1, (op.part opts).2, l, op.mode, lease.rep⟩ }
    have htake := references_take op' hop hfree rfl
    refine ⟨(s.setBusy (op.part opts) (op.way hash) false).put i op' (op.part opts) t', _, ?_,
      .mk op' t' ds [.installed i none]
      ⟨⟨rfl, rfl, rfl, rfl⟩, rfl, rfl, fun h => h, ?_, ?_, fun {x q} h => ?_, fun {r} hr => ?_,
      hbusy, fun hin => (nomatch hin), fun hf => (nomatch hf)⟩ ?_ (fun _ => hclean)
      (.installed (hrep ▸ hphase) rfl rfl)⟩
    · have hparts : (s.setBusy (op.part opts) (op.way hash) false).parts = s.parts := rfl
      simp only [finishLookup, hparts, hinstall, Option.bind_eq_bind, Option.bind_some,
        Lookups.grant, hgrant, hl, List.append_nil, List.cons_append, List.nil_append]
      rfl
    · exact htake ▸ hinv
    · exact htake ▸ hmoved.stays
    · cases hmoved.table h with
      | inl h => exact .inl h
      | inr h => exact .inr ⟨hin, (Option.some.inj h).symm⟩
    · cases hr
      refine ⟨rfl, rfl, rfl, lease, ?_, hsame.mode, rfl, hsame.key, hQ.same hsame hQ.new⟩
      show (Function.update s.parts (op.part opts) t' (op.part opts)).mem l = _
      rw [Function.update_self]
      exact hl
    · exact htake ▸ hmoved.gone

/-- **A reference is given back.** Whichever function does it, it is applied to a lease
that the lookup holds, and changes its references by one. -/
theorem steps_giveBack (hi : Threads opts hash M P Q s) (hop : s.ops[i]? = some op)
    (hr : op.held = some r) (f : Leases → Option (Leases × List Deleted))
    (hf : ∀ {lease ext'}, (s.parts r.part).mem r.lease = some lease → lease.mode = r.mode →
      ext' r.lease + 1 = references s.ops r.part r.lease →
      (∀ q, q ≠ r.lease → ext' q = references s.ops r.part q) →
      ∃ t' ds, f (s.parts r.part) = some (t', ds) ∧ Leases.Inv (P s.content r.dir) t' ext' ∧
        Leases.Moved (s.parts r.part) t' ext' none ds ∧
        (r.mode = .kBulkIn → lease.out = false ∨ 0 < ext' r.lease → Leases.AllClean ds) ∧
        (r.mode ≠ .kBulkIn → Leases.AllClean ds)) :
    ∃ s' es, s.giveBack i op r f = some (s', es) ∧ Steps opts srv hash P Q s i op s' es := by
  have hh := hi.held hop hr
  obtain ⟨lease, hl, hmode, -⟩ := hh.lease
  let op' : Lookup := { op with held := none }
  obtain ⟨hone, hrest⟩ := references_drop op' hop hr rfl
  obtain ⟨t', ds, hft, hinv, hmoved, hbulk, hclean⟩ := hf hl (hmode.trans hh.mode.symm) hone hrest
  have hpart : r.part = op.part opts := hh.part
  have hsteps : Steps opts srv hash P Q s i op (s.put i op' r.part t')
      ([] ++ ds.map (.deleted (op.part opts)) ++ []) := by
    refine .mk op' t' ds [] ⟨⟨rfl, rfl, rfl, rfl⟩, rfl, ?_, fun h => h, hpart ▸ hinv,
      hpart ▸ hmoved.stays, fun h => .inl ?_, fun hr => (nomatch hr), fun k w h => .inl h,
      fun hin => ?_, fun {rep} hf => ?_⟩ (hpart ▸ hmoved.gone) (fun hout => ?_)
      (.given hr rfl hh.returned)
    · show Function.update s.parts r.part t' = _
      rw [hpart]
    · exact hpart ▸ (hmoved.table h).resolve_right nofun
    · have h : op.phase.inside = true := hin
      rw [hh.returned] at h
      cases h
    · have h : op.phase = _ := hf
      rw [hh.returned] at h
      cases h
    · by_cases hm : r.mode = .kBulkIn
      · apply hbulk hm
        by_contra hno
        simp only [not_or, Bool.not_eq_false, Nat.not_lt, Nat.le_zero] at hno
        exact hout ⟨r, lease, hr, hm, hl, hno.1, by rw [← hone, hno.2]⟩
      · exact hclean hm
  rw [List.nil_append, List.append_nil] at hsteps
  refine ⟨_, _, ?_, hsteps⟩
  rw [Lookups.giveBack, hft, Option.map_some, hpart]

/-! ## Every step

One lemma for each label, and one that has them all. A label that finds its operation in
another phase is no step. -/

/-- What the threads rely on, of each step. -/
def Allowed (opts : Options) (M : User → LookupStat → LokupMode → Prop)
    (P : δ → DirId → Slice → LokupMode → LookupStat → Prop) (Q : User → Lease → Prop)
    (s : Lookups δ) : LookupLabel δ → Prop
  | .call who parent _ mode => M who parent mode
  | .check i now => ∀ op, s.ops[i]? = some op → Joins opts Q s op now
  | .take i now => ∀ op, s.ops[i]? = some op → Joins opts Q s op now
  | .others d => ∀ {id k mode rep}, P s.content id k mode rep → P d id k mode rep
  | _ => True

/-- What a step is. -/
inductive Stepped (opts : Options) (srv : Server δ) (hash : Slice → UInt32)
    (P : δ → DirId → Slice → LokupMode → LookupStat → Prop) (Q : User → Lease → Prop)
    (s : Lookups δ) : LookupLabel δ → Lookups δ → List (LookupEvent δ) → Prop where
  | called (who : User) (parent : LookupStat) (name : Slice) (mode : LokupMode) :
      Stepped opts srv hash P Q s (.call who parent name mode)
        { s with ops := s.ops ++ [Lookup.new who parent name mode] } [.invoked s.ops.length]
  | moved {k : LookupLabel δ} {i : Nat} {op : Lookup} {s' : Lookups δ}
      {es : List (LookupEvent δ)} : s.ops[i]? = some op →
      (s.Outlived op → k = .destroy i) → Steps opts srv hash P Q s i op s' es →
      Stepped opts srv hash P Q s k s' es
  | deleted {k : DirId × Nat} : s.idle opts k = true →
      Stepped opts srv hash P Q s (.deletePartition k)
        { s with
          parts := Function.update s.parts k (Leases.empty opts.perPartitionLeaseLruSize) } []
  | others (d : δ) : Stepped opts srv hash P Q s (.others d) { s with content := d } []

/-- A lookup that has no lease of a bulk insertion does not outlive one. -/
theorem not_outlived (h : ∀ r, op.held = some r → r.mode ≠ .kBulkIn) : ¬s.Outlived op := by
  rintro ⟨r, lease, hr, hmode, -⟩
  exact h r hr hmode

theorem not_outlived_of_free (h : op.held = none) : ¬s.Outlived op :=
  not_outlived fun _ hr => absurd (h.symm.trans hr) nofun

section Labels

variable {s' : Lookups δ} {es : List (LookupEvent δ)} {now : UInt64}

/-- A lookup without a lease does not destroy one. -/
theorem Stepped.free {k : LookupLabel δ} (hop : s.ops[i]? = some op) (hfree : op.held = none)
    (h : Steps opts srv hash P Q s i op s' es) : Stepped opts srv hash P Q s k s' es :=
  .moved hop (fun hout => absurd hout (not_outlived_of_free hfree)) h

/-- The first section of `Lokup2`: the permission, and then the lease. -/
theorem Stepped.check (hQ : Sharing Q) (hi : Threads opts hash M P Q s)
    (hk : Allowed opts M P Q s (.check i now))
    (hs : step opts srv hash s (.check i now) = some (s', es)) :
    Stepped opts srv hash P Q s (.check i now) s' es := by
  simp only [step, Option.bind_eq_bind, Option.bind_eq_some_iff] at hs
  obtain ⟨op, hop, hs⟩ := hs
  split at hs
  · rename_i hphase
    have hfree : op.held = none := Lookups.free hi hop (by rw [hphase]; exact nofun)
    split at hs
    · rename_i hok
      obtain ⟨s₁, es₁, hcheck, hsteps⟩ := steps_check hQ hi hop (.inl hphase) (fun _ => hok)
        (hk op hop) id id (fun _ => rfl) (fun _ _ h => h) (.inl rfl)
      rw [hcheck] at hs
      cases hs
      exact .free hop hfree hsteps
    · rename_i hno
      cases hs
      refine .free hop hfree ?_
      exact steps_still hi hop hfree rfl rfl (fun h => h) (fun _ _ h => .inl h)
        (fun h => (nomatch h)) (fun h => (nomatch h))
        (.refused hphase (Bool.eq_false_iff.mpr hno) rfl)
  · cases hs

/-- A way that is taken is busy, and what was busy stays so. -/
theorem setBusy_busy (busy : DirId × Nat → Nat → Bool) (k : DirId × Nat) (w : Nat) :
    Function.update busy k (Function.update (busy k) w true) k w = true ∧
      ∀ k' w', busy k' w' = true →
        Function.update busy k (Function.update (busy k) w true) k' w' = true := by
  refine ⟨by rw [Function.update_self, Function.update_self], fun k' w' h => ?_⟩
  rw [Function.update_apply]
  split
  · rename_i hk
    subst hk
    rw [Function.update_apply]
    split
    · rfl
    · exact h
  · exact h

/-- The way is free: the lease is looked for again, under it. -/
theorem Stepped.take (hQ : Sharing Q) (hi : Threads opts hash M P Q s)
    (hk : Allowed opts M P Q s (.take i now))
    (hs : step opts srv hash s (.take i now) = some (s', es)) :
    Stepped opts srv hash P Q s (.take i now) s' es := by
  simp only [step, Option.bind_eq_bind, Option.bind_eq_some_iff] at hs
  obtain ⟨op, hop, hs⟩ := hs
  split at hs
  · rename_i hphase
    have hfree : op.held = none := Lookups.free hi hop (by rw [hphase]; exact nofun)
    split at hs
    · cases hs
    · rename_i hbusy
      obtain ⟨htaken, hkept⟩ := setBusy_busy s.busy (op.part opts) (op.way hash)
      obtain ⟨s₁, es₁, hcheck, hsteps⟩ := steps_check hQ hi hop (.inr hphase)
        (fun h => absurd (hphase.symm.trans h) nofun) (hk op hop)
        (fun s => s.setBusy (op.part opts) (op.way hash) true)
        (fun b => Function.update b (op.part opts) (Function.update (b (op.part opts)) (op.way hash) true))
        (fun _ => rfl) hkept (.inr ⟨hphase, rfl, htaken, Bool.eq_false_iff.mpr hbusy⟩)
      rw [hcheck] at hs
      cases hs
      exact .free hop hfree hsteps
  · cases hs

/-- The server is asked. -/
theorem Stepped.fetch (hS : Serves srv M P) (hi : Threads opts hash M P Q s)
    (hs : step opts srv hash s (.fetch i) = some (s', es)) :
    Stepped opts srv hash P Q s (.fetch i) s' es := by
  simp only [step, Option.bind_eq_bind, Option.bind_eq_some_iff] at hs
  obtain ⟨op, hop, hs⟩ := hs
  split at hs
  · rename_i hphase
    have hfree : op.held = none := Lookups.free hi hop (by rw [hphase]; exact nofun)
    cases hs
    refine .free hop hfree ?_
    refine steps_still hi hop hfree rfl rfl hS.lokup (fun _ _ h => .inl h)
      (fun _ => ⟨by rw [hphase]; rfl, rfl⟩) (fun {rep} hrep => ?_) (.fetched hphase rfl)
    exact hS.found (hi.calls hop) (Phase.fetched.inj hrep)
  · cases hs

/-- What the server has answered is kept, and the way is free again. -/
theorem Stepped.finish (hQ : Sharing Q) (hi : Threads opts hash M P Q s)
    (hs : step opts srv hash s (.finish i) = some (s', es)) :
    Stepped opts srv hash P Q s (.finish i) s' es := by
  simp only [step, Option.bind_eq_bind, Option.bind_eq_some_iff] at hs
  obtain ⟨op, hop, hs⟩ := hs
  split at hs
  · rename_i reply hphase
    have hfree : op.held = none := Lookups.free hi hop (by rw [hphase]; exact nofun)
    obtain ⟨s₁, es₁, hfin, hsteps⟩ := steps_finish hQ hi hop hphase
    rw [hfin] at hs
    cases hs
    exact .free hop hfree hsteps
  · cases hs

/-- A lease is given back that is not one of an insertion. -/
theorem Stepped.release (hi : Threads opts hash M P Q s)
    (hs : step opts srv hash s (.release i) = some (s', es)) :
    Stepped opts srv hash P Q s (.release i) s' es := by
  simp only [step, Option.bind_eq_bind, Option.bind_eq_some_iff] at hs
  obtain ⟨op, hop, r, hr, hs⟩ := hs
  split at hs
  · rename_i hmode
    obtain ⟨s₁, es₁, hgive, hsteps⟩ := steps_giveBack hi hop hr
      (fun t => t.releaseLease r.lease) fun {lease ext'} hl hm hone hrest => by
        obtain ⟨t', ds, hrel, hinv, hmoved, hclean⟩ := (hi.leases r.part).releaseLease hl
          (hm.trans hmode) hone hrest
        exact ⟨t', ds, hrel, hinv, hmoved, fun h => absurd (hmode.symm.trans h) nofun,
          fun _ => hclean⟩
    rw [hgive] at hs
    cases hs
    refine .moved hop (fun h => absurd h (not_outlived fun r' hr' => ?_)) hsteps
    rw [← Option.some.inj (hr.symm.trans hr'), hmode]
    exact nofun
  · cases hs

/-- The handle of an insertion is destroyed, and with it the lease it has. -/
theorem Stepped.destroy (hi : Threads opts hash M P Q s)
    (hs : step opts srv hash s (.destroy i) = some (s', es)) :
    Stepped opts srv hash P Q s (.destroy i) s' es := by
  simp only [step, Option.bind_eq_bind, Option.bind_eq_some_iff] at hs
  obtain ⟨op, hop, r, hr, hs⟩ := hs
  split at hs
  · cases hs
  · rename_i hmode
    obtain ⟨s₁, es₁, hgive, hsteps⟩ := steps_giveBack hi hop hr
      (fun t => (t.destroyBat r.lease).map fun x => (x.1, x.2.2))
      fun {lease ext'} hl hm hone hrest => by
        obtain ⟨t', last, ds, hrel, hinv, hmoved, hclean⟩ := (hi.leases r.part).destroyBat hl
          (hm.trans hmode) hone hrest
        exact ⟨t', ds, by rw [hrel]; rfl, hinv, hmoved,
          fun h => absurd (hmode.symm.trans h) nofun, fun _ => hclean⟩
    rw [hgive] at hs
    cases hs
    exact .moved hop (fun _ => rfl) hsteps
  · rename_i hmode
    obtain ⟨s₁, es₁, hgive, hsteps⟩ := steps_giveBack hi hop hr
      (fun t => (t.destroyBulk r.lease).map fun x => (x.1, x.2.2))
      fun {lease ext'} hl hm hone hrest => by
        obtain ⟨t', last, ds, hrel, hinv, hmoved, hclean⟩ := (hi.leases r.part).destroyBulk hl
          (hm.trans hmode) hone hrest
        exact ⟨t', ds, by rw [hrel]; rfl, hinv, hmoved, fun _ => hclean,
          fun h => absurd hmode h⟩
    rw [hgive] at hs
    cases hs
    exact .moved hop (fun _ => rfl) hsteps

/-- **Every step** of the threads goes as `Stepped` says. What later theorems have to look
at is this relation and not `step`: it has the guards of each label and one rule for the
sections that move a lookup, whose leases `Steps` describes. -/
theorem Stepped.of_step (hS : Serves srv M P) (hQ : Sharing Q) (hi : Threads opts hash M P Q s)
    {k : LookupLabel δ} (hk : Allowed opts M P Q s k)
    (hs : step opts srv hash s k = some (s', es)) : Stepped opts srv hash P Q s k s' es := by
  cases k with
  | call who parent name mode =>
    cases hs
    exact .called who parent name mode
  | check i now => exact .check hQ hi hk hs
  | take i now => exact .take hQ hi hk hs
  | fetch i => exact .fetch hS hi hs
  | finish i => exact .finish hQ hi hs
  | release i => exact .release hi hs
  | destroy i => exact .destroy hi hs
  | deletePartition k =>
    simp only [step] at hs
    split at hs
    · rename_i hidle
      cases hs
      exact .deleted hidle
    · cases hs
  | others d =>
    cases hs
    exact .others d

end Labels

/-! ### Threads and runs

Every step keeps the invariant, whatever the threads are doing: first over a step that is
already put down as one of the cases of `Stepped`, then over a run. -/

/-- A lookup of an idle partition has no lease. -/
theorem idle_free (hidle : s.idle opts k = true) (hop : s.ops[i]? = some op)
    (hk : op.part opts = k) : op.phase.finished = true ∧ op.held = none := by
  have h := List.all_eq_true.mp hidle op (List.mem_of_getElem? hop)
  exact (of_decide_eq_true h).resolve_left fun hne => hne hk

/-- **Step lemma**: every step keeps the invariant. A step is a call, a move of one
lookup, the deletion of a table nobody uses, or work of others at the server. -/
theorem Stepped.threads (hQ : Sharing Q) (hi : Threads opts hash M P Q s) {k : LookupLabel δ}
    {s' : Lookups δ} {es : List (LookupEvent δ)} (hk : Allowed opts M P Q s k)
    (h : Stepped opts srv hash P Q s k s' es) : Threads opts hash M P Q s' := by
  cases h with
  | called who parent name mode =>
    -- a call that begins holds nothing
    have href : ∀ k, references (s.ops ++ [Lookup.new who parent name mode]) k =
        references s.ops k := by
      intro k
      funext l
      rw [references, List.countP_append, List.countP_singleton]
      rfl
    refine ⟨fun {j o} hj => ?_, fun k => ?_, fun {j o r} hj hr => ?_, fun {j o} hj hin => ?_,
      fun {j j' o o'} hj hj' hin hin' => ?_, fun {j o rep} hj hf => ?_⟩
    · cases TransitionSystem.pool_push hj with
      | inl h => rw [h.2]; exact hk
      | inr h => exact hi.calls h
    · show Leases.Inv _ _ (references (s.ops ++ [_]) k)
      rw [href]
      exact hi.leases k
    · cases TransitionSystem.pool_push hj with
      | inl h => rw [h.2] at hr; cases hr
      | inr h => exact hi.held h hr
    · cases TransitionSystem.pool_push hj with
      | inl h => rw [h.2] at hin; cases hin
      | inr h => exact hi.inside h hin
    · cases TransitionSystem.pool_push hj with
      | inl h => rw [h.2] at hin; cases hin
      | inr h =>
        cases TransitionSystem.pool_push hj' with
        | inl h' => rw [h'.2] at hin'; cases hin'
        | inr h' => exact hi.alone h h' hin hin'
    · cases TransitionSystem.pool_push hj with
      | inl h => rw [h.2] at hf; cases hf
      | inr h => exact hi.fetched h hf
  | moved hop _ hsteps =>
    cases hsteps with
    | mk _ _ _ _ hmove => exact hmove.threads hQ hi hop
  -- only a table no call is in is deleted, so nobody is left with a lease of it
  | @deleted k hidle =>
    have hne : ∀ {j : Nat} {o : Lookup} {r : Ref}, s.ops[j]? = some o → o.held = some r →
        r.part ≠ k := by
      intro j o r hj hr hrk
      have hfree := (idle_free hidle hj ((hi.held hj hr).part.symm.trans hrk)).2
      rw [hfree] at hr
      cases hr
    -- the table starts again empty; the others are untouched
    refine ⟨hi.calls, fun k' => ?_, fun {j o r} hj hr => ?_, fun {j o} hj hin => ?_, hi.alone,
      hi.fetched⟩
    · by_cases hk' : k' = k
      · subst hk'
        have hzero : references s.ops k' = fun _ => 0 := by
          funext l
          refine List.countP_eq_zero.mpr fun o ho hl => ?_
          obtain ⟨j, hj⟩ := List.mem_iff_getElem?.mp ho
          obtain ⟨r, hr, hrk, -⟩ := holds_iff.mp hl
          exact hne hj hr hrk
        show Leases.Inv _ (Function.update s.parts k' _ k') (references s.ops k')
        rw [Function.update_self, hzero]
        exact Leases.Inv.empty ..
      · show Leases.Inv _ (Function.update s.parts k _ k') (references s.ops k')
        rw [Function.update_of_ne hk']
        exact hi.leases k'
    · have hh := hi.held hj hr
      refine ⟨hh.part, hh.mode, hh.returned, ?_⟩
      show ∃ lease, (Function.update s.parts k _ r.part).mem r.lease = some lease ∧ _
      rw [Function.update_of_ne (hne hj hr)]
      exact hh.lease
    · obtain ⟨hbusy, htable⟩ := hi.inside hj hin
      refine ⟨hbusy, ?_⟩
      show (Function.update s.parts k _ (o.part opts)).table o.name = none
      rw [Function.update_apply]
      split
      · rfl
      · exact htable
  -- what the rest of the system does only weakens what a lease promises
  | others d =>
    exact ⟨hi.calls, fun k => (hi.leases k).mono fun _ _ _ h => hk h, hi.held, hi.inside, hi.alone,
      fun hj hf => hk (hi.fetched hj hf)⟩

/-- **Run lemma**: the invariant holds in every run of allowed steps. It holds at the start,
where nobody has a lease. -/
theorem threads_of_run (hS : Serves srv M P) (hQ : Sharing Q)
    {C : Lookups δ → LookupLabel δ → Prop} (hC : ∀ s k, C s k → Allowed opts M P Q s k)
    {tr : List (LookupEvent δ)} (hr : (lookups opts srv hash).Run C tr s) :
    Threads opts hash M P Q s := by
  refine hr.invariant_state (fun s hs => ?_) fun s k s' es hi hc hs => ?_
  · obtain ⟨content, rfl⟩ := hs
    exact threads_start content
  · exact (Stepped.of_step hS hQ hi (hC s k hc) hs).threads hQ hi (hC s k hc)

end Lookups

end FilesystemCli

end DeltaFs
