import DeltaFs.Blocks

/-!
# What a reply says about the entries

An operation of a server touches entries: a put creates one, a collision and a
lookup see one. `Outcome` relates the touches of an operation to its reply: a
create that returned OK put its entry, one that returned `AlreadyExists` found
it there, a batch put the names its count says, in order, and a lookup read what
it returned.

Every other reply has to be accounted for, or a server that turned everything
down would do as well as one that works. A server has three reasons to turn an
operation down: a check of the lease, of the permission or of the partition
fails (`Refused`), a db it asks reports an error (`Faulted`), or the record it
finds cannot be decoded (`Corrupted`). Each is tied to a step of the operation
itself, to the clock or the db that very step met; `C` stands for the steps a
run may take, so what is proved for every `C` is true of the steps a run does
take (`TransitionSystem.Among`).
-/

namespace DeltaFs

open Linearization TransitionSystem

/-! ## Touches and replies

A touch is the effect of one put or read on one entry, as far as a map can see it. The names of
a call bound what it may touch: one name, or those of its array in order. -/

/-- The names of a batch. -/
def Call.names (c : Call) : List Slice :=
  match c.req with
  | .mkfls namearr _ n => decodeNames n.toNat namearr
  | _ => []

/-- The creates of a batch, one after the other, numbered from `ino`. -/
def creates (id : DirId) (stat : Stat) : UInt64 → List Slice → List Touch
  | _, [] => []
  | ino, x :: xs => .created id x { stat with inodeNo := ino } :: creates id stat (ino + 1) xs

/-- The entry a touch is about. -/
def Touch.key : Touch → DirId × Slice
  | .created id x _ => (id, x)
  | .collided id x => (id, x)
  | .looked id x _ => (id, x)

/-- The names a call is about. -/
def Call.Names (c : Call) (x : Slice) : Prop := c.name? = some x ∨ x ∈ c.names

/-- A call about one name is about no other. -/
theorem Call.Names.eq_of_name {c : Call} {name x : Slice} (hname : c.name? = some name)
    (hx : c.Names x) : x = name := by
  rcases hx with hx | hx
  · exact Option.some.inj (hx.symm.trans hname)
  · rw [Call.names] at hx
    split at hx
    · rename_i hreq
      rw [Call.name?, hreq] at hname
      cases hname
    · cases hx

namespace Filesystem

/-! ## Why an operation is turned down

A reply with an error has a cause, and the cause is in a step the operation itself took: a check
that failed there, with the clock it read and the state it saw, or a call on a db that failed
there. Both are stated about steps `C` of the run, so that nothing is excused by what happened
to another operation. -/

/-- Operation `i`, whose call is `c`, takes a section in state `s`, from where
it has got to as `op`, and meets the environment `e`. -/
structure Took (C : State → Label → Prop) (i : Nat) (c : Call) (s : State) (op : Op) (e : Env) :
    Prop where
  allowed : C s (.advance i e)
  here : s.ops[i]? = some op
  call : op.call = c

section

variable (fs : Filesystem) (C : State → Label → Prop) (i : Nat) (c : Call)

/-- **A check fails**: that of the lease or of the permission, with the clock the
operation read when it made them, or that of the partition, which depends on the
call and the server alone. -/
inductive Refused : Status → Prop where
  /-- no valid lease, or no permission -/
  | check {s : State} {op : Op} {e : Env} {st : Status} : Took C i c s op e → op.pc = .acquired →
      fs.refusal c e.ts = some st → Refused st
  /-- the name is in another partition -/
  | partition : fs.isPartitionOk c (fs.index c.dirId) = false →
      Refused (.err .accessDenied (str "Wrong dir partition"))

/-- **A db fails** in a read or the put of the operation. -/
inductive Faulted : Status → Prop where
  /-- one of the dbs that are asked -/
  | read {s : State} {op : Op} {e : Env} {k : Nat} {msg : Slice} : Took C i c s op e →
      op.pc = .running ∨ op.pc = .reading → k < (fs.dbs s).length → e.faults k = some msg →
      Faulted (.err .ioError msg)
  /-- the db that is written -/
  | put {s : State} {op : Op} {e : Env} {name rest msg : Slice} : Took C i c s op e →
      op.pc = .putting name rest → e.putFault = some msg → Faulted (.err .ioError msg)

/-- **The record is damaged**: the first one the dbs held under the name, when
the operation read it, cannot be decoded. -/
def Corrupted (name : Slice) : Prop :=
  ∃ s op e value, Took C i c s op e ∧ (op.pc = .running ∨ op.pc = .reading) ∧
    firstMatch (fs.dbs s) (entryKey c.dirId name) = some value ∧ Stat.decodeFrom value = none

/-! ## Outcomes

For each kind of call, what it has touched when it returns a given status. Each error code
allows only its own explanation: `AlreadyExists` a collision, `NotFound` a lookup that saw
nothing, `Corruption` a damaged record of that name, and any other code a check or a db call of
this operation that has failed. -/

/-- What a single create that replied `r` has touched. -/
def createOutcome (name : Slice) (r : Reply) (es : List Touch) : Prop :=
  match r.status with
  | .ok => es = [.created c.dirId name r.stat]
  | .err .alreadyExists x => x = name ∧ es = [.collided c.dirId name]
  | .err .corruption _ => es = [] ∧ fs.Corrupted C i c name
  | .err code msg => es = [] ∧ (fs.Refused C i c (.err code msg) ∨ fs.Faulted C i c (.err code msg))

/-- What a batch that replied `r` has touched, `ino` being its first number. A
batch that is refused by a check has not begun, and its count is the one it was
called with; every other one has put as many names as its count says, and the
name after these is the one that stopped it. -/
def batchOutcome (ino : UInt64) (r : Reply) (es : List Touch) : Prop :=
  match r.status with
  | .ok => r.n.toNat = c.names.length ∧ es = creates c.dirId r.stat ino c.names
  | .err .alreadyExists x => c.names[r.n.toNat]? = some x ∧
      es = creates c.dirId r.stat ino (c.names.take r.n.toNat) ++ [.collided c.dirId x]
  | .err .corruption _ => ∃ x, c.names[r.n.toNat]? = some x ∧ fs.Corrupted C i c x ∧
      es = creates c.dirId r.stat ino (c.names.take r.n.toNat)
  | .err code msg => (es = [] ∧ fs.Refused C i c (.err code msg)) ∨
      (r.n.toNat < c.names.length ∧ fs.Faulted C i c (.err code msg) ∧
        es = creates c.dirId r.stat ino (c.names.take r.n.toNat))

/-- What an `Lstat` that replied `r` has touched. -/
def lstatOutcome (name : Slice) (r : Reply) (es : List Touch) : Prop :=
  match r.status with
  | .ok => es = [.looked c.dirId name (some r.stat)]
  | .err .notFound _ => es = [.looked c.dirId name none]
  | .err .corruption _ => es = [.looked c.dirId name none] ∧ fs.Corrupted C i c name
  | .err code msg => es = [] ∧ (fs.Refused C i c (.err code msg) ∨ fs.Faulted C i c (.err code msg))

/-- What a `Lokup` that replied `r` has touched. -/
def lokupOutcome (name : Slice) (r : Reply) (es : List Touch) : Prop :=
  match r.status with
  | .ok => ∃ st : Stat, es = [.looked c.dirId name (some st)] ∧ isDir st.fileMode = true ∧
      r.look = some (LookupStat.copyFrom st (-1))
  | .err .dirExpected _ =>
    ∃ st : Stat, es = [.looked c.dirId name (some st)] ∧ isDir st.fileMode = false
  | .err .notFound _ => es = [.looked c.dirId name none]
  | .err .corruption _ => es = [.looked c.dirId name none] ∧ fs.Corrupted C i c name
  | .err code msg => es = [] ∧ (fs.Refused C i c (.err code msg) ∨ fs.Faulted C i c (.err code msg))

/-- What operation `i` has touched when it replied `r`; `ino` is the first number
of a batch. -/
def Outcome (ino : UInt64) (r : Reply) (es : List Touch) : Prop :=
  match c.req with
  | .bukin _ => es = []
  | .mkfls _ _ _ => fs.batchOutcome C i c ino r es
  | .mkfle name _ => fs.createOutcome C i c name r es
  | .mkdir name _ => fs.createOutcome C i c name r es
  | .lokup name => fs.lokupOutcome C i c name r es
  | .lstat name => fs.lstatOutcome C i c name r es

end

/-- **What operation `i` may have touched**, given its reply. A pending batch may
be in the middle of its names; any other pending operation has touched nothing,
or what its reply will explain. -/
def explains (fs : Filesystem) (C : State → Label → Prop) (i : Nat) (c : Call) :
    Option Reply → List Touch → Prop
  | some r, es => ∃ ino, fs.Outcome C i c ino r es
  | none, es => ∃ ino, (∃ stat m, es = creates c.dirId stat ino (c.names.take m)) ∨
      ∃ r, fs.Outcome C i c ino r es

end Filesystem

/-! ## Batches

What a batch has touched is a beginning of its creates, and grows by one with each put. The
number in the template stat changes with every name, and so these lemmas say that the creates do
not depend on it. -/

/-- A batch that goes on. -/
theorem creates_append (id : DirId) (stat : Stat) (ino : UInt64) (xs ys : List Slice) :
    creates id stat ino (xs ++ ys) =
      creates id stat ino xs ++ creates id stat (ino + UInt64.ofNat xs.length) ys := by
  induction xs generalizing ino with
  | nil => simp [creates]
  | cons x xs ih =>
    have hino : ino + 1 + UInt64.ofNat xs.length = ino + UInt64.ofNat (x :: xs).length := by
      rw [List.length_cons, UInt64.ofNat_add, UInt64.add_assoc, UInt64.add_comm 1]
      rfl
    rw [List.cons_append, creates, creates, ih, hino, List.cons_append]

theorem creates_take_succ (id : DirId) (stat : Stat) (ino : UInt64) {xs : List Slice} {m : Nat}
    {x : Slice} (hx : xs[m]? = some x) :
    creates id stat ino (xs.take (m + 1)) =
      creates id stat ino (xs.take m) ++
        [.created id x { stat with inodeNo := ino + UInt64.ofNat m }] := by
  have hm : m < xs.length := (List.getElem?_eq_some_iff.mp hx).1
  rw [List.take_add_one, hx, Option.toList_some, creates_append, List.length_take,
    Nat.min_eq_left (Nat.le_of_lt hm)]
  rfl

/-- The number in the template of a batch does not matter. -/
theorem creates_setInodeNo (id : DirId) (stat : Stat) (i ino : UInt64) (xs : List Slice) :
    creates id { stat with inodeNo := i } ino xs = creates id stat ino xs := by
  induction xs generalizing ino with
  | nil => rfl
  | cons x xs ih => rw [creates, creates, ih]

/-- The creates of a batch are in its directory, under its names. -/
theorem mem_creates {id : DirId} {stat : Stat} {ino : UInt64} {xs : List Slice} {t : Touch}
    (h : t ∈ creates id stat ino xs) : ∃ x st, x ∈ xs ∧ t = .created id x st := by
  induction xs generalizing ino with
  | nil => cases h
  | cons y xs ih =>
    rcases List.mem_cons.mp h with rfl | h
    · exact ⟨y, _, List.mem_cons_self .., rfl⟩
    · obtain ⟨x, st, hx, ht⟩ := ih h
      exact ⟨x, st, List.mem_cons_of_mem _ hx, ht⟩

theorem exists_mem_creates (id : DirId) (stat : Stat) {ino : UInt64} {xs : List Slice} {x : Slice}
    (h : x ∈ xs) : ∃ st, .created id x st ∈ creates id stat ino xs := by
  induction xs generalizing ino with
  | nil => cases h
  | cons y xs ih =>
    rcases List.mem_cons.mp h with rfl | h
    · exact ⟨_, List.mem_cons_self ..⟩
    · obtain ⟨st, hst⟩ := ih h
      exact ⟨st, List.mem_cons_of_mem _ hst⟩

namespace Filesystem

variable {fs : Filesystem} {C : State → Label → Prop} {i : Nat} {c : Call} {st : Status}
  {r : Reply} {ino : UInt64} {es : List Touch} {name : Slice}

/-- A refusal is one of the lease or of an access. -/
theorem refusal_code {ts : UInt64} (h : fs.refusal c ts = some st) :
    ∃ msg, st = .err .assertionFailed msg ∨ st = .err .accessDenied msg := by
  rw [refusal] at h
  split at h
  · exact ⟨_, .inl (Option.some.inj h).symm⟩
  split at h
  · split at h
    · cases h
    · exact ⟨_, .inr (Option.some.inj h).symm⟩
  · split at h
    · cases h
    · exact ⟨_, .inr (Option.some.inj h).symm⟩

theorem Refused.code (h : fs.Refused C i c st) :
    ∃ msg, st = .err .assertionFailed msg ∨ st = .err .accessDenied msg := by
  cases h with
  | check _ _ h => exact refusal_code h
  | partition h => exact ⟨_, .inr rfl⟩

theorem Faulted.code (h : fs.Faulted C i c st) : ∃ msg, st = .err .ioError msg := by
  cases h with
  | read => exact ⟨_, rfl⟩
  | put => exact ⟨_, rfl⟩

/-! ## What an outcome touches

The other direction, used by all that reads the log: from what an operation has replied to what
is in the log, and from an entry in the log to who made it and in which directory. -/

theorem createOutcome.key (h : fs.createOutcome C i c name r es) {t : Touch} (ht : t ∈ es) :
    t.key = (c.dirId, name) := by
  rw [createOutcome] at h
  split at h
  · rw [h] at ht
    rw [List.mem_singleton.mp ht]
    rfl
  · rw [h.2] at ht
    rw [List.mem_singleton.mp ht]
    rfl
  · rw [h.1] at ht
    cases ht
  · rw [h.1] at ht
    cases ht

theorem lstatOutcome.looked (h : fs.lstatOutcome C i c name r es) {t : Touch} (ht : t ∈ es) :
    ∃ v, t = .looked c.dirId name v := by
  rw [lstatOutcome] at h
  split at h
  · exact ⟨_, List.mem_singleton.mp (h ▸ ht)⟩
  · exact ⟨_, List.mem_singleton.mp (h ▸ ht)⟩
  · exact ⟨_, List.mem_singleton.mp (h.1 ▸ ht)⟩
  · rw [h.1] at ht
    cases ht

theorem lokupOutcome.looked (h : fs.lokupOutcome C i c name r es) {t : Touch} (ht : t ∈ es) :
    ∃ v, t = .looked c.dirId name v := by
  rw [lokupOutcome] at h
  split at h
  · obtain ⟨st, h, -⟩ := h
    exact ⟨_, List.mem_singleton.mp (h ▸ ht)⟩
  · obtain ⟨st, h, -⟩ := h
    exact ⟨_, List.mem_singleton.mp (h ▸ ht)⟩
  · exact ⟨_, List.mem_singleton.mp (h ▸ ht)⟩
  · exact ⟨_, List.mem_singleton.mp (h.1 ▸ ht)⟩
  · rw [h.1] at ht
    cases ht

/-- A batch touches its names. -/
theorem batchOutcome.key (h : fs.batchOutcome C i c ino r es) {t : Touch} (ht : t ∈ es) :
    ∃ x ∈ c.names, t.key = (c.dirId, x) := by
  have hall : ∀ {m : Nat}, t ∈ creates c.dirId r.stat ino (c.names.take m) →
      ∃ x ∈ c.names, t.key = (c.dirId, x) := by
    intro m ht
    obtain ⟨x, st, hx, rfl⟩ := mem_creates ht
    exact ⟨x, List.mem_of_mem_take hx, rfl⟩
  rw [batchOutcome] at h
  split at h
  · rw [h.2, ← List.take_length (l := c.names)] at ht
    exact hall ht
  · rename_i x _
    rw [h.2] at ht
    rcases List.mem_append.mp ht with ht | ht
    · exact hall ht
    · rw [List.mem_singleton.mp ht]
      exact ⟨x, List.mem_of_getElem? h.1, rfl⟩
  · obtain ⟨x, -, -, h⟩ := h
    rw [h] at ht
    exact hall ht
  · rcases h with ⟨h, -⟩ | ⟨-, -, h⟩
    · rw [h] at ht
      cases ht
    · rw [h] at ht
      exact hall ht

/-- **An operation touches entries of its directory, under its names.** It follows from
the outcome alone, whatever the operation has met on its way. -/
theorem Outcome.key (h : fs.Outcome C i c ino r es) {t : Touch} (ht : t ∈ es) :
    ∃ x, c.Names x ∧ t.key = (c.dirId, x) := by
  rw [Outcome] at h
  split at h
  · rw [h] at ht
    cases ht
  · obtain ⟨x, hx, hkey⟩ := h.key ht
    exact ⟨x, .inr hx, hkey⟩
  · rename_i hreq
    exact ⟨_, .inl (by rw [Call.name?, hreq]), h.key ht⟩
  · rename_i hreq
    exact ⟨_, .inl (by rw [Call.name?, hreq]), h.key ht⟩
  · rename_i hreq
    obtain ⟨v, rfl⟩ := h.looked ht
    exact ⟨_, .inl (by rw [Call.name?, hreq]), rfl⟩
  · rename_i hreq
    obtain ⟨v, rfl⟩ := h.looked ht
    exact ⟨_, .inl (by rw [Call.name?, hreq]), rfl⟩

/-- **What a create that failed has created** is among the first names of a batch,
as many as its count says. -/
theorem Outcome.created (h : fs.Outcome C i c ino r es) {id : DirId} {x : Slice} {st : Stat}
    (hm : .created id x st ∈ es) (hr : r.status.isOk = false) :
    (∃ namearr mode n, c.req = .mkfls namearr mode n) ∧
      .created id x st ∈ creates c.dirId r.stat ino (c.names.take r.n.toNat) := by
  have hone : ∀ y, ¬ fs.createOutcome C i c y r es := by
    intro y h
    rw [createOutcome] at h
    split at h
    · rename_i heq
      rw [heq] at hr
      cases hr
    · rw [h.2] at hm
      cases List.mem_singleton.mp hm
    · rw [h.1] at hm
      cases hm
    · rw [h.1] at hm
      cases hm
  rw [Outcome] at h
  split at h
  · rw [h] at hm
    cases hm
  · rename_i hreq
    refine ⟨⟨_, _, _, hreq⟩, ?_⟩
    rw [batchOutcome] at h
    split at h
    · rename_i heq
      rw [heq] at hr
      cases hr
    · rw [h.2] at hm
      rcases List.mem_append.mp hm with hm | hm
      · exact hm
      · cases List.mem_singleton.mp hm
    · obtain ⟨y, -, -, h⟩ := h
      rwa [h] at hm
    · rcases h with ⟨h, -⟩ | ⟨-, -, h⟩
      · rw [h] at hm
        cases hm
      · rwa [h] at hm
  · exact absurd h (hone _)
  · exact absurd h (hone _)
  · obtain ⟨v, hv⟩ := h.looked hm
    cases hv
  · obtain ⟨v, hv⟩ := h.looked hm
    cases hv

/-- **A create that returned OK** has created all its names. For a batch these are the names
of its array, in order. -/
theorem Outcome.ok_created (h : fs.Outcome C i c ino r es) (hr : r.status = .ok)
    (hlook : c.isLookup = false) {x : Slice} (hx : c.Names x) :
    ∃ st, .created c.dirId x st ∈ es := by
  obtain ⟨who, parent, req⟩ := c
  cases req with
  | bukin d =>
    rcases hx with hx | hx
    · cases hx
    · cases hx
  | mkfls namearr mode n =>
    rcases hx with hx | hx
    · cases hx
    · simp only [Outcome, batchOutcome, hr] at h
      rw [h.2]
      exact exists_mem_creates _ _ hx
  | mkfle y mode =>
    simp only [Outcome, createOutcome, hr] at h
    rcases hx with hx | hx
    · cases hx
      exact ⟨_, h ▸ List.mem_singleton_self _⟩
    · cases hx
  | mkdir y mode =>
    simp only [Outcome, createOutcome, hr] at h
    rcases hx with hx | hx
    · cases hx
      exact ⟨_, h ▸ List.mem_singleton_self _⟩
    · cases hx
  | lokup y => cases hlook
  | lstat y => cases hlook

/-- **An `AccessDenied` is always a check that failed**, of a call about one
name. -/
theorem Outcome.accessDenied (h : fs.Outcome C i c ino r es) (hname : c.name? = some name)
    {msg : Slice} (hst : r.status = .err .accessDenied msg) : fs.Refused C i c r.status := by
  have hor : fs.Refused C i c (.err .accessDenied msg) ∨ fs.Faulted C i c (.err .accessDenied msg) := by
    obtain ⟨who, parent, req⟩ := c
    cases req with
    | bukin d => cases hname
    | mkfls namearr mode n => cases hname
    | mkfle y mode =>
      simp only [Outcome, createOutcome, hst] at h
      exact h.2
    | mkdir y mode =>
      simp only [Outcome, createOutcome, hst] at h
      exact h.2
    | lokup y =>
      simp only [Outcome, lokupOutcome, hst] at h
      exact h.2
    | lstat y =>
      simp only [Outcome, lstatOutcome, hst] at h
      exact h.2
  rw [hst]
  rcases hor with h | h
  · exact h
  · obtain ⟨m, hm⟩ := h.code
    cases hm

end Filesystem

end DeltaFs
