import DeltaFs.Transition
import DeltaFs.Types
import Mathlib.Logic.Function.Basic

/-!
# Inserting into and committing a shared context

`BatchInsert`, `BatchCommit`, `BulkInsert` and `BulkCommit` run one protocol: a
context with a commit status and a background status, and for each server a
buffer with a lock of its own. An insert checks the context, drops its lock,
and writes into the buffer of the server selected for the name; a commit claims
the context, drops its lock, and flushes the buffers one after the other.

The buffer is a `Sink`: what one section under its lock does with a name, with
the outcomes `E` the environment chooses and the requests `γ` it sends to its
server. `Sink.Laws` says what a buffer must guarantee; from it, an acknowledged
name reaches its server unless an insert feeds a buffer the commit has passed.
-/

namespace DeltaFs

open TransitionSystem

/-! ## A context and its calls

The two kinds of contexts differ in what a buffer is and in the text of one error, which are in
`Sink`; all else is the same code. A call is where it stands between two sections of the
mutexes, with what it has found out so far. -/

/-- `commit_status`: 0, 1 or 2. -/
inductive CommitStatus where
  | notCommitted | beingCommitted | committed
  deriving DecidableEq

/-- One server's buffer: `Mkfls1` on a `WriBuf`, `Bukin1` on a `BulkIn`. -/
structure Sink (β E γ : Type) where
  /-- the text of the error of a second concurrent commit -/
  beingCommittedMsg : Slice
  /-- the section under the buffer's lock, given the name and `force_flush`:
  its status, the buffer after, and the requests sent with their statuses;
  `none` when the code would crash -/
  write : Slice → Bool → E → β → Option (Status × β × List (γ × Status))

/-- The servers of the context's directory. -/
structure Servers where
  /-- `srvs_` -/
  srvs : Nat
  /-- `dir->giga->SelectServer(name)` -/
  select : Slice → Nat
  select_lt : ∀ name, select name < srvs

/-- Where an insert stands. -/
inductive InsertPc where
  | entered
  /-- past the check, with the server selected -/
  | selected : Nat → InsertPc
  /-- the buffer's section is done -/
  | written : Status → InsertPc
  | returned : Status → InsertPc
  deriving DecidableEq

/-- Where a commit stands. -/
inductive CommitPc where
  | entered
  /-- about to flush the buffer of a server -/
  | flushing : Nat → CommitPc
  /-- out of the loop -/
  | flushed : Status → CommitPc
  | returned : Status → CommitPc
  deriving DecidableEq

/-- A call on a handle that shares the context. -/
inductive ContextOp where
  | insert : Slice → InsertPc → ContextOp
  | commit : CommitPc → ContextOp
  deriving DecidableEq

/-- `BatchedCreates`, `BulkInserts`, with the calls made on it. -/
structure Context (β : Type) where
  commitStatus : CommitStatus
  bgStatus : Status
  bufs : Nat → β
  ops : List ContextOp

/-- What happens next: a call arrives, or one moves on. -/
inductive ContextLabel (E : Type) where
  | insert : Slice → ContextLabel E
  | commit : ContextLabel E
  | advance : Nat → E → ContextLabel E

/-- A request sent to a server. -/
structure Sent (γ : Type) where
  srv : Nat
  req : γ
  status : Status

namespace ContextOp

/-- The call has returned. -/
def finished : ContextOp → Bool
  | insert _ (.returned _) => true
  | commit (.returned _) => true
  | _ => false

/-- The call holds the context's commit. -/
def flushes : ContextOp → Bool
  | commit (.flushing _) => true
  | commit (.flushed _) => true
  | _ => false

/-- The call is a commit that has flushed the buffer of server `i`, with no
failure so far. -/
def past (i : Nat) : ContextOp → Bool
  | commit (.flushing j) => i < j
  | commit (.flushed st) => st.isOk
  | _ => false

/-- The call is an insert of `name` whose write succeeded. -/
def acknowledged (name : Slice) : ContextOp → Prop
  | insert x (.written st) => x = name ∧ st = .ok
  | insert x (.returned st) => x = name ∧ st = .ok
  | _ => False

theorem flushes_of_past {op : ContextOp} {i : Nat} (h : op.past i = true) : op.flushes = true := by
  rcases op with ⟨x, pc⟩ | pc
  · cases h
  · cases pc <;> first | rfl | cases h

end ContextOp

variable {β E γ : Type} (sv : Servers) (snk : Sink β E γ)

namespace Context

/-! ## The sections

What `Insert` and `Commit` do from one unlocking to the next. `none` stands for a section that
cannot be taken: the call has returned, or the code would crash in the buffer. -/

/-- `if (!s.ok() && bg_status.ok()) bg_status = s;` -/
def setBg (s : Context β) (st : Status) : Context β :=
  if !st.isOk && s.bgStatus.isOk then { s with bgStatus := st } else s

/-- Call `k` moves. -/
def put (s : Context β) (k : Nat) (op : ContextOp) : Context β := { s with ops := s.ops.set k op }

/-- The sections of `BatchInsert`, `BulkInsert`. -/
def insertStep (s : Context β) (k : Nat) (name : Slice) (e : E) :
    InsertPc → Option (Context β × List (Sent γ))
  | .entered =>
    if s.commitStatus ≠ .notCommitted then
      some (s.put k (.insert name (.returned (.err .assertionFailed (str "Already committed")))), [])
    else if !s.bgStatus.isOk then some (s.put k (.insert name (.returned s.bgStatus)), [])
    else some (s.put k (.insert name (.selected (sv.select name))), [])
  | .selected i =>
    match snk.write name false e (s.bufs i) with
    | none => none
    | some (st, b, reqs) =>
      some ({ s with bufs := Function.update s.bufs i b }.put k (.insert name (.written st)),
        reqs.map fun r => ⟨i, r.1, r.2⟩)
  | .written st => some ((s.setBg st).put k (.insert name (.returned st)), [])
  | .returned _ => none

/-- The sections of `BatchCommit`, `BulkCommit`. -/
def commitStep (s : Context β) (k : Nat) (e : E) : CommitPc → Option (Context β × List (Sent γ))
  | .entered =>
    if s.commitStatus = .beingCommitted then
      some (s.put k (.commit (.returned (.err .assertionFailed snk.beingCommittedMsg))), [])
    else if s.commitStatus = .committed || !s.bgStatus.isOk then
      some (s.put k (.commit (.returned s.bgStatus)), [])
    else some ({ s with commitStatus := .beingCommitted }.put k (.commit (.flushing 0)), [])
  | .flushing i =>
    if i < sv.srvs then
      match snk.write [] true e (s.bufs i) with
      | none => none
      | some (st, b, reqs) =>
        some ({ s with bufs := Function.update s.bufs i b }.put k
            (.commit (if st.isOk then .flushing (i + 1) else .flushed st)),
          reqs.map fun r => ⟨i, r.1, r.2⟩)
    else some (s.put k (.commit (.flushed .ok)), [])
  | .flushed st =>
    some (({ s with commitStatus := .committed }.setBg st).put k (.commit (.returned st)), [])
  | .returned _ => none

/-- One step of some call. -/
def step (s : Context β) : ContextLabel E → Option (Context β × List (Sent γ))
  | .insert name => some ({ s with ops := s.ops ++ [.insert name .entered] }, [])
  | .commit => some ({ s with ops := s.ops ++ [.commit .entered] }, [])
  | .advance k e =>
    match s.ops[k]? with
    | none => none
    | some (.insert name pc) => s.insertStep sv snk k name e pc
    | some (.commit pc) => s.commitStep sv snk k e pc

/-- A commit has flushed the buffer of server `i` and has not failed. -/
def Passed (s : Context β) (i : Nat) : Prop :=
  (∃ op ∈ s.ops, op.past i = true) ∨
    s.commitStatus = .committed ∧ (s.bgStatus = .ok ∨ .commit (.returned .ok) ∈ s.ops)

instance (s : Context β) (i : Nat) : Decidable (s.Passed i) := instDecidableOr

/-- A commit has failed. -/
def Failed (s : Context β) : Prop :=
  (∃ st, st ≠ .ok ∧ .commit (.flushed st) ∈ s.ops) ∨
    s.commitStatus = .committed ∧ s.bgStatus ≠ .ok ∧ .commit (.returned .ok) ∉ s.ops

@[simp] theorem setBg_commitStatus (s : Context β) (st : Status) :
    (s.setBg st).commitStatus = s.commitStatus := by
  rw [setBg]
  split <;> rfl

@[simp] theorem setBg_bufs (s : Context β) (st : Status) : (s.setBg st).bufs = s.bufs := by
  rw [setBg]
  split <;> rfl

@[simp] theorem setBg_ops (s : Context β) (st : Status) : (s.setBg st).ops = s.ops := by
  rw [setBg]
  split <;> rfl

/-- The background status is lost for good by a failure. -/
theorem setBg_bgStatus_ok {s : Context β} {st : Status} :
    (s.setBg st).bgStatus = .ok ↔ s.bgStatus = .ok ∧ st = .ok := by
  rcases st with _ | ⟨c, m⟩ <;> rcases hb : s.bgStatus with _ | ⟨c', m'⟩ <;> simp [setBg, hb]

/-! ## What a step can do

An insert and a commit take several sections each. `Move` is what one of them does to the
operation, the context and the buffers, for any sink. -/

/-- The steps of the protocol, each with what its guards have established. -/
inductive Move (s : Context β) : ContextLabel E → Context β → List (Sent γ) → Prop where
  | insertArrives {name : Slice} :
      Move s (.insert name) { s with ops := s.ops ++ [.insert name .entered] } []
  | commitArrives : Move s .commit { s with ops := s.ops ++ [.commit .entered] } []
  | insertRefused {k : Nat} {e : E} {name : Slice} {st : Status} :
      s.ops[k]? = some (.insert name .entered) → st ≠ .ok →
      Move s (.advance k e) (s.put k (.insert name (.returned st))) []
  | insertSelects {k : Nat} {e : E} {name : Slice} :
      s.ops[k]? = some (.insert name .entered) → s.commitStatus = .notCommitted →
      Move s (.advance k e) (s.put k (.insert name (.selected (sv.select name)))) []
  | insertWrites {k i : Nat} {e : E} {name : Slice} {st : Status} {b : β}
      {reqs : List (γ × Status)} :
      s.ops[k]? = some (.insert name (.selected i)) →
      snk.write name false e (s.bufs i) = some (st, b, reqs) →
      Move s (.advance k e)
        ({ s with bufs := Function.update s.bufs i b }.put k (.insert name (.written st)))
        (reqs.map fun r => ⟨i, r.1, r.2⟩)
  | insertReturns {k : Nat} {e : E} {name : Slice} {st : Status} :
      s.ops[k]? = some (.insert name (.written st)) →
      Move s (.advance k e) ((s.setBg st).put k (.insert name (.returned st))) []
  | commitRefused {k : Nat} {e : E} {st : Status} :
      s.ops[k]? = some (.commit .entered) →
      (st = .ok → s.commitStatus = .committed ∧ s.bgStatus = .ok) →
      Move s (.advance k e) (s.put k (.commit (.returned st))) []
  | commitClaims {k : Nat} {e : E} :
      s.ops[k]? = some (.commit .entered) → s.commitStatus = .notCommitted →
      Move s (.advance k e)
        ({ s with commitStatus := .beingCommitted }.put k (.commit (.flushing 0))) []
  | commitFlushes {k i : Nat} {e : E} {st : Status} {b : β} {reqs : List (γ × Status)} :
      s.ops[k]? = some (.commit (.flushing i)) → i < sv.srvs →
      snk.write [] true e (s.bufs i) = some (st, b, reqs) →
      Move s (.advance k e)
        ({ s with bufs := Function.update s.bufs i b }.put k
          (.commit (if st.isOk then .flushing (i + 1) else .flushed st)))
        (reqs.map fun r => ⟨i, r.1, r.2⟩)
  | commitEnds {k i : Nat} {e : E} :
      s.ops[k]? = some (.commit (.flushing i)) → ¬ i < sv.srvs →
      Move s (.advance k e) (s.put k (.commit (.flushed .ok))) []
  | commitReturns {k : Nat} {e : E} {st : Status} :
      s.ops[k]? = some (.commit (.flushed st)) →
      Move s (.advance k e)
        (({ s with commitStatus := .committed }.setBg st).put k (.commit (.returned st))) []

variable {sv snk}

/-- **Every step is one of the moves.** Everything about runs of the protocol is shown for
`Move`. -/
theorem step_move {s s' : Context β} {l : ContextLabel E} {es : List (Sent γ)}
    (h : s.step sv snk l = some (s', es)) : Move sv snk s l s' es := by
  cases l with
  | insert name =>
    obtain ⟨rfl, rfl⟩ := Prod.mk.inj (Option.some.inj h)
    exact .insertArrives
  | commit =>
    obtain ⟨rfl, rfl⟩ := Prod.mk.inj (Option.some.inj h)
    exact .commitArrives
  | advance k e =>
    rw [step] at h
    rcases hop : s.ops[k]? with _ | op
    · rw [hop] at h
      cases h
    rw [hop] at h
    cases op with
    | insert name pc =>
      simp only [] at h
      cases pc with
      -- `Insert` looks at the two statuses before it picks a server
      | entered =>
        rw [insertStep] at h
        split at h
        · obtain ⟨rfl, rfl⟩ := Prod.mk.inj (Option.some.inj h)
          exact .insertRefused hop Status.noConfusion
        rename_i hnc
        split at h
        · rename_i hbg
          obtain ⟨rfl, rfl⟩ := Prod.mk.inj (Option.some.inj h)
          refine .insertRefused hop fun hok => ?_
          rw [hok] at hbg
          cases hbg
        · obtain ⟨rfl, rfl⟩ := Prod.mk.inj (Option.some.inj h)
          exact .insertSelects hop (not_not.mp hnc)
      | selected i =>
        rw [insertStep] at h
        rcases hw : snk.write name false e (s.bufs i) with _ | ⟨st, b, reqs⟩
        · rw [hw] at h
          cases h
        · rw [hw] at h
          obtain ⟨rfl, rfl⟩ := Prod.mk.inj (Option.some.inj h)
          exact .insertWrites hop hw
      | written st =>
        obtain ⟨rfl, rfl⟩ := Prod.mk.inj (Option.some.inj h)
        exact .insertReturns hop
      | returned st => cases h
    | commit pc =>
      simp only [] at h
      cases pc with
      -- `Commit` claims the batch unless one is on its way, one is done or an insert failed
      | entered =>
        rw [commitStep] at h
        split at h
        · obtain ⟨rfl, rfl⟩ := Prod.mk.inj (Option.some.inj h)
          exact .commitRefused hop fun hok => by cases hok
        rename_i hnb
        split at h
        · rename_i hcb
          obtain ⟨rfl, rfl⟩ := Prod.mk.inj (Option.some.inj h)
          refine .commitRefused hop fun hok => ?_
          simpa [hok] using hcb
        · rename_i hncb
          obtain ⟨rfl, rfl⟩ := Prod.mk.inj (Option.some.inj h)
          refine .commitClaims hop ?_
          rcases hst : s.commitStatus with _ | _ | _
          · rfl
          · exact absurd hst hnb
          · simp [hst] at hncb
      -- the loop over the servers, one buffer a section
      | flushing i =>
        rw [commitStep] at h
        split at h
        · rename_i hi
          rcases hw : snk.write [] true e (s.bufs i) with _ | ⟨st, b, reqs⟩
          · rw [hw] at h
            cases h
          · rw [hw] at h
            obtain ⟨rfl, rfl⟩ := Prod.mk.inj (Option.some.inj h)
            exact .commitFlushes hop hi hw
        · rename_i hi
          obtain ⟨rfl, rfl⟩ := Prod.mk.inj (Option.some.inj h)
          exact .commitEnds hop hi
      | flushed st =>
        obtain ⟨rfl, rfl⟩ := Prod.mk.inj (Option.some.inj h)
        exact .commitReturns hop
      | returned st => cases h

/-- An insert that checks the context. -/
theorem insert_entered {s s' : Context β} {k : Nat} {e : E} {name : Slice} {es : List (Sent γ)}
    (hk : s.ops[k]? = some (.insert name .entered))
    (h : s.step sv snk (.advance k e) = some (s', es)) :
    (∃ st, st ≠ .ok ∧ s' = s.put k (.insert name (.returned st)) ∧
      (s.commitStatus ≠ .notCommitted ∨ s.bgStatus ≠ .ok)) ∨
    (s.commitStatus = .notCommitted ∧ s.bgStatus = .ok ∧
      s' = s.put k (.insert name (.selected (sv.select name)))) := by
  simp only [step, hk, insertStep] at h
  split at h
  · rename_i hst
    cases h
    exact .inl ⟨_, Status.noConfusion, rfl, .inl hst⟩
  rename_i hst
  split at h
  · rename_i hbg
    cases h
    have hne : s.bgStatus ≠ .ok := fun hok => by
      rw [hok] at hbg
      cases hbg
    exact .inl ⟨_, hne, rfl, .inr hne⟩
  · rename_i hbg
    cases h
    exact .inr ⟨not_not.mp hst, by simpa [Status.isOk_iff] using hbg, rfl⟩

/-- A commit that checks the context. -/
theorem commit_entered {s s' : Context β} {k : Nat} {e : E} {es : List (Sent γ)}
    (hk : s.ops[k]? = some (.commit .entered)) (h : s.step sv snk (.advance k e) = some (s', es)) :
    (∃ st, s' = s.put k (.commit (.returned st)) ∧ (s.bgStatus ≠ .ok → st ≠ .ok) ∧
      (s.commitStatus ≠ .notCommitted ∨ s.bgStatus ≠ .ok)) ∨
    (s.commitStatus = .notCommitted ∧ s.bgStatus = .ok ∧
      s' = { s with commitStatus := .beingCommitted }.put k (.commit (.flushing 0))) := by
  simp only [step, hk, commitStep] at h
  split at h
  · rename_i hst
    cases h
    exact .inl ⟨_, rfl, fun _ => Status.noConfusion, .inl (by rw [hst]; decide)⟩
  rename_i hnot
  split at h
  · rename_i hor
    cases h
    refine .inl ⟨_, rfl, id, ?_⟩
    rcases Bool.or_eq_true_iff.mp hor with hst | hbg
    · exact .inl (by rw [of_decide_eq_true hst]; decide)
    · exact .inr fun hok => by
        rw [hok] at hbg
        cases hbg
  · rename_i hor
    cases h
    obtain ⟨hst, hbg⟩ := Bool.or_eq_false_iff.mp (Bool.eq_false_of_not_eq_true hor)
    refine .inr ⟨?_, by simpa [Status.isOk_iff] using hbg, rfl⟩
    rcases hcs : s.commitStatus with _ | _ | _
    · rfl
    · exact absurd hcs hnot
    · exact absurd hcs (of_decide_eq_false hst)

end Context

/-! ## Acknowledged names

A name whose insert has returned OK is in a buffer or has been sent, until a flush that fails.
`Admissible` leaves out inserts that come to a buffer after the commit has passed it. -/

/-- What a buffer guarantees. `pending` are the names it holds, `names` the
names a request carries. -/
structure Sink.Laws (snk : Sink β E γ) where
  pending : β → List Slice
  names : γ → List Slice
  /-- the invariant of a buffer -/
  Valid : β → Prop
  /-- the name may be written into the buffer -/
  Fits : Slice → β → Prop
  fits_nil : ∀ b, Fits [] b
  /-- the invariant is kept -/
  valid : ∀ {name : Slice} {force : Bool} {e : E} {b b' : β} {st : Status}
    {reqs : List (γ × Status)}, Valid b → Fits name b →
    snk.write name force e b = some (st, b', reqs) → Valid b'
  /-- a write that does not fail to flush loses no name -/
  keeps : ∀ {name : Slice} {force : Bool} {e : E} {b b' : β} {st : Status}
    {reqs : List (γ × Status)}, Valid b → Fits name b →
    snk.write name force e b = some (st, b', reqs) → force = false ∨ st = .ok →
    ∀ x ∈ pending b, x ∈ pending b' ∨ ∃ r ∈ reqs, r.2 = .ok ∧ x ∈ names r.1
  /-- a name written is pending -/
  adds : ∀ {name : Slice} {e : E} {b b' : β} {reqs : List (γ × Status)}, Valid b → Fits name b →
    snk.write name false e b = some (.ok, b', reqs) → name ≠ [] → name ∈ pending b'
  /-- a flush leaves nothing pending -/
  flushes : ∀ {e : E} {b b' : β} {reqs : List (γ × Status)}, Valid b →
    snk.write [] true e b = some (.ok, b', reqs) → pending b' = []

/-- The protocol, its buffers at first as `Init` says. -/
def contextSystem (Init : β → Prop) : TransitionSystem (Context β) (ContextLabel E) (Sent γ) where
  init s := s.commitStatus = .notCommitted ∧ s.bgStatus = .ok ∧ s.ops = [] ∧ ∀ i, Init (s.bufs i)
  step s l := s.step sv snk l

namespace Context

variable {snk} (L : snk.Laws)

/-- No call inserts the empty name, and no insert feeds a buffer that a commit
has passed, or a name into a buffer that it does not fit. -/
def Admissible (s : Context β) : ContextLabel E → Prop
  | .insert name => name ≠ []
  | .commit => True
  | .advance k _ =>
    match s.ops[k]? with
    | some (.insert name (.selected i)) => ¬ s.Passed i ∧ L.Fits name (s.bufs i)
    | _ => True

instance [∀ name b, Decidable (L.Fits name b)] (s : Context β) (l : ContextLabel E) :
    Decidable (s.Admissible L l) := by
  cases l with
  | insert name => exact inferInstanceAs (Decidable (name ≠ []))
  | commit => exact inferInstanceAs (Decidable True)
  | advance k e =>
    rw [Admissible]
    split
    · exact instDecidableAnd
    · exact instDecidableTrue

/-- A request that succeeded has carried the name to the server. -/
def Carried (tr : List (Sent γ)) (i : Nat) (name : Slice) : Prop :=
  ∃ x ∈ tr, x.srv = i ∧ x.status = .ok ∧ name ∈ L.names x.req

/-- All calls have returned, and one was a commit that returned OK. -/
def Done (s : Context β) : Prop :=
  (∀ op ∈ s.ops, op.finished = true) ∧ .commit (.returned .ok) ∈ s.ops

/-- **What a commit promises**: once it returned OK and all calls are over,
every acknowledged name has been carried to its server, and none is left in a
buffer. -/
def Delivered (tr : List (Sent γ)) (s : Context β) : Prop :=
  s.Done → ∀ name, (∃ op ∈ s.ops, op.acknowledged name) →
    Carried L tr (sv.select name) name ∧ ∀ i < sv.srvs, name ∉ L.pending (s.bufs i)

/-- The invariant behind it. -/
structure Inv (tr : List (Sent γ)) (s : Context β) : Prop where
  valid : ∀ i, L.Valid (s.bufs i)
  selected : ∀ name i, .insert name (.selected i) ∈ s.ops → i = sv.select name
  named : ∀ name pc, .insert name pc ∈ s.ops → name ≠ []
  /-- the context is claimed while a commit flushes -/
  claimed : ∀ op ∈ s.ops, op.flushes = true → s.commitStatus = .beingCommitted
  /-- one commit flushes at a time -/
  unique : ∀ (j k : Nat) (op op' : ContextOp), s.ops[j]? = some op → op.flushes = true →
    s.ops[k]? = some op' → op'.flushes = true → j = k
  committed : .commit (.returned .ok) ∈ s.ops → s.commitStatus = .committed
  /-- an acknowledged name is somewhere, unless a commit failed -/
  kept : ∀ name, (∃ op ∈ s.ops, op.acknowledged name) → s.Failed ∨
    Carried L tr (sv.select name) name ∨ name ∈ L.pending (s.bufs (sv.select name))
  /-- a passed buffer is empty -/
  clean : ∀ i < sv.srvs, s.Passed i → L.pending (s.bufs i) = []

theorem Inv.init {s : Context β} (hops : s.ops = []) (hst : s.commitStatus = .notCommitted)
    (hv : ∀ i, L.Valid (s.bufs i)) : Inv sv L [] s where
  valid := hv
  selected := by simp [hops]
  named := by simp [hops]
  claimed := by simp [hops]
  unique := by simp [hops]
  committed := by simp [hops]
  kept := by simp [hops]
  clean := by simp [hops, Passed, hst]

/-- The invariant gives the promise. -/
theorem Inv.delivered {tr : List (Sent γ)} {s : Context β} (h : Inv sv L tr s) :
    Delivered sv L tr s := by
  intro hdone name hack
  obtain ⟨hfin, hok⟩ := hdone
  have hpassed : ∀ i, s.Passed i := fun i => .inr ⟨h.committed hok, .inr hok⟩
  refine ⟨?_, fun i hi => ?_⟩
  · rcases h.kept name hack with hfail | hcar | hpend
    · rcases hfail with ⟨st, -, hmem⟩ | ⟨-, -, hno⟩
      · cases hfin _ hmem
      · exact absurd hok hno
    · exact hcar
    · rw [h.clean _ (sv.select_lt name) (hpassed _)] at hpend
      cases hpend
  · rw [h.clean i hi (hpassed i)]
    exact List.not_mem_nil

/-! ## The invariant holds in every run

There is one lemma for each kind of move, and they are put together in `Inv.step`. An insert
that writes a buffer is harmless as long as no commit has flushed that buffer, which is the
condition on the runs. A commit flushes one buffer after the other; when it has gone through all
of them without a failure, every name acknowledged by then is in some request. -/

section Frame

variable {s s' : Context β} {k : Nat} {name : Slice} {pc pc' : InsertPc}

/-- An insert that moves passes no buffer. -/
theorem Passed.of_insert (hops : s'.ops = s.ops.set k (.insert name pc'))
    (hcs : s'.commitStatus = s.commitStatus) (hbg : s'.bgStatus = .ok → s.bgStatus = .ok) {i : Nat}
    (h : s'.Passed i) : s.Passed i := by
  rcases h with ⟨op, hop, hpast⟩ | ⟨hc, hb⟩
  · rw [hops] at hop
    rcases List.mem_or_eq_of_mem_set hop with hop | rfl
    · exact .inl ⟨op, hop, hpast⟩
    · cases hpast
  · refine .inr ⟨hcs ▸ hc, hb.imp hbg fun hret => ?_⟩
    rw [hops] at hret
    rcases List.mem_or_eq_of_mem_set hret with hret | heq
    · exact hret
    · cases heq

/-- An insert that moves does not undo a failure. -/
theorem Failed.insert (hk : s.ops[k]? = some (.insert name pc))
    (hops : s'.ops = s.ops.set k (.insert name pc')) (hcs : s'.commitStatus = s.commitStatus)
    (hbg : s'.bgStatus = .ok → s.bgStatus = .ok) (h : s.Failed) : s'.Failed := by
  rcases h with ⟨st, hst, hmem⟩ | ⟨hc, hb, hno⟩
  · refine .inl ⟨st, hst, ?_⟩
    rw [hops]
    exact mem_pool_set hk hmem (by simp)
  · refine .inr ⟨hcs.trans hc, fun h => hb (hbg h), fun hret => ?_⟩
    rw [hops] at hret
    rcases List.mem_or_eq_of_mem_set hret with hret | heq
    · exact hno hret
    · cases heq

variable {sv} {L} {tr tr' : List (Sent γ)}

/-! ### Inserts

An insert never touches the statuses before it returns, so all it can spoil is a buffer. The
first lemma lists what is left to show of an insert that moves; the second has all of it for the
sections without a buffer. -/

/-- What an insert that moves leaves to show. -/
theorem Inv.insertMoves (h : Inv sv L tr s) (hk : s.ops[k]? = some (.insert name pc))
    (hops : s'.ops = s.ops.set k (.insert name pc')) (hcs : s'.commitStatus = s.commitStatus)
    (hsel : ∀ i, pc' = .selected i → i = sv.select name) (hvalid : ∀ i, L.Valid (s'.bufs i))
    (hkept : ∀ x, (∃ op ∈ s'.ops, op.acknowledged x) → s'.Failed ∨
      Carried L tr' (sv.select x) x ∨ x ∈ L.pending (s'.bufs (sv.select x)))
    (hclean : ∀ i < sv.srvs, s'.Passed i → L.pending (s'.bufs i) = []) : Inv sv L tr' s' where
  valid := hvalid
  selected x i hx := by
    rw [hops] at hx
    rcases List.mem_or_eq_of_mem_set hx with hx | heq
    · exact h.selected x i hx
    · cases heq
      exact hsel i rfl
  named x px hx := by
    rw [hops] at hx
    rcases List.mem_or_eq_of_mem_set hx with hx | heq
    · exact h.named x px hx
    · cases heq
      exact h.named name pc (List.mem_of_getElem? hk)
  claimed op hop hf := by
    rw [hops] at hop
    rcases List.mem_or_eq_of_mem_set hop with hop | rfl
    · exact hcs.trans (h.claimed op hop hf)
    · cases hf
  unique j j' op op' hj hf hj' hf' := by
    rw [hops] at hj hj'
    rcases pool_set hj with ⟨-, rfl⟩ | ⟨-, hj⟩
    · cases hf
    rcases pool_set hj' with ⟨-, rfl⟩ | ⟨-, hj'⟩
    · cases hf'
    exact h.unique j j' op op' hj hf hj' hf'
  committed hret := by
    rw [hops] at hret
    rcases List.mem_or_eq_of_mem_set hret with hret | heq
    · exact hcs.trans (h.committed hret)
    · cases heq
  kept := hkept
  clean := hclean

/-- An insert that moves without touching a buffer. -/
theorem Inv.insertMoves_quiet (h : Inv sv L tr s) (hk : s.ops[k]? = some (.insert name pc))
    (hops : s'.ops = s.ops.set k (.insert name pc')) (hcs : s'.commitStatus = s.commitStatus)
    (hbg : s'.bgStatus = .ok → s.bgStatus = .ok) (hbufs : s'.bufs = s.bufs)
    (hsel : ∀ i, pc' = .selected i → i = sv.select name)
    (hack : ∀ x, (ContextOp.insert name pc').acknowledged x →
      (ContextOp.insert name pc).acknowledged x) : Inv sv L tr s' := by
  refine h.insertMoves hk hops hcs hsel ?_ ?_ ?_
  · rw [hbufs]
    exact h.valid
  · rintro x ⟨op, hop, hx⟩
    have hold : ∃ op ∈ s.ops, op.acknowledged x := by
      rw [hops] at hop
      rcases List.mem_or_eq_of_mem_set hop with hop | rfl
      · exact ⟨op, hop, hx⟩
      · exact ⟨_, List.mem_of_getElem? hk, hack x hx⟩
    rw [hbufs]
    exact (h.kept x hold).imp_left (Failed.insert hk hops hcs hbg)
  · intro i hi hp
    rw [hbufs]
    exact h.clean i hi (hp.of_insert hops hcs hbg)

/-- A write loses no name of any buffer, unless it failed to flush. -/
theorem Carried.or_pending_update {i : Nat} {x : Slice} {force : Bool} {e : E} {st : Status} {b : β}
    {reqs : List (γ × Status)} {y : Slice} {j : Nat} (hv : L.Valid (s.bufs i))
    (hfits : L.Fits x (s.bufs i)) (hw : snk.write x force e (s.bufs i) = some (st, b, reqs))
    (hok : force = false ∨ st = .ok)
    (h : Carried L tr j y ∨ y ∈ L.pending (s.bufs j)) :
    Carried L (tr ++ reqs.map fun r => ⟨i, r.1, r.2⟩) j y ∨
      y ∈ L.pending (Function.update s.bufs i b j) := by
  rcases h with ⟨c, hc, hcar⟩ | hpend
  · exact .inl ⟨c, List.mem_append_left _ hc, hcar⟩
  · by_cases hj : j = i
    · subst hj
      rw [Function.update_self]
      rcases L.keeps hv hfits hw hok y hpend with hp | ⟨r, hr, hrok, hy⟩
      · exact .inr hp
      · refine .inl ⟨⟨j, r.1, r.2⟩, List.mem_append_right _ ?_, rfl, hrok, hy⟩
        exact List.mem_map.mpr ⟨r, hr, rfl⟩
    · rw [Function.update_of_ne hj]
      exact .inr hpend

/-- Every buffer stays valid under a write. -/
theorem valid_update {i : Nat} {x : Slice} {force : Bool} {e : E} {st : Status} {b : β}
    {reqs : List (γ × Status)} (hv : ∀ j, L.Valid (s.bufs j)) (hfits : L.Fits x (s.bufs i))
    (hw : snk.write x force e (s.bufs i) = some (st, b, reqs)) (j : Nat) :
    L.Valid (Function.update s.bufs i b j) := by
  by_cases hj : j = i
  · subst hj
    rw [Function.update_self]
    exact L.valid (hv j) hfits hw
  · rw [Function.update_of_ne hj]
    exact hv j

/-- An insert that writes into a buffer no commit has passed. -/
theorem Inv.insertWrites (h : Inv sv L tr s) {i : Nat} {e : E} {st : Status} {b : β}
    {reqs : List (γ × Status)} (hk : s.ops[k]? = some (.insert name (.selected i)))
    (hw : snk.write name false e (s.bufs i) = some (st, b, reqs)) (hnp : ¬ s.Passed i)
    (hfits : L.Fits name (s.bufs i)) :
    Inv sv L (tr ++ reqs.map fun r => ⟨i, r.1, r.2⟩)
      ({ s with bufs := Function.update s.bufs i b }.put k (.insert name (.written st))) := by
  have hmem := List.mem_of_getElem? hk
  refine h.insertMoves hk rfl rfl (fun j hj => by cases hj) (valid_update h.valid hfits hw) ?_ ?_
  · rintro x ⟨op, hop, hx⟩
    rcases List.mem_or_eq_of_mem_set hop with hop | rfl
    · rcases h.kept x ⟨op, hop, hx⟩ with hf | hin
      · exact .inl (hf.insert hk rfl rfl id)
      · exact .inr (Carried.or_pending_update (h.valid i) hfits hw (.inl rfl) hin)
    · -- the name just written
      obtain ⟨rfl, rfl⟩ := hx
      have hsel := h.selected name i hmem
      refine .inr (.inr ?_)
      rw [← hsel]
      show name ∈ L.pending (Function.update s.bufs i b i)
      rw [Function.update_self]
      exact L.adds (h.valid i) hfits hw (h.named name _ hmem)
  · intro j hj hp
    have hops : ({ s with bufs := Function.update s.bufs i b }.put k
        (.insert name (.written st))).ops = s.ops.set k (.insert name (.written st)) := rfl
    have hp' : s.Passed j := hp.of_insert hops rfl id
    have hji : j ≠ i := fun heq => hnp (heq ▸ hp')
    show L.pending (Function.update s.bufs i b j) = []
    rw [Function.update_of_ne hji]
    exact h.clean j hj hp'

/-- A call that arrives. -/
theorem Inv.arrives (h : Inv sv L tr s) {op : ContextOp} (hf : op.flushes = false)
    (hp : ∀ i, op.past i = false) (ha : ∀ x, ¬ op.acknowledged x)
    (hn : ∀ x px, op = .insert x px → x ≠ [] ∧ px = .entered) (hc : ∀ st, op ≠ .commit (.returned st)) :
    Inv sv L tr { s with ops := s.ops ++ [op] } where
  valid := h.valid
  selected x i hx := by
    rcases List.mem_append.mp hx with hx | hx
    · exact h.selected x i hx
    · cases (hn x _ (List.mem_singleton.mp hx).symm).2
  named x px hx := by
    rcases List.mem_append.mp hx with hx | hx
    · exact h.named x px hx
    · exact (hn x _ (List.mem_singleton.mp hx).symm).1
  claimed c hx hfl := by
    rcases List.mem_append.mp hx with hx | hx
    · exact h.claimed c hx hfl
    · obtain rfl := List.mem_singleton.mp hx
      rw [hf] at hfl
      cases hfl
  unique j k c c' hj hfl hk hfl' := by
    rcases pool_push hj with ⟨-, rfl⟩ | hj
    · rw [hf] at hfl
      cases hfl
    rcases pool_push hk with ⟨-, rfl⟩ | hk
    · rw [hf] at hfl'
      cases hfl'
    exact h.unique j k c c' hj hfl hk hfl'
  committed hret := by
    rcases List.mem_append.mp hret with hret | hret
    · exact h.committed hret
    · exact absurd (List.mem_singleton.mp hret).symm (hc _)
  kept x := by
    rintro ⟨c, hx, hack⟩
    rcases List.mem_append.mp hx with hx | hx
    · refine (h.kept x ⟨c, hx, hack⟩).imp_left fun hfail => ?_
      rcases hfail with ⟨st, hst, hmem⟩ | ⟨hcs, hb, hno⟩
      · exact .inl ⟨st, hst, List.mem_append_left _ hmem⟩
      · refine .inr ⟨hcs, hb, fun hret => ?_⟩
        rcases List.mem_append.mp hret with hret | hret
        · exact hno hret
        · exact hc _ (List.mem_singleton.mp hret).symm
    · obtain rfl := List.mem_singleton.mp hx
      exact absurd hack (ha x)
  clean i hi := by
    rintro (⟨c, hx, hpast⟩ | ⟨hcs, hb⟩)
    · rcases List.mem_append.mp hx with hx | hx
      · exact h.clean i hi (.inl ⟨c, hx, hpast⟩)
      · obtain rfl := List.mem_singleton.mp hx
        rw [hp i] at hpast
        cases hpast
    · refine h.clean i hi (.inr ⟨hcs, hb.imp_right fun hret => ?_⟩)
      rcases List.mem_append.mp hret with hret | hret
      · exact hret
      · exact absurd (List.mem_singleton.mp hret).symm (hc _)

variable {cpc cpc' : CommitPc}

/-! ### Commits

A commit is alone between the section that claims the context and the one that gives it up,
because the claim is checked and made under one lock. So the buffers it has passed are those
below one index, and they stay empty unless an insert that had its server already comes back to
one. -/

/-- What a commit that moves leaves to show. -/
theorem Inv.commitMoves (h : Inv sv L tr s) (hops : s'.ops = s.ops.set k (.commit cpc'))
    (hclaimed : ∀ op ∈ s'.ops, op.flushes = true → s'.commitStatus = .beingCommitted)
    (hunique : ∀ j op, s.ops[j]? = some op → op.flushes = true →
      (ContextOp.commit cpc').flushes = true → j = k)
    (hcommitted : .commit (.returned .ok) ∈ s'.ops → s'.commitStatus = .committed)
    (hvalid : ∀ i, L.Valid (s'.bufs i))
    (hkept : ∀ x, (∃ op ∈ s.ops, op.acknowledged x) → s'.Failed ∨
      Carried L tr' (sv.select x) x ∨ x ∈ L.pending (s'.bufs (sv.select x)))
    (hclean : ∀ i < sv.srvs, s'.Passed i → L.pending (s'.bufs i) = []) : Inv sv L tr' s' where
  valid := hvalid
  selected x i hx := by
    rw [hops] at hx
    rcases List.mem_or_eq_of_mem_set hx with hx | heq
    · exact h.selected x i hx
    · cases heq
  named x px hx := by
    rw [hops] at hx
    rcases List.mem_or_eq_of_mem_set hx with hx | heq
    · exact h.named x px hx
    · cases heq
  claimed := hclaimed
  unique j j' op op' hj hf hj' hf' := by
    rw [hops] at hj hj'
    rcases pool_set hj with ⟨hjk, rfl⟩ | ⟨-, hold⟩
    · rcases pool_set hj' with ⟨hjk', -⟩ | ⟨-, hold'⟩
      · exact hjk.trans hjk'.symm
      · exact hjk.trans (hunique j' op' hold' hf' hf).symm
    · rcases pool_set hj' with ⟨hjk', rfl⟩ | ⟨-, hold'⟩
      · exact (hunique j op hold hf hf').trans hjk'.symm
      · exact h.unique j j' op op' hold hf hold' hf'
  committed := hcommitted
  kept x := by
    rintro ⟨op, hop, hx⟩
    rw [hops] at hop
    rcases List.mem_or_eq_of_mem_set hop with hop | rfl
    · exact hkept x ⟨op, hop, hx⟩
    · cases hx
  clean := hclean

/-- A commit that is refused. -/
theorem Inv.commitRefused (h : Inv sv L tr s) {st : Status} (hk : s.ops[k]? = some (.commit .entered))
    (hst : st = .ok → s.commitStatus = .committed ∧ s.bgStatus = .ok) :
    Inv sv L tr (s.put k (.commit (.returned st))) := by
  refine h.commitMoves rfl ?_ (fun _ _ _ _ hf => by cases hf) ?_ h.valid ?_ ?_
  · intro op hop hf
    rcases List.mem_or_eq_of_mem_set hop with hop | rfl
    · exact h.claimed op hop hf
    · cases hf
  · intro hret
    rcases List.mem_or_eq_of_mem_set hret with hret | heq
    · exact h.committed hret
    · cases heq
      exact (hst rfl).1
  · intro x hx
    refine (h.kept x hx).imp_left fun hfail => ?_
    rcases hfail with ⟨st', hst', hmem⟩ | ⟨hcs, hb, hno⟩
    · exact .inl ⟨st', hst', mem_pool_set hk hmem (by simp)⟩
    · refine .inr ⟨hcs, hb, fun hret => ?_⟩
      rcases List.mem_or_eq_of_mem_set hret with hret | heq
      · exact hno hret
      · cases heq
        exact hb (hst rfl).2
  · rintro i hi (⟨op, hop, hpast⟩ | ⟨hcs, hb⟩)
    · rcases List.mem_or_eq_of_mem_set hop with hop | rfl
      · exact h.clean i hi (.inl ⟨op, hop, hpast⟩)
      · cases hpast
    · refine h.clean i hi (.inr ⟨hcs, ?_⟩)
      rcases hb with hb | hret
      · exact .inl hb
      · rcases List.mem_or_eq_of_mem_set hret with hret | heq
        · exact .inr hret
        · cases heq
          exact .inl (hst rfl).2

/-- A commit that claims the context: no other one flushes. -/
theorem Inv.commitClaims (h : Inv sv L tr s) (hst : s.commitStatus = .notCommitted) :
    Inv sv L tr ({ s with commitStatus := .beingCommitted }.put k (.commit (.flushing 0))) := by
  have hidle : ∀ op ∈ s.ops, op.flushes = true → False := by
    intro op hop hf
    have hbusy := h.claimed op hop hf
    rw [hst] at hbusy
    cases hbusy
  refine h.commitMoves rfl (fun _ _ _ => rfl) ?_ ?_ h.valid ?_ ?_
  · intro j op hj hf
    exact (hidle op (List.mem_of_getElem? hj) hf).elim
  · intro hret
    rcases List.mem_or_eq_of_mem_set hret with hret | heq
    · have hc := h.committed hret
      rw [hst] at hc
      cases hc
    · cases heq
  · intro x hx
    refine (h.kept x hx).imp_left fun hfail => ?_
    rcases hfail with ⟨st', hst', hmem⟩ | ⟨hcs, -, -⟩
    · exact (hidle _ hmem rfl).elim
    · rw [hst] at hcs
      cases hcs
  · rintro i hi (⟨op, hop, hpast⟩ | ⟨hcs, -⟩)
    · rcases List.mem_or_eq_of_mem_set hop with hop | rfl
      · exact h.clean i hi (.inl ⟨op, hop, hpast⟩)
      · cases hpast
    · cases hcs

/-- The commit that flushes is the only one. -/
theorem Inv.flushes_eq (h : Inv sv L tr s) (hk : s.ops[k]? = some (.commit cpc))
    (hf : (ContextOp.commit cpc).flushes = true) {op : ContextOp} (hop : op ∈ s.ops)
    (hf' : op.flushes = true) : op = .commit cpc := by
  obtain ⟨j, hj⟩ := List.mem_iff_getElem?.mp hop
  obtain rfl := h.unique j k _ _ hj hf' hk hf
  exact Option.some.inj (hj.symm.trans hk)

/-- While a commit flushes, nothing is committed, and no commit has failed. -/
theorem Inv.flushing_not_committed (h : Inv sv L tr s) {i : Nat}
    (hk : s.ops[k]? = some (.commit (.flushing i))) :
    s.commitStatus = .beingCommitted ∧ ¬ s.Failed := by
  have hbusy := h.claimed _ (List.mem_of_getElem? hk) rfl
  refine ⟨hbusy, ?_⟩
  rintro (⟨st, hst, hmem⟩ | ⟨hcs, -, -⟩)
  · cases h.flushes_eq hk rfl hmem rfl
  · rw [hbusy] at hcs
    cases hcs

/-- A commit that flushes the buffer of a server. -/
theorem Inv.commitFlushes (h : Inv sv L tr s) {i : Nat} {e : E} {st : Status} {b : β}
    {reqs : List (γ × Status)} (hk : s.ops[k]? = some (.commit (.flushing i)))
    (hw : snk.write [] true e (s.bufs i) = some (st, b, reqs)) :
    Inv sv L (tr ++ reqs.map fun r => ⟨i, r.1, r.2⟩)
      ({ s with bufs := Function.update s.bufs i b }.put k
        (.commit (if st.isOk then .flushing (i + 1) else .flushed st))) := by
  have hmem := List.mem_of_getElem? hk
  obtain ⟨hbusy, hnf⟩ := h.flushing_not_committed hk
  refine h.commitMoves rfl ?_ ?_ ?_ (valid_update h.valid (L.fits_nil _) hw) ?_ ?_
  · intro op hop hf
    exact hbusy
  · intro j op hj hf _
    exact h.unique j k _ _ hj hf hk rfl
  · intro hret
    rcases List.mem_or_eq_of_mem_set hret with hret | heq
    · exact h.committed hret
    · split at heq <;> cases heq
  · intro x hx
    by_cases hok : st = .ok
    · subst hok
      rcases h.kept x hx with hfail | hin
      · exact absurd hfail hnf
      · exact .inr (Carried.or_pending_update (h.valid i) (L.fits_nil _) hw (.inr rfl) hin)
    · -- the commit fails, and with it the promise
      have hnok : ¬ st.isOk = true := fun h => hok (Status.isOk_iff.mp h)
      refine .inl (.inl ⟨st, hok, ?_⟩)
      rw [if_neg hnok]
      exact List.mem_iff_getElem?.mpr ⟨k, pool_set_self hk⟩
  · rintro j hj (⟨op, hop, hpast⟩ | ⟨hcs, -⟩)
    · show L.pending (Function.update s.bufs i b j) = []
      rcases List.mem_or_eq_of_mem_set hop with hop | rfl
      · -- another commit that is past the buffer would be flushing too
        obtain rfl := h.flushes_eq hk rfl hop (ContextOp.flushes_of_past hpast)
        have hji : j < i := by simpa [ContextOp.past] using hpast
        rw [Function.update_of_ne hji.ne]
        exact h.clean j hj (.inl ⟨_, hop, hpast⟩)
      · rcases st with _ | ⟨c, m⟩
        · have hji : j < i + 1 := by simpa [ContextOp.past] using hpast
          rcases Nat.lt_succ_iff_lt_or_eq.mp hji with hlt | rfl
          · rw [Function.update_of_ne hlt.ne]
            refine h.clean j hj (.inl ⟨_, hmem, ?_⟩)
            simpa [ContextOp.past] using hlt
          · rw [Function.update_self]
            exact L.flushes (h.valid j) hw
        · cases hpast
    · change s.commitStatus = .committed at hcs
      rw [hbusy] at hcs
      cases hcs

/-- A commit that leaves the loop. -/
theorem Inv.commitEnds (h : Inv sv L tr s) {i : Nat} (hk : s.ops[k]? = some (.commit (.flushing i)))
    (hi : ¬ i < sv.srvs) : Inv sv L tr (s.put k (.commit (.flushed .ok))) := by
  have hmem := List.mem_of_getElem? hk
  obtain ⟨hbusy, hnf⟩ := h.flushing_not_committed hk
  refine h.commitMoves rfl (fun _ _ _ => hbusy) ?_ ?_ h.valid ?_ ?_
  · intro j op hj hf _
    exact h.unique j k _ _ hj hf hk rfl
  · intro hret
    rcases List.mem_or_eq_of_mem_set hret with hret | heq
    · exact h.committed hret
    · cases heq
  · intro x hx
    exact .inr ((h.kept x hx).resolve_left hnf)
  · intro j hj _
    refine h.clean j hj (.inl ⟨_, hmem, ?_⟩)
    have hji : j < i := by omega
    simpa [ContextOp.past] using hji

/-- A commit that returns. -/
theorem Inv.commitReturns (h : Inv sv L tr s) {st : Status}
    (hk : s.ops[k]? = some (.commit (.flushed st))) :
    Inv sv L tr (({ s with commitStatus := .committed }.setBg st).put k (.commit (.returned st))) := by
  have hmem := List.mem_of_getElem? hk
  have hbusy := h.claimed _ hmem rfl
  have hnoret : .commit (.returned .ok) ∉ s.ops := by
    intro hret
    have hc := h.committed hret
    rw [hbusy] at hc
    cases hc
  have hops : (({ s with commitStatus := .committed }.setBg st).put k (.commit (.returned st))).ops =
      s.ops.set k (.commit (.returned st)) := by simp [put]
  have hbufs : (({ s with commitStatus := .committed }.setBg st).put k
      (.commit (.returned st))).bufs = s.bufs := by simp [put]
  have hcs : (({ s with commitStatus := .committed }.setBg st).put k
      (.commit (.returned st))).commitStatus = .committed := by simp [put]
  -- there is one flushing commit at a time, and it is this one
  have hidle : ∀ op ∈ s.ops.set k (.commit (.returned st)), op.flushes = true → False := by
    intro op hop hf
    obtain ⟨j, hj⟩ := List.mem_iff_getElem?.mp hop
    rcases pool_set hj with ⟨-, rfl⟩ | ⟨hjk, hold⟩
    · cases hf
    · exact hjk (h.unique j k _ _ hold hf hk rfl)
  have hret : .commit (.returned .ok) ∈ s.ops.set k (.commit (.returned st)) → st = .ok := by
    intro hret
    rcases List.mem_or_eq_of_mem_set hret with hret | heq
    · exact absurd hret hnoret
    · cases heq
      rfl
  refine h.commitMoves hops ?_ (fun _ _ _ _ hf => by cases hf) (fun _ => hcs) ?_ ?_ ?_
  · intro op hop hf
    rw [hops] at hop
    exact (hidle op hop hf).elim
  · rw [hbufs]
    exact h.valid
  · intro x hx
    -- a commit that failed leaves the batch failed; one that did not has flushed all
    by_cases hok : st = .ok
    · have hnf : ¬ s.Failed := by
        rintro (⟨st', hst', hmem'⟩ | ⟨hc, -, -⟩)
        · cases h.flushes_eq hk rfl hmem' rfl
          exact hst' hok
        · rw [hbusy] at hc
          cases hc
      rw [hbufs]
      exact .inr ((h.kept x hx).resolve_left hnf)
    · refine .inl (.inr ⟨hcs, fun hbg => hok (setBg_bgStatus_ok.mp hbg).2, fun hr => hok (hret ?_)⟩)
      rw [hops] at hr
      exact hr
  · rintro i hi (⟨op, hop, hpast⟩ | ⟨-, hb⟩)
    · rw [hops] at hop
      exact (hidle op hop (ContextOp.flushes_of_past hpast)).elim
    · have hok : st = .ok := by
        rcases hb with hb | hr
        · exact (setBg_bgStatus_ok.mp hb).2
        · rw [hops] at hr
          exact hret hr
      subst hok
      rw [hbufs]
      exact h.clean i hi (.inl ⟨_, hmem, rfl⟩)

end Frame

variable {sv} {L}

/-! ### Runs

One case for each kind of move, and the induction over the run. -/

/-- **One step keeps the invariant.** There is one lemma for each kind of move. The hard
one is the flush: what is in the buffer arrives, or the commit fails. -/
theorem Inv.step {tr : List (Sent γ)} {s s' : Context β} {l : ContextLabel E} {es : List (Sent γ)}
    (h : Inv sv L tr s) (hadm : s.Admissible L l) (hstep : s.step sv snk l = some (s', es)) :
    Inv sv L (tr ++ es) s' := by
  have hnil : tr ++ [] = tr := List.append_nil tr
  cases step_move hstep with
  | insertArrives =>
    rw [hnil]
    refine h.arrives rfl (fun _ => rfl) (fun _ hx => hx) ?_ (fun _ heq => by cases heq)
    intro x px heq
    cases heq
    exact ⟨hadm, rfl⟩
  | commitArrives =>
    rw [hnil]
    exact h.arrives rfl (fun _ => rfl) (fun _ hx => hx) (fun _ _ heq => by cases heq)
      (fun _ heq => by cases heq)
  | insertRefused hk hst =>
    rw [hnil]
    exact h.insertMoves_quiet hk rfl rfl id rfl (fun _ heq => by cases heq)
      (fun _ hx => absurd hx.2 hst)
  | insertSelects hk hst =>
    rw [hnil]
    refine h.insertMoves_quiet hk rfl rfl id rfl (fun i heq => ?_) (fun _ hx => hx)
    cases heq
    rfl
  | insertWrites hk hw =>
    rw [Admissible, hk] at hadm
    obtain ⟨hnp, hfits⟩ := hadm
    exact h.insertWrites hk hw hnp hfits
  | @insertReturns k e name st hk =>
    rw [hnil]
    have hops : ((s.setBg st).put k (.insert name (.returned st))).ops =
        s.ops.set k (.insert name (.returned st)) := by simp [put]
    refine h.insertMoves_quiet hk hops ?_ (fun hbg => (setBg_bgStatus_ok.mp hbg).1) ?_
      (fun _ heq => by cases heq) (fun _ hx => hx)
    · simp [put]
    · simp [put]
  | commitRefused hk hst =>
    rw [hnil]
    exact h.commitRefused hk hst
  | commitClaims hk hst =>
    rw [hnil]
    exact h.commitClaims hst
  | commitFlushes hk hi hw => exact h.commitFlushes hk hw
  | commitEnds hk hi =>
    rw [hnil]
    exact h.commitEnds hk hi
  | commitReturns hk =>
    rw [hnil]
    exact h.commitReturns hk

/-- **The commit protocol delivers**: in every run whose inserts respect the
commits, a commit that returned OK has delivered the acknowledged names. -/
theorem run_delivered {Init : β → Prop} (hinit : ∀ b, Init b → L.Valid b) {tr : List (Sent γ)}
    {s : Context β} (hr : (contextSystem sv snk Init).Run (Admissible L) tr s) :
    Delivered sv L tr s := by
  refine Inv.delivered sv L (hr.invariant (I := Inv sv L) ?_ ?_)
  · rintro s ⟨hst, -, hops, hv⟩
    exact Inv.init sv L hops hst fun i => hinit _ (hv i)
  · intro tr s l s' es _ hI hadm hstep
    exact hI.step hadm hstep

end Context

end DeltaFs
