import DeltaFs.Buffers

/-!
# Calls on a batch, one after the other

A client that inserts names and commits, each call after the one before has
returned. Once a call has failed, every later one is refused. As long as none
fails, what the servers decode and what the write buffers still hold make up
exactly the names inserted, in order, whatever the counts were that the buffers
started with; and no request carries more names than `batch_size` asks for.

`Orderly` is the invariant that carries this: for each server, what has been decoded and
what is still in the buffer are the names routed there so far. A section appends a name,
or sends the buffer and empties it, and both leave the concatenation alone.
-/

namespace DeltaFs

open TransitionSystem

/-! ## The calls

With one call at a time the protocol has a current operation, which is the last one, and all
others have returned. `Lone` says so. -/

namespace ContextOp

/-- The call has returned a status. -/
def result : ContextOp → Option Status
  | .insert _ (.returned st) => some st
  | .commit (.returned st) => some st
  | _ => none

/-- The call has got nowhere: it has not checked the context yet, or it has
failed. -/
def refused : ContextOp → Bool
  | .insert _ .entered => true
  | .insert _ (.returned st) => !st.isOk
  | .commit .entered => true
  | .commit (.returned st) => !st.isOk
  | _ => false

/-- A commit that is past the check. -/
def hasCommitted : ContextOp → Bool
  | .commit .entered => false
  | .commit _ => true
  | _ => false

def isCommit : ContextOp → Bool
  | .commit _ => true
  | _ => false

/-- The name of an insert that has written it. -/
def accepted : ContextOp → Option Slice
  | .insert name (.written st) => if st.isOk then some name else none
  | .insert name (.returned st) => if st.isOk then some name else none
  | _ => none

/-- The call has failed, or is about to. -/
def fails : ContextOp → Bool
  | .insert _ (.written st) => !st.isOk
  | .insert _ (.returned st) => !st.isOk
  | .commit (.flushed st) => !st.isOk
  | .commit (.returned st) => !st.isOk
  | _ => false

end ContextOp

namespace Context

variable {β E γ : Type} {sv : Servers} {snk : Sink β E γ} {s s' : Context β} {k : Nat} {e : E}
  {op op' : ContextOp} {es : List (Sent γ)} {l : ContextLabel E}

/-- A call arrives when all earlier ones have returned, and inserts a name that
`P` admits. -/
def OneByOne (P : Slice → Prop) (s : Context β) : ContextLabel E → Prop
  | .insert name => P name ∧ ∀ op ∈ s.ops, op.finished = true
  | .commit => ∀ op ∈ s.ops, op.finished = true
  | .advance _ _ => True

instance {P : Slice → Prop} [DecidablePred P] (s : Context β) (l : ContextLabel E) :
    Decidable (s.OneByOne P l) :=
  match l with
  | .insert _ => instDecidableAnd
  | .commit => List.decidableBAll _ _
  | .advance _ _ => instDecidableTrue

/-- Only the last call is still on its way. -/
def Lone (s : Context β) : Prop := ∀ op ∈ s.ops.dropLast, op.finished = true

/-- A call that moves is the last one. -/
theorem Lone.last (hl : s.Lone) (hk : s.ops[k]? = some op) (hf : op.finished = false) :
    s.ops = s.ops.dropLast ++ [op] ∧ k = s.ops.dropLast.length := by
  obtain ⟨hlt, -⟩ := List.getElem?_eq_some_iff.mp hk
  have hkl : k = s.ops.length - 1 := by
    by_contra hne
    have hmem : op ∈ s.ops.dropLast := by
      refine List.mem_iff_getElem?.mpr ⟨k, ?_⟩
      rw [List.getElem?_dropLast, if_pos (by omega), hk]
    rw [hl op hmem] at hf
    cases hf
  have hne : s.ops ≠ [] := fun hnil => by simp [hnil] at hlt
  have hlast : s.ops.getLast hne = op := by
    rw [List.getLast_eq_getElem]
    exact Option.some.inj ((List.getElem?_eq_getElem (by omega)).symm.trans (hkl ▸ hk))
  refine ⟨?_, by rw [List.length_dropLast]; exact hkl⟩
  rw [← hlast, List.dropLast_append_getLast hne]

/-- No call came after a call that moves. -/
theorem Lone.succ_eq (hl : s.Lone) (hk : s.ops[k]? = some op) (hf : op.finished = false) :
    k + 1 = s.ops.length := by
  obtain ⟨hops, hkl⟩ := hl.last hk hf
  rw [hops, List.length_append, List.length_singleton, ← hkl]

/-- It takes the place of the last one again. -/
theorem Lone.moves (hl : s.Lone) (hk : s.ops[k]? = some op) (hf : op.finished = false)
    (op' : ContextOp) : s.ops.set k op' = s.ops.dropLast ++ [op'] := by
  obtain ⟨hops, hkl⟩ := hl.last hk hf
  generalize s.ops.dropLast = ops at hops hkl
  rw [hops, hkl, List.set_append_right _ _ (Nat.le_refl _), Nat.sub_self, List.set_cons_zero]

/-- What a step does to the calls, when they come one after the other: one
arrives behind calls that have returned, or the last one moves on. -/
theorem step_ops {P : Slice → Prop} (hC : s.OneByOne P l)
    (h : s.step sv snk l = some (s', es)) :
    (∃ op, op.finished = false ∧ op.refused = true ∧ s'.ops = s.ops ++ [op] ∧
      (∀ o ∈ s.ops, o.finished = true) ∧ es = [] ∧ s' = { s with ops := s.ops ++ [op] } ∧
      ∀ name, op = .insert name .entered → P name) ∨
    ∃ k e op op', l = .advance k e ∧ s.ops[k]? = some op ∧ op.finished = false ∧
      op'.isCommit = op.isCommit ∧ s'.ops = s.ops.set k op' := by
  cases step_move h with
  | @insertArrives name =>
    refine .inl ⟨.insert name .entered, rfl, rfl, rfl, hC.2, rfl, rfl, fun x heq => ?_⟩
    cases heq
    exact hC.1
  | commitArrives =>
    exact .inl ⟨.commit .entered, rfl, rfl, rfl, hC, rfl, rfl, fun x heq => by cases heq⟩
  | @insertRefused k e name st hk =>
    exact .inr ⟨k, e, _, .insert name (.returned st), rfl, hk, rfl, rfl, rfl⟩
  | @insertSelects k e name hk =>
    exact .inr ⟨k, e, _, .insert name (.selected (sv.select name)), rfl, hk, rfl, rfl, rfl⟩
  | @insertWrites k i e name st b reqs hk =>
    exact .inr ⟨k, e, _, .insert name (.written st), rfl, hk, rfl, rfl, rfl⟩
  | @insertReturns k e name st hk =>
    exact .inr ⟨k, e, _, .insert name (.returned st), rfl, hk, rfl, rfl, by simp [put]⟩
  | @commitRefused k e st hk =>
    exact .inr ⟨k, e, _, .commit (.returned st), rfl, hk, rfl, rfl, rfl⟩
  | @commitClaims k e hk =>
    exact .inr ⟨k, e, _, .commit (.flushing 0), rfl, hk, rfl, rfl, rfl⟩
  | @commitFlushes k i e st b reqs hk =>
    exact .inr ⟨k, e, _, .commit (if st.isOk then .flushing (i + 1) else .flushed st), rfl, hk,
      rfl, rfl, rfl⟩
  | @commitEnds k i e hk => exact .inr ⟨k, e, _, .commit (.flushed .ok), rfl, hk, rfl, rfl, rfl⟩
  | @commitReturns k e st hk =>
    exact .inr ⟨k, e, _, .commit (.returned st), rfl, hk, rfl, rfl, by simp [put]⟩

/-- Only the last call is on its way after a step. -/
theorem Lone.step {P : Slice → Prop} (hl : s.Lone) (hC : s.OneByOne P l)
    (h : s.step sv snk l = some (s', es)) : s'.Lone := by
  intro o ho
  rcases step_ops hC h with ⟨op, -, -, hops, hall, -⟩ | ⟨k, e, op, op', -, hk, hf, -, hops⟩
  · rw [hops, List.dropLast_concat] at ho
    exact hall o ho
  · rw [hops, hl.moves hk hf, List.dropLast_concat] at ho
    exact hl o ho

/-! ## After a failure

The status of the context is sticky: it is set by the first failure, and every later call
checks it first. -/

/-- No commit among the first `k` calls. -/
def NoCommitBefore (s : Context β) (k : Nat) : Prop :=
  ∀ j < k, ∀ op, s.ops[j]? = some op → op.isCommit = false

/-- A context that keeps refusing once a call up to its first commit has failed. -/
structure Strict (s : Context β) : Prop where
  lone : s.Lone
  /-- a commit has claimed the context -/
  claimed : s.commitStatus ≠ .notCommitted → ∃ op ∈ s.ops, op.hasCommitted = true
  failed : ∀ (k : Nat) (op : ContextOp) (st : Status), s.ops[k]? = some op →
    op.result = some st → st ≠ .ok → s.NoCommitBefore k →
      s.bgStatus ≠ .ok ∧ ∀ (j : Nat) (o : ContextOp), k < j → s.ops[j]? = some o → o.refused = true

theorem isCommit_of_hasCommitted (h : op.hasCommitted = true) : op.isCommit = true := by
  rcases op with ⟨x, pc⟩ | pc
  · cases h
  · rfl

/-- A call that checks the context while it is claimed comes after a commit. -/
theorem Strict.commit_before (hi : s.Strict) (hk : s.ops[k]? = some op) (hf : op.finished = false)
    (hentered : op.hasCommitted = false) (hcs : s.commitStatus ≠ .notCommitted) :
    ¬ s.NoCommitBefore k := by
  intro hno
  obtain ⟨o, ho, hcom⟩ := hi.claimed hcs
  obtain ⟨hops, hkl⟩ := hi.lone.last hk hf
  rw [hops] at ho
  rcases List.mem_append.mp ho with ho | ho
  · obtain ⟨j, hj⟩ := List.mem_iff_getElem?.mp ho
    obtain ⟨hjl, -⟩ := List.getElem?_eq_some_iff.mp hj
    have hj' : s.ops[j]? = some o := by
      rw [hops, List.getElem?_append_left hjl]
      exact hj
    have hcom' := isCommit_of_hasCommitted hcom
    rw [hno j (hkl ▸ hjl) o hj'] at hcom'
    cases hcom'
  · rw [List.mem_singleton.mp ho, hentered] at hcom
    cases hcom

/-- A call arrives. -/
theorem Strict.arrives {P : Slice → Prop} (hi : s.Strict) (hC : s.OneByOne P l)
    (h : s.step sv snk l = some (s', es)) (href : op.refused = true) (hf : op.finished = false)
    (hs' : s' = { s with ops := s.ops ++ [op] }) : s'.Strict where
  lone := hi.lone.step hC h
  claimed hcs := by
    subst hs'
    obtain ⟨o, ho, hcom⟩ := hi.claimed hcs
    exact ⟨o, List.mem_append_left _ ho, hcom⟩
  failed j o st hj hres hst hno := by
    subst hs'
    rcases pool_push hj with ⟨-, rfl⟩ | hj
    · rcases o with ⟨x, pc⟩ | pc <;> cases pc <;> cases hf <;> cases hres
    · have hno' : s.NoCommitBefore j := fun i hij x hx => hno i hij x (pool_push_old hx)
      obtain ⟨hbg, hall⟩ := hi.failed j o st hj hres hst hno'
      refine ⟨hbg, fun i x hij hx => ?_⟩
      rcases pool_push hx with ⟨-, rfl⟩ | hx
      · exact href
      · exact hall i x hij hx

/-- The last call moves. -/
theorem Strict.moves (hi : s.Strict) (hl : s'.Lone) (hk : s.ops[k]? = some op)
    (hf : op.finished = false) (hops : s'.ops = s.ops.set k op')
    (hclaimed : s'.commitStatus ≠ .notCommitted → s.commitStatus ≠ .notCommitted ∨
      op'.hasCommitted = true)
    (hcommitted : op.hasCommitted = true → op'.hasCommitted = true)
    (hbg : s.bgStatus ≠ .ok → s'.bgStatus ≠ .ok)
    (href : s.bgStatus ≠ .ok → op.refused = true → op'.refused = true)
    (hnew : ∀ st, op'.result = some st → st ≠ .ok → s.NoCommitBefore k → s'.bgStatus ≠ .ok) :
    s'.Strict where
  lone := hl
  claimed hcs := by
    rw [hops]
    have hself : op' ∈ s.ops.set k op' := List.mem_iff_getElem?.mpr ⟨k, pool_set_self hk⟩
    rcases hclaimed hcs with hcs | hcom
    · obtain ⟨o, ho, hcom⟩ := hi.claimed hcs
      obtain ⟨j, hj⟩ := List.mem_iff_getElem?.mp ho
      by_cases hjk : j = k
      · subst hjk
        obtain rfl := Option.some.inj (hk.symm.trans hj)
        exact ⟨op', hself, hcommitted hcom⟩
      · exact ⟨o, List.mem_iff_getElem?.mpr ⟨j, (pool_set_ne hjk).trans hj⟩, hcom⟩
    · exact ⟨op', hself, hcom⟩
  failed j o st hj hres hst hno := by
    rw [hops] at hj
    have hlen := hi.lone.succ_eq hk hf
    have hbelow : ∀ i, i < j → j ≤ k → ∀ x, s.ops[i]? = some x → s'.ops[i]? = some x := by
      intro i hij hjk x hx
      rw [hops, pool_set_ne (by omega)]
      exact hx
    rcases pool_set hj with ⟨rfl, rfl⟩ | ⟨hjk, hj⟩
    · refine ⟨hnew st hres hst fun i hij x hx => hno i hij x (hbelow i hij (Nat.le_refl j) x hx),
        fun i x hij hx => ?_⟩
      obtain ⟨hil, -⟩ := List.getElem?_eq_some_iff.mp hx
      rw [hops, List.length_set] at hil
      omega
    · obtain ⟨hjl, -⟩ := List.getElem?_eq_some_iff.mp hj
      obtain ⟨hbg', hall⟩ := hi.failed j o st hj hres hst
        fun i hij x hx => hno i hij x (hbelow i hij (by omega) x hx)
      refine ⟨hbg hbg', fun i x hij hx => ?_⟩
      rw [hops] at hx
      rcases pool_set hx with ⟨rfl, rfl⟩ | ⟨-, hx⟩
      · exact href hbg' (hall i op hij hk)
      · exact hall i x hij hx

/-- **A step keeps refusing.** The background status is never taken back. -/
theorem Strict.step {P : Slice → Prop} (hi : s.Strict) (hC : s.OneByOne P l)
    (h : s.step sv snk l = some (s', es)) : s'.Strict := by
  have hlone := hi.lone.step hC h
  cases step_move h with
  | insertArrives => exact hi.arrives hC h rfl rfl rfl
  | commitArrives => exact hi.arrives hC h rfl rfl rfl
  -- turned away: a commit has begun, or something failed before
  | @insertRefused k e name st hk hst =>
    refine hi.moves hlone hk rfl rfl .inl id id (fun _ _ => ?_) fun st' _ _ hno => ?_
    · exact Status.not_isOk hst
    · rcases insert_entered hk h with ⟨-, -, -, hcs | hbg⟩ | ⟨-, -, heq⟩
      · exact absurd hno (hi.commit_before hk rfl rfl hcs)
      · exact hbg
      · have hops := congrArg (fun c => c.ops[k]?) heq
        simp only [put, pool_set_self hk] at hops
        cases hops
  | @insertSelects k e name hk hnot =>
    refine hi.moves hlone hk rfl rfl .inl id id (fun hbg _ => ?_) fun _ hres => by cases hres
    rcases insert_entered hk h with ⟨st, -, heq, -⟩ | ⟨-, hok, -⟩
    · have hops := congrArg (fun c => c.ops[k]?) heq
      simp only [put, pool_set_self hk] at hops
      cases hops
    · exact absurd hok hbg
  | insertWrites hk hw =>
    exact hi.moves hlone hk rfl rfl .inl id id (fun _ hr => by cases hr) fun _ hres => by cases hres
  -- the first failure is remembered in `bg_status`
  | @insertReturns k e name st hk =>
    have hops : ((s.setBg st).put k (.insert name (.returned st))).ops =
        s.ops.set k (.insert name (.returned st)) := by simp [put]
    refine hi.moves hlone hk rfl hops ?_ id ?_ (fun _ hr => by cases hr) fun st' hres hst _ => ?_
    · simpa [put] using Or.inl
    · exact fun hbg hok => hbg (setBg_bgStatus_ok.mp hok).1
    · obtain rfl := Option.some.inj hres
      exact fun hok => hst (setBg_bgStatus_ok.mp hok).2
  | @commitRefused k e st hk hst =>
    rcases commit_entered hk h with ⟨st', heq, href, hwhy⟩ | ⟨-, -, heq⟩
    · have hops := congrArg (fun c => c.ops[k]?) heq
      simp only [put, pool_set_self hk] at hops
      obtain rfl : st = st' := by
        cases hops
        rfl
      refine hi.moves hlone hk rfl rfl .inl (fun hc => by cases hc) id (fun hbg _ => ?_)
        fun st' _ _ hno => ?_
      · exact Status.not_isOk (href hbg)
      · exact hwhy.resolve_left fun hcs => hi.commit_before hk rfl rfl hcs hno
    · have hops := congrArg (fun c => c.ops[k]?) heq
      simp only [put, pool_set_self hk] at hops
      cases hops
  -- the first commit takes the batch over; only it flushes
  | @commitClaims k e hk hnot =>
    refine hi.moves hlone hk rfl rfl (fun _ => .inr rfl) (fun _ => rfl) id (fun hbg _ => ?_)
      fun _ hres => by cases hres
    rcases commit_entered hk h with ⟨st, heq, -, -⟩ | ⟨-, hok, -⟩
    · have hops := congrArg (fun c => c.ops[k]?) heq
      simp only [put, pool_set_self hk] at hops
      cases hops
    · exact absurd hok hbg
  | commitFlushes hk hlt hw =>
    refine hi.moves hlone hk rfl rfl .inl (fun _ => ?_) id (fun _ hr => by cases hr)
      fun _ hres => ?_
    · split <;> rfl
    · split at hres <;> cases hres
  | commitEnds hk hlt =>
    exact hi.moves hlone hk rfl rfl .inl (fun _ => rfl) id (fun _ hr => by cases hr)
      fun _ hres => by cases hres
  | @commitReturns k e st hk =>
    have hops : (({ s with commitStatus := .committed }.setBg st).put k (.commit (.returned st))).ops =
        s.ops.set k (.commit (.returned st)) := by simp [put]
    refine hi.moves hlone hk rfl hops (fun _ => .inr rfl) (fun _ => rfl) ?_
      (fun _ hr => by cases hr) fun st' hres hst _ => ?_
    · exact fun hbg hok => hbg (setBg_bgStatus_ok.mp hok).1
    · obtain rfl := Option.some.inj hres
      exact fun hok => hst (setBg_bgStatus_ok.mp hok).2

end Context

/-! ## What a batch hands over

A request is a name array with a count. The names it carries are those the server decodes, which
are fewer than the count when the count started too high. One section of `Mkfls1` moves names
from the buffer into a request and a name into the buffer, in order, so what was handed over
together with what is buffered grows by one name. -/

variable (h : Handle)

/-- The names a `Mkfls2` request carries, as the loop of the server decodes
them. -/
def MkflsRequest.names (r : MkflsRequest) : List Slice := decodeNames r.n.toNat r.namearr

/-- The names of the requests that succeeded. -/
def carried (reqs : List (MkflsRequest × Status)) : List Slice :=
  (reqs.filter fun r => r.2.isOk).flatMap fun r => r.1.names

/-- The names server `i` has decoded from successful requests, in order. -/
def delivered (i : Nat) (tr : List (Sent MkflsRequest)) : List Slice :=
  (tr.filter fun x => x.srv = i ∧ x.status.isOk).flatMap fun x => x.req.names

/-- As many names as a write buffer or a request may hold. -/
def Handle.room : Nat := max 1 h.batchSize.toNat

/-- Names that `BatchInsert` is given here: not empty, and of a length that fits
the prefix. -/
def Insertable (name : Slice) : Prop := name ≠ [] ∧ name.length < 2 ^ 32

instance : DecidablePred Insertable := fun _ => instDecidableAnd

theorem delivered_append (i : Nat) (tr es : List (Sent MkflsRequest)) :
    delivered i (tr ++ es) = delivered i tr ++ delivered i es := by
  rw [delivered, List.filter_append, List.flatMap_append]
  rfl

/-- What one section sends to server `i`. -/
theorem delivered_map (i j : Nat) (reqs : List (MkflsRequest × Status)) :
    delivered j (reqs.map fun r => ⟨i, r.1, r.2⟩) = if j = i then carried reqs else [] := by
  rw [delivered, List.filter_map, List.flatMap_map, carried]
  by_cases hj : j = i
  · subst hj
    simp [Function.comp_def]
  · simp [Function.comp_def, hj, Ne.symm hj]

theorem carried_singleton (r : MkflsRequest × Status) :
    carried [r] = if r.2.isOk then r.1.names else [] := by
  rw [carried]
  by_cases hok : r.2.isOk = true
  · simp [hok]
  · simp [hok]

variable {h}

/-- **One section of `Mkfls1`**: what it hands over and what the buffer holds after
are what the buffer held before, and the name if it does not fail; and neither the
buffer nor a request holds more names than there is room for. -/
theorem mkfls1_order {name : Slice} {force : Bool} {reply st : Status} {buf buf' : WriBuf}
    {reqs : List (MkflsRequest × Status)} (hB : h.batchSize.toNat < 2 ^ 32) (hv : buf.Valid)
    (hname : name = [] ∨ Insertable name) (hsmall : buf.names.length ≤ h.room)
    (hw : mkfls1 h name force reply buf = some (st, buf', reqs)) :
    buf'.Valid ∧ carried reqs ++ buf'.names = buf.names ++ (if st.isOk then nonEmpty name else []) ∧
      buf'.names.length ≤ h.room ∧ ∀ r ∈ reqs, r.1.names.length ≤ h.room := by
  have hone : (nonEmpty name).length ≤ 1 := by
    rw [nonEmpty]
    split
    · exact Nat.zero_le 1
    · exact Nat.le_refl 1
  have hroom : 1 ≤ h.room := Nat.le_max_left ..
  rw [mkfls1] at hw
  split at hw
  · -- what is buffered is sent
    simp only [] at hw
    split at hw
    · rename_i hok
      cases hw
      have hempty : (⟨[], 0⟩ : WriBuf).Fresh := rfl
      have hfits : name = [] ∨ name.length < 2 ^ 32 ∧ (⟨[], 0⟩ : WriBuf).n.toNat + 1 < 2 ^ 32 :=
        hname.imp_right fun hn => ⟨hn.2, by decide⟩
      obtain ⟨hv', hnames⟩ := WriBuf.append_spec hempty.valid hfits
      rw [hempty.names, List.nil_append] at hnames
      refine ⟨hv', ?_, ?_, fun r hr => ?_⟩
      · rw [hnames, if_pos hok, carried_singleton, if_pos hok]
        rfl
      · rw [hnames]
        exact hone.trans hroom
      · rw [List.mem_singleton.mp hr]
        exact hsmall
    · rename_i hno
      cases hw
      refine ⟨hv, ?_, hsmall, fun r hr => ?_⟩
      · rw [if_neg hno, carried_singleton, if_neg hno, List.append_nil, List.nil_append]
      · rw [List.mem_singleton.mp hr]
        exact hsmall
  · -- the name is appended
    rename_i hno
    cases hw
    have hlt : buf.n.toNat < h.batchSize.toNat := by
      by_contra hge
      refine hno ?_
      rw [Handle.mustFlush, decide_eq_true (Nat.le_of_not_lt hge), Bool.or_true]
    have hfits : name = [] ∨ name.length < 2 ^ 32 ∧ buf.n.toNat + 1 < 2 ^ 32 :=
      hname.imp_right fun hn => ⟨hn.2, by omega⟩
    obtain ⟨hv', hnames⟩ := WriBuf.append_spec hv hfits
    refine ⟨hv', ?_, ?_, fun r hr => absurd hr List.not_mem_nil⟩
    · rw [hnames, if_pos Status.isOk_ok]
      rfl
    · have hcount : buf.names.length ≤ buf.n.toNat := length_decodeNames_le ..
      have hle : h.batchSize.toNat ≤ h.room := Nat.le_max_right ..
      rw [hnames, List.length_append]
      omega

/-! ## The invariant of a batch

With calls one after the other there is only one call at work, the last one. So the invariant
speaks of that call and of the history: for each server, what has been delivered, followed by
what is in the buffer, is what has been inserted for it. A failed call breaks this, and then its
failure is in the status of the context and stays there. -/

/-- A commit that has flushed the buffer of server `i`, with no failure so far. -/
def ContextOp.emptied (i : Nat) : ContextOp → Bool
  | .commit (.flushing j) => i < j
  | .commit (.flushed st) => st.isOk
  | .commit (.returned st) => st.isOk
  | _ => false

namespace Context

/-- The names inserted that are routed to server `i`, of the calls `ops`. -/
def acceptedFor (h : Handle) (i : Nat) (ops : List ContextOp) : List Slice :=
  (ops.filterMap ContextOp.accepted).filter fun name => h.servers.select name = i

theorem acceptedFor_append (h : Handle) (i : Nat) (ops : List ContextOp) (op : ContextOp) :
    acceptedFor h i (ops ++ [op]) = acceptedFor h i ops ++ acceptedFor h i [op] := by
  rw [acceptedFor, List.filterMap_append, List.filter_append]
  rfl

/-- A batch on which calls come one after the other. -/
structure Orderly (h : Handle) (tr : List (Sent MkflsRequest)) (s : Context WriBuf) : Prop where
  strict : s.Strict
  named : ∀ {k : Nat} {name : Slice} {pc : InsertPc}, s.ops[k]? = some (.insert name pc) →
    Insertable name
  routed : ∀ {k i : Nat} {name : Slice}, s.ops[k]? = some (.insert name (.selected i)) →
    i = h.servers.select name
  valid : ∀ i, (s.bufs i).Valid
  small : ∀ i, (s.bufs i).names.length ≤ h.room
  requests : ∀ x ∈ tr, x.req.names.length ≤ h.room
  /-- no name is lost, repeated or moved, unless a call fails -/
  sent : (∀ op ∈ s.ops, op.fails = false) → ∀ i,
    delivered i tr ++ (s.bufs i).names = acceptedFor h i s.ops
  /-- the first commit leaves nothing in the buffers it has flushed -/
  emptied : ∀ {k i : Nat} {op : ContextOp}, s.ops[k]? = some op → k + 1 = s.ops.length →
    s.NoCommitBefore k → i < h.srvs → op.emptied i = true → (s.bufs i).names = []

variable {h : Handle} {tr tr' : List (Sent MkflsRequest)} {s s' : Context WriBuf} {k : Nat}
  {op op' : ContextOp}

/-- The last call moves. -/
theorem Orderly.moves (hi : s.Orderly h tr) (hstrict : s'.Strict) (hk : s.ops[k]? = some op)
    (hf : op.finished = false) (hops : s'.ops = s.ops.set k op')
    (hname : ∀ name pc, op' = .insert name pc → Insertable name)
    (hroute : ∀ name i, op' = .insert name (.selected i) → i = h.servers.select name)
    (hvalid : ∀ i, (s'.bufs i).Valid) (hsmall : ∀ i, (s'.bufs i).names.length ≤ h.room)
    (hreq : ∀ x ∈ tr', x.req.names.length ≤ h.room)
    (hsent : op'.fails = false → op.fails = false ∧ ∀ i (names : List Slice),
      delivered i tr ++ (s.bufs i).names = names ++ acceptedFor h i [op] →
        delivered i tr' ++ (s'.bufs i).names = names ++ acceptedFor h i [op'])
    (hempty : s.NoCommitBefore k → ∀ i < h.srvs, op'.emptied i = true →
      (s'.bufs i).names = []) : s'.Orderly h tr' where
  strict := hstrict
  named {j name pc} hj := by
    rw [hops] at hj
    rcases pool_set hj with ⟨-, heq⟩ | ⟨-, hj⟩
    · exact hname name pc heq.symm
    · exact hi.named hj
  routed {j i name} hj := by
    rw [hops] at hj
    rcases pool_set hj with ⟨-, heq⟩ | ⟨-, hj⟩
    · exact hroute name i heq.symm
    · exact hi.routed hj
  valid := hvalid
  small := hsmall
  requests := hreq
  sent hok i := by
    obtain ⟨hlast, -⟩ := hi.strict.lone.last hk hf
    rw [hops, hi.strict.lone.moves hk hf] at hok ⊢
    obtain ⟨hfails, hstep⟩ := hsent (hok op' (by simp))
    rw [acceptedFor_append]
    refine hstep i _ ?_
    rw [← acceptedFor_append, ← hlast]
    refine hi.sent (fun o ho => ?_) i
    rw [hlast] at ho
    rcases List.mem_append.mp ho with ho | ho
    · exact hok o (List.mem_append_left _ ho)
    · rw [List.mem_singleton.mp ho]
      exact hfails
  emptied {j i o} hj hjl hno hlt hem := by
    have hlen := hi.strict.lone.succ_eq hk hf
    have hjk : j = k := by
      rw [hops, List.length_set] at hjl
      omega
    subst hjk
    rw [hops, pool_set_self hk] at hj
    obtain rfl := Option.some.inj hj
    refine hempty (fun l hlj x hx => hno l hlj x ?_) i hlt hem
    rw [hops, pool_set_ne (by omega)]
    exact hx

/-- The last call moves without touching a buffer. -/
theorem Orderly.quiet (hi : s.Orderly h tr) (hstrict : s'.Strict) (hk : s.ops[k]? = some op)
    (hf : op.finished = false) (hops : s'.ops = s.ops.set k op') (hbufs : s'.bufs = s.bufs)
    (hname : ∀ name pc, op' = .insert name pc → Insertable name)
    (hroute : ∀ name i, op' = .insert name (.selected i) → i = h.servers.select name)
    (hfails : op'.fails = false → op.fails = false ∧ op'.accepted = op.accepted)
    (hempty : s.NoCommitBefore k → ∀ i < h.srvs, op'.emptied i = true → op.emptied i = true) :
    s'.Orderly h (tr ++ []) := by
  rw [List.append_nil]
  refine hi.moves hstrict hk hf hops hname hroute ?_ ?_ hi.requests (fun hok => ?_) ?_
  · rw [hbufs]
    exact hi.valid
  · rw [hbufs]
    exact hi.small
  · obtain ⟨hfail, hacc⟩ := hfails hok
    refine ⟨hfail, fun i names hnames => ?_⟩
    rw [hbufs, hnames, acceptedFor, acceptedFor]
    simp only [List.filterMap_cons, hacc]
  · intro hno i hlt hem
    rw [hbufs]
    exact hi.emptied hk (hi.strict.lone.succ_eq hk hf) hno hlt (hempty hno i hlt hem)

/-- The last call takes its section on the buffer of server `i`. -/
theorem Orderly.writes (hB : h.batchSize.toNat < 2 ^ 32) (hi : s.Orderly h tr) {i : Nat}
    {name : Slice} {force : Bool} {reply st : Status} {b : WriBuf}
    {reqs : List (MkflsRequest × Status)} (hk : s.ops[k]? = some op) (hf : op.finished = false)
    (hw : mkfls1 h name force reply (s.bufs i) = some (st, b, reqs))
    (hstrict : ({ s with bufs := Function.update s.bufs i b }.put k op').Strict)
    (hname : name = [] ∨ Insertable name)
    (hnamed : ∀ x pc, op' = .insert x pc → Insertable x)
    (hroute : ∀ x i, op' ≠ .insert x (.selected i))
    (hfails : op'.fails = false → op.fails = false ∧ ∀ j, acceptedFor h j [op'] =
      acceptedFor h j [op] ++ if j = i then (if st.isOk then nonEmpty name else []) else [])
    (hempty : s.NoCommitBefore k → ∀ j < h.srvs, op'.emptied j = true →
      (Function.update s.bufs i b j).names = []) :
    ({ s with bufs := Function.update s.bufs i b }.put k op').Orderly h
      (tr ++ reqs.map fun r : MkflsRequest × Status => (⟨i, r.1, r.2⟩ : Sent MkflsRequest)) := by
  obtain ⟨hv, horder, hsmall, hreqs⟩ := mkfls1_order hB (hi.valid i) hname (hi.small i) hw
  refine hi.moves hstrict hk hf rfl hnamed (fun x j heq => absurd heq (hroute x j)) ?_ ?_ ?_
    (fun hok => ?_) hempty
  · intro j
    change (Function.update s.bufs i b j).Valid
    by_cases hj : j = i
    · rw [hj, Function.update_self]
      exact hv
    · rw [Function.update_of_ne hj]
      exact hi.valid j
  · intro j
    change (Function.update s.bufs i b j).names.length ≤ h.room
    by_cases hj : j = i
    · rw [hj, Function.update_self]
      exact hsmall
    · rw [Function.update_of_ne hj]
      exact hi.small j
  · intro x hx
    rcases List.mem_append.mp hx with hx | hx
    · exact hi.requests x hx
    · obtain ⟨r, hr, rfl⟩ := List.mem_map.mp hx
      exact hreqs r hr
  · obtain ⟨hfail, hacc⟩ := hfails hok
    refine ⟨hfail, fun j names hnames => ?_⟩
    change delivered j _ ++ (Function.update s.bufs i b j).names = _
    rw [delivered_append, delivered_map, hacc j]
    by_cases hj : j = i
    · subst hj
      rw [if_pos rfl, if_pos rfl, Function.update_self, List.append_assoc, horder,
        ← List.append_assoc, ← List.append_assoc, hnames]
    · rw [if_neg hj, if_neg hj, Function.update_of_ne hj, List.append_nil, List.append_nil, hnames]

/-- A call arrives. -/
theorem Orderly.arrives (hi : s.Orderly h tr)
    (hstrict : ({ s with ops := s.ops ++ [op] } : Context WriBuf).Strict)
    (hent : (∃ name, Insertable name ∧ op = .insert name .entered) ∨ op = .commit .entered) :
    ({ s with ops := s.ops ++ [op] } : Context WriBuf).Orderly h (tr ++ []) where
  strict := hstrict
  named {j name pc} hj := by
    rcases pool_push hj with ⟨-, rfl⟩ | hj
    · rcases hent with ⟨x, hx, heq⟩ | heq
      · cases heq
        exact hx
      · cases heq
    · exact hi.named hj
  routed {j i name} hj := by
    rcases pool_push hj with ⟨-, rfl⟩ | hj
    · rcases hent with ⟨x, -, heq⟩ | heq
      · cases heq
      · cases heq
    · exact hi.routed hj
  valid := hi.valid
  small := hi.small
  requests := by
    rw [List.append_nil]
    exact hi.requests
  sent hok i := by
    have hnone : op.accepted = none := by
      rcases hent with ⟨x, -, rfl⟩ | rfl
      · rfl
      · rfl
    have hnil : acceptedFor h i [op] = [] := by simp [acceptedFor, hnone]
    rw [List.append_nil, acceptedFor_append, hnil, List.append_nil]
    exact hi.sent (fun o ho => hok o (List.mem_append_left _ ho)) i
  emptied {j i o} hj hjl hno hlt hem := by
    rcases pool_push hj with ⟨-, rfl⟩ | hj
    · rcases hent with ⟨x, -, rfl⟩ | rfl
      · cases hem
      · cases hem
    · obtain ⟨hjl', -⟩ := List.getElem?_eq_some_iff.mp hj
      rw [List.length_append, List.length_singleton] at hjl
      omega

/-- **A step keeps the batch in order.** Only a section that writes or flushes a buffer has
anything to show, and it is about the buffer of one server. -/
theorem Orderly.step (hB : h.batchSize.toNat < 2 ^ 32) (hi : s.Orderly h tr)
    {l : ContextLabel Status} {es : List (Sent MkflsRequest)} (hC : s.OneByOne Insertable l)
    (hs : s.step h.servers (batchSink h) l = some (s', es)) : s'.Orderly h (tr ++ es) := by
  have hstrict := hi.strict.step hC hs
  cases step_move hs with
  | @insertArrives name => exact hi.arrives hstrict (.inl ⟨name, hC.1, rfl⟩)
  | commitArrives => exact hi.arrives hstrict (.inr rfl)
  | @insertRefused k e name st hk hst =>
    refine hi.quiet hstrict hk rfl rfl rfl (fun x pc heq => ?_) (fun x i heq => by cases heq)
      (fun hok => ?_) fun _ _ _ hem => by cases hem
    · cases heq
      exact hi.named hk
    · rw [show (ContextOp.insert name (.returned st)).fails = true from Status.not_isOk hst] at hok
      cases hok
  | @insertSelects k e name hk hnot =>
    refine hi.quiet hstrict hk rfl rfl rfl (fun x pc heq => ?_) (fun x i heq => ?_)
      (fun _ => ⟨rfl, rfl⟩) fun _ _ _ hem => by cases hem
    · cases heq
      exact hi.named hk
    · cases heq
      rfl
  -- the one section that adds a name to a buffer: the requests it sends and what the
  -- buffer still holds are the names so far, in order
  | @insertWrites k i e name st b reqs hk hw =>
    have hins := hi.named hk
    have hw : mkfls1 h name false e (s.bufs i) = some (st, b, reqs) := hw
    refine hi.writes hB hk rfl hw hstrict (.inr hins) (fun x pc heq => ?_)
      (fun x j heq => by cases heq) (fun hok => ?_) fun _ _ _ hem => by cases hem
    · cases heq
      exact hins
    · have hst : st.isOk = true := by simpa [ContextOp.fails] using hok
      refine ⟨rfl, fun j => ?_⟩
      have hsel := hi.routed hk
      have hold : acceptedFor h j [.insert name (.selected i)] = [] := rfl
      rw [hold, List.nil_append, if_pos hst, nonEmpty, if_neg hins.1, acceptedFor]
      by_cases hj : j = i
      · rw [if_pos hj]
        simp [ContextOp.accepted, hst, hj, hsel]
      · rw [if_neg hj]
        simp [ContextOp.accepted, hst, ← hsel, Ne.symm hj]
  | @insertReturns k e name st hk =>
    have hops : ((s.setBg st).put k (.insert name (.returned st))).ops =
        s.ops.set k (.insert name (.returned st)) := by simp [put]
    refine hi.quiet hstrict hk rfl hops (by simp [put]) (fun x pc heq => ?_)
      (fun x i heq => by cases heq) (fun hok => ⟨hok, rfl⟩) fun _ _ _ hem => by cases hem
    cases heq
    exact hi.named hk
  | @commitRefused k e st hk hst =>
    refine hi.quiet hstrict hk rfl rfl rfl (fun x pc heq => by cases heq)
      (fun x i heq => by cases heq) (fun _ => ⟨rfl, rfl⟩) fun hno i _ hem => ?_
    -- the first commit does not return OK without having flushed
    have hok : st = .ok := Status.isOk_iff.mp hem
    have hcs : s.commitStatus ≠ .notCommitted := by
      rw [(hst hok).1]
      decide
    exact absurd hno (hi.strict.commit_before hk rfl rfl hcs)
  | @commitClaims k e hk hnot =>
    refine hi.quiet hstrict hk rfl rfl rfl (fun x pc heq => by cases heq)
      (fun x i heq => by cases heq) (fun _ => ⟨rfl, rfl⟩) fun _ i _ hem => ?_
    have hlt : i < 0 := of_decide_eq_true hem
    exact absurd hlt (Nat.not_lt_zero i)
  -- the flush moves what the buffer holds into a request and adds no name
  | @commitFlushes k i e st b reqs hk hlt hw =>
    have hw : mkfls1 h [] true e (s.bufs i) = some (st, b, reqs) := hw
    refine hi.writes hB hk rfl hw hstrict (.inl rfl) (fun x pc heq => by cases heq)
      (fun x j heq => by cases heq) (fun _ => ⟨rfl, fun j => ?_⟩) fun hno j hj hem => ?_
    · have hnil : (if j = i then (if st.isOk then nonEmpty [] else []) else []) = [] := by
        split
        · split <;> rfl
        · rfl
      rw [hnil]
      rfl
    · by_cases hst : st.isOk = true
      · rw [if_pos hst] at hem
        have hji : j < i + 1 := of_decide_eq_true hem
        -- the servers below were flushed before, this one just now
        rcases Nat.lt_succ_iff_lt_or_eq.mp hji with hlow | rfl
        · rw [Function.update_of_ne hlow.ne]
          exact hi.emptied hk (hi.strict.lone.succ_eq hk rfl) hno hj (decide_eq_true hlow)
        · rw [Function.update_self]
          obtain rfl := Status.isOk_iff.mp hst
          exact (batchLaws h).flushes (hi.valid j) hw
      · rw [if_neg hst] at hem
        exact absurd hem hst
  | @commitEnds k i e hk hend =>
    refine hi.quiet hstrict hk rfl rfl rfl (fun x pc heq => by cases heq)
      (fun x i heq => by cases heq) (fun _ => ⟨rfl, rfl⟩) fun _ j hj _ => ?_
    have hend : ¬ i < h.srvs := hend
    exact decide_eq_true (by omega)
  | @commitReturns k e st hk =>
    have hops : (({ s with commitStatus := .committed }.setBg st).put k (.commit (.returned st))).ops =
        s.ops.set k (.commit (.returned st)) := by simp [put]
    exact hi.quiet hstrict hk rfl hops (by simp [put]) (fun x pc heq => by cases heq)
      (fun x i heq => by cases heq) (fun hok => ⟨hok, rfl⟩) fun _ _ _ hem => hem

/-- The invariant holds in every run. -/
theorem run_orderly (hB : h.batchSize.toNat < 2 ^ 32)
    (hr : (contextSystem h.servers (batchSink h) WriBuf.Fresh).Run
      (fun s l => s.OneByOne Insertable l) tr s) : s.Orderly h tr := by
  refine hr.invariant (I := fun tr s => s.Orderly h tr) ?_ ?_
  · rintro s ⟨hcs, -, hops, hfresh⟩
    have hnil := fun i => (hfresh i).names
    refine ⟨⟨fun o ho => ?_, fun hne => absurd hcs hne, fun k op st hk => ?_⟩, fun hk => ?_,
      fun hk => ?_, fun i => (hfresh i).valid, fun i => ?_, fun x hx => ?_, fun _ i => ?_,
      fun hk => ?_⟩
    · rw [hops] at ho
      cases ho
    · rw [hops] at hk
      cases hk
    · rw [hops] at hk
      cases hk
    · rw [hops] at hk
      cases hk
    · rw [hnil]
      exact Nat.zero_le _
    · cases hx
    · rw [hnil, hops]
      rfl
    · rw [hops] at hk
      cases hk
  · intro tr s l s' es _ hi hC hs
    exact hi.step hB hC hs

end Context

/-- The names a sequence of calls has inserted, and the calls that have returned OK
for them. -/
def insertsAndCommit (names : List Slice) : List ContextOp :=
  names.map (fun name => .insert name (.returned .ok)) ++ [.commit (.returned .ok)]

theorem fails_of_mem_insertsAndCommit {names : List Slice} {op : ContextOp}
    (hop : op ∈ insertsAndCommit names) : op.fails = false := by
  rcases List.mem_append.mp hop with hop | hop
  · obtain ⟨name, -, rfl⟩ := List.mem_map.mp hop
    rfl
  · rw [List.mem_singleton.mp hop]
    rfl

/-! ## A batch from beginning to end

When all has returned OK, all has been accepted and nothing is left in a buffer, so what was
delivered is what was accepted. -/

/-- The servers have the names that were inserted for them. -/
theorem Context.Orderly.delivered_eq {tr : List (Sent MkflsRequest)} {s : Context WriBuf}
    (hi : s.Orderly h tr) {names : List Slice} (hops : s.ops = insertsAndCommit names) {i : Nat}
    (hlt : i < h.srvs) : delivered i tr = names.filter fun name => h.servers.select name = i := by
  have hok : ∀ op ∈ s.ops, op.fails = false := fun op hop => fails_of_mem_insertsAndCommit (hops ▸ hop)
  have hlast : s.ops[names.length]? = some (.commit (.returned .ok)) := by
    rw [hops, insertsAndCommit, List.getElem?_append_right (by simp)]
    simp
  have hnil : (s.bufs i).names = [] := by
    refine hi.emptied hlast (by simp [hops, insertsAndCommit]) (fun l hl op hop => ?_) hlt rfl
    rw [hops, insertsAndCommit, List.getElem?_append_left (by simpa using hl)] at hop
    obtain ⟨name, -, rfl⟩ := List.mem_map.mp (List.mem_of_getElem? hop)
    rfl
  have hsent := hi.sent hok i
  rw [hnil, List.append_nil] at hsent
  rw [hsent, Context.acceptedFor, hops, insertsAndCommit, List.filterMap_append,
    List.filterMap_map]
  congr 1
  simp [Function.comp_def, ContextOp.accepted]

/-- **A batch that is filled and committed.** In every run of inserts and commits,
one after the other, of names that are not empty and fit the prefix of their
length, from any counts of the buffers: when inserts and then a commit have all
returned OK, each server has decoded exactly the names routed to it, in order; no
request carries more names than there is room for; and when one of the inserts or
the first commit has failed, so has every later call. -/
theorem batch_in_order (h : Handle) (hB : h.batchSize.toNat < 2 ^ 32)
    {tr : List (Sent MkflsRequest)} {s : Context WriBuf}
    (hr : (contextSystem h.servers (batchSink h) WriBuf.Fresh).Run
      (fun s l => s.OneByOne Insertable l) tr s) :
    (∀ names : List Slice, s.ops = insertsAndCommit names → ∀ i < h.srvs,
      delivered i tr = names.filter fun name => h.servers.select name = i) ∧
    (∀ x ∈ tr, x.req.names.length ≤ max 1 h.batchSize.toNat) ∧
    ∀ (j k : Nat) (op op' : ContextOp) (st st' : Status), j < k → s.ops[j]? = some op →
      s.ops[k]? = some op' → op.result = some st → op'.result = some st' → st ≠ .ok →
      s.NoCommitBefore j → st' ≠ .ok := by
  have hi := Context.run_orderly hB hr
  refine ⟨fun _ hops _ hlt => hi.delivered_eq hops hlt, hi.requests, ?_⟩
  intro j k op op' st st' hjk hj hk hres hres' hst hno
  have href := (hi.strict.failed j op st hj hres hst hno).2 k op' hjk hk
  rintro rfl
  rcases op' with ⟨x, pc⟩ | pc <;> cases pc <;> cases hres' <;> cases href

/-- An insert of one name by call `k`. -/
def insertAlone (k : Nat) (name : Slice) : List (ContextLabel Status) :=
  [.insert name, .advance k .ok, .advance k .ok, .advance k .ok]

/-- A commit to one server by call `k`. -/
def commitAlone (k : Nat) : List (ContextLabel Status) :=
  [.commit, .advance k .ok, .advance k .ok, .advance k .ok, .advance k .ok]

/-- `batch_in_order` for two names in batches of one, with counts that start
at 7: the first request carries nothing. -/
theorem batch_in_order_twoNames :
    let h : Handle := { oneServer with batchSize := 1 }
    ∃ tr s, (contextSystem h.servers (batchSink h) WriBuf.Fresh).Run
      (fun s l => s.OneByOne Insertable l) tr s ∧
      s.ops = insertsAndCommit [str "a", str "b"] ∧ delivered 0 tr = [str "a", str "b"] := by
  intro h
  have hops : ((contextSystem h.servers (batchSink h) WriBuf.Fresh).exec
      (fun s l => decide (s.OneByOne Insertable l)) (emptyContext ⟨[], 7⟩)
      (insertAlone 0 (str "a") ++ insertAlone 1 (str "b") ++ commitAlone 2)).map
        (fun p => p.1.ops) = some (insertsAndCommit [str "a", str "b"]) := by decide +kernel
  obtain ⟨⟨s, tr⟩, hp, hops⟩ := Option.map_eq_some_iff.mp hops
  have hinit : (contextSystem h.servers (batchSink h) WriBuf.Fresh).init
      (emptyContext ⟨[], 7⟩) := ⟨rfl, rfl, rfl, fun _ => rfl⟩
  have hrun := Run.exec (C := fun s l => s.OneByOne Insertable l)
    (fun _ _ hd => of_decide_eq_true hd) (.init hinit) hp
  have hB : h.batchSize.toNat < 2 ^ 32 := by decide
  refine ⟨_, _, hrun, hops, ?_⟩
  rw [(batch_in_order h hB hrun).1 _ hops 0 (by decide)]
  decide +kernel

/-- There is one server to select. -/
theorem oneServer_select (name : Slice) : oneServer.servers.select name = 0 :=
  Nat.lt_one_iff.mp (oneServer.servers.select_lt name)

/-- A name whose length does not fit the prefix is decoded as the empty name. -/
theorem long_name_decodes {name : Slice} (hlen : name.length = 2 ^ 32) :
    decodeNames 1 (putLengthPrefixedSlice [] name) = [[]] := by
  have hzero : UInt32.ofNat name.length = 0 := by
    rw [hlen]
    rfl
  have henc : encodeVarint32 0 = [0] := by decide
  rw [putLengthPrefixedSlice, hzero, henc, List.nil_append]
  rfl

/-- The run that inserts and commits one name. -/
theorem insertOne_exec (b : UInt8) (bs : Slice) :
    ∃ p, (contextSystem oneServer.servers (batchSink oneServer) WriBuf.Fresh).exec
      (fun s l => decide (s.OneByOne (fun name => name ≠ []) l)) (emptyContext ⟨[], 0⟩)
      (insertAlone 0 (b :: bs) ++ commitAlone 1) = some p ∧
      p.1.ops = insertsAndCommit [b :: bs] ∧
      delivered 0 p.2 = decodeNames 1 (putLengthPrefixedSlice [] (b :: bs)) := by
  have hsrvs : oneServer.servers.srvs = 1 := rfl
  have hbatch : oneServer.batchSize.toNat = 16 := rfl
  have hsend : oneServer.send .ok = .ok := rfl
  simp [hsrvs, hbatch, hsend, oneServer_select, insertAlone, commitAlone, exec, contextSystem,
    Context.step, Context.OneByOne, emptyContext, Context.insertStep, Context.commitStep,
    Context.put, Context.setBg, batchSink, mkfls1, Handle.mustFlush, WriBuf.append,
    ContextOp.finished, insertsAndCommit, delivered, MkflsRequest.names]
  exact decide_eq_true trivial

/-- A name of `2^32` bytes is lost: the server stores the empty name instead. -/
theorem batch_long_name :
    ¬ ∀ h : Handle, h.batchSize.toNat < 2 ^ 32 → ∀ (tr : List (Sent MkflsRequest))
      (s : Context WriBuf), (contextSystem h.servers (batchSink h) WriBuf.Fresh).Run
        (fun s l => s.OneByOne (fun name => name ≠ []) l) tr s →
      ∀ names : List Slice, s.ops = insertsAndCommit names → ∀ i < h.srvs,
        delivered i tr = names.filter fun name => h.servers.select name = i := by
  intro hall
  obtain ⟨bs, hlen⟩ : ∃ bs : Slice, ((97 : UInt8) :: bs).length = 2 ^ 32 :=
    ⟨List.replicate (2 ^ 32 - 1) 97, by rw [List.length_cons, List.length_replicate]; rfl⟩
  obtain ⟨⟨s, tr⟩, hp, hops, hdel⟩ := insertOne_exec 97 bs
  have hinit : (contextSystem oneServer.servers (batchSink oneServer) WriBuf.Fresh).init
      (emptyContext ⟨[], 0⟩) := ⟨rfl, rfl, rfl, fun _ => rfl⟩
  have hrun := Run.exec (C := fun s l => s.OneByOne (fun name => name ≠ []) l)
    (fun _ _ hd => of_decide_eq_true hd) (.init hinit) hp
  have hB : oneServer.batchSize.toNat < 2 ^ 32 := by decide
  have hsent := hall oneServer hB _ _ hrun _ hops 0 Nat.one_pos
  dsimp only at hdel
  rw [List.nil_append, hdel, long_name_decodes hlen] at hsent
  simp [oneServer_select] at hsent

end DeltaFs
