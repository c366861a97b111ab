import DeltaFs.Outcomes

/-!
# The log of a run

What the events of a run say: the log is well-formed, it holds the invocation
and the reply of every operation, and what an operation has touched so far
follows from where it has got to (`Op.Touched`). A section adds to the touches
of its own operation only, so this is kept by every move (`Move.touched`), and
once the operation has returned its touches are an `Outcome` of its reply.

`creates_linearizable`, in `Linear.lean`, is read off this log.
-/

namespace DeltaFs

open Linearization TransitionSystem

/-! ## What an operation has touched so far

`Op.Touched` is the invariant of one operation. It says what its touches are from the place
it has got to: none before the calls on the db, as many entries as a batch has put, and an
`Outcome` once the reply is settled. -/

/-- A batch before its loop. -/
def Op.Begun (op : Op) : Prop :=
  op.m = 0 ∧ ∀ namearr mode n, op.call.req = .mkfls namearr mode n → op.input = namearr ∧ op.n = n

/-- A batch in its loop: it has put the first `m` names, and the rest of the
array holds the others. -/
def Op.Progress (op : Op) : Prop :=
  (op.call.names = [] → op.m = 0) ∧
    ∀ namearr mode n, op.call.req = .mkfls namearr mode n →
      op.n = n ∧ op.m ≤ op.call.names.length ∧
        op.call.names.drop op.m = decodeNames (op.n.toNat - op.m) op.input

/-- What operation `i` has touched so far. -/
def Op.Touched (fs : Filesystem) (C : Filesystem.State → Filesystem.Label → Prop) (i : Nat)
    (op : Op) (es : List Touch) : Prop :=
  match op.pc with
  | .running =>
    op.Progress ∧ es = creates op.call.dirId op.stat op.startino (op.call.names.take op.m)
  | .putting name rest =>
    op.Progress ∧ es = creates op.call.dirId op.stat op.startino (op.call.names.take op.m) ∧
      (op.call.name? = some name ∧ op.call.isLookup = false ∨
        ∃ namearr mode n, op.call.req = .mkfls namearr mode n ∧
          Filesystem.nextName op = some (name, rest) ∧
          op.stat.inodeNo = op.startino + UInt64.ofNat op.m)
  | .unlocking st => fs.Outcome C i op.call op.startino (op.reply st) es
  | .leaving st => fs.Outcome C i op.call op.startino (op.reply st) es
  | .done st => fs.Outcome C i op.call op.startino (op.reply st) es
  | _ => op.Begun ∧ es = []

theorem Op.Begun.progress {op : Op} (h : op.Begun) : op.Progress := by
  obtain ⟨hm, hb⟩ := h
  refine ⟨fun _ => hm, fun namearr mode n hreq => ?_⟩
  obtain ⟨hin, hn⟩ := hb _ _ _ hreq
  refine ⟨hn, by rw [hm]; exact Nat.zero_le _, ?_⟩
  rw [hm, List.drop_zero, Call.names, hreq, hn, hin]
  rfl

theorem Op.Touched.new (fs : Filesystem) (C : Filesystem.State → Filesystem.Label → Prop) (i : Nat)
    (c : Call) (stat : Stat) : (Op.new c stat).Touched fs C i [] := by
  refine ⟨⟨rfl, fun namearr mode n hreq => ?_⟩, rfl⟩
  have hreq : c.req = .mkfls namearr mode n := hreq
  simp [Op.new, hreq]

/-- The next name of a batch is the next one of its names. -/
theorem Op.Progress.next {op : Op} (hp : op.Progress) {namearr name rest : Slice} {mode n : UInt32}
    (hreq : op.call.req = .mkfls namearr mode n)
    (hnext : Filesystem.nextName op = some (name, rest)) :
    op.call.names[op.m]? = some name ∧
      op.call.names.drop (op.m + 1) = decodeNames (op.n.toNat - (op.m + 1)) rest := by
  obtain ⟨hn, hm, hdrop⟩ := hp.2 _ _ _ hreq
  rw [Filesystem.nextName] at hnext
  split at hnext
  · rename_i hlt
    have hsub : op.n.toNat - op.m = op.n.toNat - (op.m + 1) + 1 := by omega
    rw [hsub, decodeNames, hnext] at hdrop
    have hget := congrArg List.head? hdrop
    rw [List.head?_drop] at hget
    refine ⟨hget, ?_⟩
    rw [← List.tail_drop, hdrop]
    rfl
  · cases hnext

/-- A batch that runs out of names has put them all. -/
theorem Op.Progress.finish {op : Op} (hp : op.Progress) {namearr : Slice} {mode n : UInt32}
    (hreq : op.call.req = .mkfls namearr mode n) (hnext : Filesystem.nextName op = none) :
    op.m = op.call.names.length := by
  obtain ⟨hn, hm, hdrop⟩ := hp.2 _ _ _ hreq
  have hnil : decodeNames (op.n.toNat - op.m) op.input = [] := by
    rw [Filesystem.nextName] at hnext
    split at hnext
    · rename_i hlt
      have hsub : op.n.toNat - op.m = op.n.toNat - (op.m + 1) + 1 := by omega
      rw [hsub, decodeNames, hnext]
    · rename_i hge
      have hsub : op.n.toNat - op.m = 0 := by omega
      rw [hsub]
      rfl
  rw [hnil] at hdrop
  exact Nat.le_antisymm hm (List.drop_eq_nil_iff.mp hdrop)

/-- The count of a batch fits its type. -/
theorem Op.Progress.toNat_ofNat {op : Op} (hp : op.Progress) {namearr : Slice} {mode n : UInt32}
    (hreq : op.call.req = .mkfls namearr mode n) : (UInt32.ofNat op.m).toNat = op.m := by
  obtain ⟨hn, hm, -⟩ := hp.2 _ _ _ hreq
  have hlen : op.call.names.length ≤ n.toNat := by
    rw [Call.names, hreq]
    exact length_decodeNames_le ..
  have hlt := n.toNat_lt
  rw [UInt32.toNat_ofNat', Nat.mod_eq_of_lt (by omega)]

namespace Filesystem

variable {fs : Filesystem} {C : State → Label → Prop} {s s' : State} {i : Nat} {op op' op₁ : Op}
  {e : Env} {name rest : Slice} {es : List Touch}

/-! ## How an operation ends

One lemma for each way an operation can stop. They say which outcome it has then, and for a
failure what is to blame, which is a check or a fault of the very section that stops it. -/

/-- How a read of the chain can end. -/
theorem dbGet_status (dbs : List Db) (id : DirId) (name : Slice) (faults : Nat → Option Slice)
    (stat : Stat) :
    (dbGet dbs id name faults stat).1 = .ok ∨ (dbGet dbs id name faults stat).1 = .err .notFound [] ∨
      ((dbGet dbs id name faults stat).1 = .err .corruption [] ∧
        ∃ value, firstMatch dbs (entryKey id name) = some value ∧ Stat.decodeFrom value = none) ∨
      ∃ k msg, k < dbs.length ∧ faults k = some msg ∧
        (dbGet dbs id name faults stat).1 = .err .ioError msg := by
  by_cases hnil : dbs = []
  · rw [hnil]
    exact .inl rfl
  · have hr := dbGet_result hnil id name faults stat
    generalize dbGet dbs id name faults stat = r at hr
    cases hr with
    | found h => exact .inl rfl
    | notFound h => exact .inr (.inl rfl)
    | corruption h hdec => exact .inr (.inr (.inl ⟨rfl, _, h, hdec⟩))
    | ioError hk hmsg => exact .inr (.inr (.inr ⟨_, _, hk, hmsg, rfl⟩))

/-- An operation that a check refuses has touched nothing. -/
theorem outcome_refused {c : Call} {st : Status} (ino : UInt64) {r : Reply} (hst : r.status = st)
    (h : fs.Refused C i c st) : fs.Outcome C i c ino r [] := by
  obtain ⟨who, parent, req⟩ := c
  obtain ⟨msg, hcode⟩ := h.code
  rcases hcode with rfl | rfl
  · cases req <;> simp [Outcome, batchOutcome, createOutcome, lokupOutcome, lstatOutcome, hst, h]
  · cases req <;> simp [Outcome, batchOutcome, createOutcome, lokupOutcome, lstatOutcome, hst, h]

/-- Only a batch has a list of names. -/
theorem creates_nil {c : Call} (h : ∀ namearr mode n, c.req ≠ .mkfls namearr mode n) (id : DirId)
    (stat : Stat) (ino : UInt64) (m : Nat) : creates id stat ino (c.names.take m) = [] := by
  have hnil : c.names = [] := by
    rw [Call.names]
    split
    · rename_i hreq
      exact absurd hreq (h _ _ _)
    · rfl
  rw [hnil, List.take_nil]
  rfl

/-- What a batch replies when it stops after `m` names. -/
theorem reply_stop {namearr : Slice} {mode k : UInt32} (hreq : op.call.req = .mkfls namearr mode k)
    (st : Status) : (stop op st).reply st = ⟨st, op.stat, op.look, UInt32.ofNat op.m⟩ := by
  simp [stop, Op.reply, hreq]

/-- `op` is about to put `name`: its only name, or the next one of a batch. -/
def IsNext (op : Op) (name : Slice) : Prop :=
  (op.call.name? = some name ∧ op.call.isLookup = false) ∨
    ∃ namearr mode n, op.call.req = .mkfls namearr mode n ∧ op.call.names[op.m]? = some name

theorem Next.isNext (hn : Next op op₁ name rest) (hp : op.Progress) : IsNext op₁ name := by
  cases hn with
  | single hname hlook => exact .inl ⟨hname, hlook⟩
  | batch hreq hnext => exact .inr ⟨_, _, _, hreq, (hp.next hreq hnext).1⟩

theorem Next.progress (hn : Next op op₁ name rest) (hp : op.Progress) : op₁.Progress := by
  cases hn with
  | single hname hlook => exact hp
  | batch hreq hnext => exact hp

/-- The number of the next name is no part of what has been put. -/
theorem Next.creates_eq (hn : Next op op₁ name rest) :
    creates op₁.call.dirId op₁.stat op₁.startino (op₁.call.names.take op₁.m) =
      creates op.call.dirId op.stat op.startino (op.call.names.take op.m) := by
  cases hn with
  | single hname hlook => rfl
  | batch hreq hnext => exact creates_setInodeNo ..

/-- Why a create stops before its next name: the db fails, or the record of the
name is damaged. -/
inductive Failing (fs : Filesystem) (C : State → Label → Prop) (i : Nat) (c : Call) (name : Slice) :
    Status → Prop where
  | fault {st : Status} : fs.Faulted C i c st → Failing fs C i c name st
  | corrupt : fs.Corrupted C i c name → Failing fs C i c name (.err .corruption [])

/-- **A create stops at its next name.** A batch leaves the names before it, as its
count says; a single create leaves nothing. The reason is a check or a db call of the
operation itself. -/
theorem outcome_failed {st : Status} (hp : op.Progress) (hnext : IsNext op name)
    (hes : es = creates op.call.dirId op.stat op.startino (op.call.names.take op.m))
    (hf : Failing fs C i op.call name st) :
    fs.Outcome C i op.call op.startino ((stop op st).reply st) es := by
  rcases hnext with ⟨hname, hlook⟩ | ⟨namearr, mode, n, hreq, hget⟩
  · have hone : ∀ r : Reply, r.status = st → es = [] → fs.createOutcome C i op.call name r es := by
      rintro r hr rfl
      cases hf with
      | fault h =>
        obtain ⟨msg, rfl⟩ := h.code
        simp only [createOutcome, hr]
        exact ⟨trivial, .inr h⟩
      | corrupt h =>
        simp only [createOutcome, hr]
        exact ⟨trivial, h⟩
    rcases Call.single_cases hname hlook with ⟨mode, hreq⟩ | ⟨mode, hreq⟩
    · rw [creates_nil (by simp [hreq])] at hes
      simp only [Outcome, hreq]
      exact hone _ rfl hes
    · rw [creates_nil (by simp [hreq])] at hes
      simp only [Outcome, hreq]
      exact hone _ rfl hes
  · have hlt : op.m < op.call.names.length := (List.getElem?_eq_some_iff.mp hget).1
    simp only [Outcome, hreq]
    rw [reply_stop hreq]
    cases hf with
    | fault h =>
      obtain ⟨msg, rfl⟩ := h.code
      simp only [batchOutcome, hp.toNat_ofNat hreq]
      exact .inr ⟨hlt, h, hes⟩
    | corrupt h =>
      simp only [batchOutcome, hp.toNat_ofNat hreq]
      exact ⟨name, hget, h, hes⟩

/-- An operation that stops because a name exists. -/
theorem outcome_collided (hn : Next op op₁ name rest) (hp : op.Progress)
    (hes : es = creates op.call.dirId op.stat op.startino (op.call.names.take op.m)) :
    fs.Outcome C i op₁.call op₁.startino
      ((stop op₁ (.err .alreadyExists name)).reply (.err .alreadyExists name))
      (es ++ [.collided op.call.dirId name]) := by
  cases hn with
  | single hname hlook =>
    rcases Call.single_cases hname hlook with ⟨mode, hreq⟩ | ⟨mode, hreq⟩
    · simp only [Outcome, hreq, createOutcome, Op.reply]
      rw [hes, creates_nil (by simp [hreq]), List.nil_append]
      exact ⟨trivial, rfl⟩
    · simp only [Outcome, hreq, createOutcome, Op.reply]
      rw [hes, creates_nil (by simp [hreq]), List.nil_append]
      exact ⟨trivial, rfl⟩
  | batch hreq hnext =>
    have hreq' : op.setInodeNo.call.req = _ := hreq
    rw [reply_stop hreq']
    simp only [Outcome, hreq']
    refine ⟨?_, ?_⟩
    · dsimp only [Op.setInodeNo]
      rw [hp.toNat_ofNat hreq]
      exact (hp.next hreq hnext).1
    · dsimp only [Op.setInodeNo]
      rw [hp.toNat_ofNat hreq, creates_setInodeNo, hes]

/-- A batch that has put all its names. -/
theorem outcome_finished {namearr : Slice} {mode n : UInt32}
    (hreq : op.call.req = .mkfls namearr mode n) (hnext : nextName op = none) (hp : op.Progress)
    (hes : es = creates op.call.dirId op.stat op.startino (op.call.names.take op.m)) :
    fs.Outcome C i op.call op.startino ((stop op .ok).reply .ok) es := by
  rw [reply_stop hreq]
  simp only [Outcome, hreq, batchOutcome]
  rw [hp.toNat_ofNat hreq, hes, hp.finish hreq hnext, List.take_length]
  exact ⟨rfl, rfl⟩

variable (fs) in
/-- A single create whose name has been put. -/
theorem outcome_put (rest : Slice) (hname : op.call.name? = some name) (hlook : op.call.isLookup = false)
    (hes : es = creates op.call.dirId op.stat op.startino (op.call.names.take op.m)) :
    fs.Outcome C i op.call op.startino ((putDone op rest).reply .ok)
        (es ++ [.created op.call.dirId name op.stat]) ∧ (putDone op rest).pc = .unlocking .ok := by
  rcases Call.single_cases hname hlook with ⟨mode, hreq⟩ | ⟨mode, hreq⟩
  · rw [hes, creates_nil (by simp [hreq]), List.nil_append]
    simp [Outcome, hreq, createOutcome, Op.reply, putDone, stop]
  · rw [hes, creates_nil (by simp [hreq]), List.nil_append]
    simp [Outcome, hreq, createOutcome, Op.reply, putDone, stop]

variable (fs) in
/-- What a lookup has touched when it has read: what the read found, if no db
failed. -/
theorem outcome_read (hname : op.call.name? = some name) (hlook : op.call.isLookup = true)
    (hpc : op.pc = .reading) (htook : Took C i op.call s op e) :
    ∃ st, (fs.read s op name e).1.pc = .leaving st ∧
      fs.Outcome C i op.call (fs.read s op name e).1.startino ((fs.read s op name e).1.reply st)
        (fs.read s op name e).2 := by
  have hfault : ∀ {k msg}, k < (fs.dbs s).length → e.faults k = some msg →
      fs.Faulted C i op.call (.err .ioError msg) :=
    fun hk hmsg => .read htook (.inr hpc) hk hmsg
  have hcorrupt : ∀ {value}, firstMatch (fs.dbs s) (entryKey op.call.dirId name) = some value →
      Stat.decodeFrom value = none → fs.Corrupted C i op.call name :=
    fun hv hdec => ⟨s, op, e, _, htook, .inr hpc, hv, hdec⟩
  have hst := dbGet_status (fs.dbs s) op.call.dirId name e.faults op.stat
  rcases Call.lookup_cases hname hlook with hreq | hreq
  · simp only [read, hreq, Outcome]
    generalize dbGet (fs.dbs s) op.call.dirId name e.faults op.stat = r at hst
    obtain ⟨st, stat⟩ := r
    rcases hst with hst | hst | ⟨hst, value, hv, hdec⟩ | ⟨k, msg, hk, hmsg, hst⟩ <;> cases hst
    · by_cases hdir : isDir stat.fileMode = true
      · simp [hdir, lokupOutcome, Op.reply]
      · simp [hdir, lokupOutcome, Op.reply]
    · simp [Status.isOk, lokupOutcome, Op.reply]
    · simp [Status.isOk, lokupOutcome, Op.reply, hcorrupt hv hdec]
    · simp [Status.isOk, lokupOutcome, Op.reply, hfault hk hmsg]
  · simp only [read, hreq, Outcome]
    generalize dbGet (fs.dbs s) op.call.dirId name e.faults op.stat = r at hst
    obtain ⟨st, stat⟩ := r
    rcases hst with hst | hst | ⟨hst, value, hv, hdec⟩ | ⟨k, msg, hk, hmsg, hst⟩ <;> cases hst
    · simp [lstatOutcome, Op.reply]
    · simp [lstatOutcome, Op.reply]
    · simp [lstatOutcome, Op.reply, hcorrupt hv hdec]
    · simp [lstatOutcome, Op.reply, hfault hk hmsg]

/-- What a lookup touches. -/
theorem read_touches (fs : Filesystem) (s : State) (op : Op) (name : Slice) (e : Env) :
    (fs.read s op name e).2 =
      match (dbGet (fs.dbs s) op.call.dirId name e.faults op.stat).1 with
      | .ok => [.looked op.call.dirId name
          (some (dbGet (fs.dbs s) op.call.dirId name e.faults op.stat).2)]
      | .err .notFound _ => [.looked op.call.dirId name none]
      | .err .corruption _ => [.looked op.call.dirId name none]
      | .err _ _ => [] := by
  rw [Filesystem.read]
  split
  · split
    · split <;> rfl
    · rfl
  · rfl

/-! ## One section

`Move.touched` puts these together, move by move. Only a collision check that finds something,
a put and the read of a lookup touch an entry. -/

/-- The batch goes on, or waits for a way. -/
theorem touched_locked (hb : op.Begun) (hes : es = []) (j : Nat) :
    ({ op with pc := if j = op.call.ways.2 then .running else .waiting j } : Op).Touched fs C i es := by
  by_cases hj : j = op.call.ways.2
  · rw [if_pos hj]
    refine ⟨hb.progress, ?_⟩
    dsimp only
    rw [hb.1, hes]
    rfl
  · rw [if_neg hj]
    exact ⟨hb, hes⟩

/-- Names are put only by operations in the loop of a batch, or by single
creates. -/
theorem touched_putting (hn : Next op op₁ name rest) (hp : op.Progress)
    (hes : es = creates op.call.dirId op.stat op.startino (op.call.names.take op.m)) :
    ({ op₁ with pc := .putting name rest } : Op).Touched fs C i es := by
  have hes' := hes.trans hn.creates_eq.symm
  cases hn with
  | single hname hlook => exact ⟨hp, hes', .inl ⟨hname, hlook⟩⟩
  | batch hreq hnext => exact ⟨hp, hes', .inr ⟨_, _, _, hreq, hnext, rfl⟩⟩

/-- What a create is about to put is its next name. -/
theorem Op.Touched.isNext (ht : op.Touched fs C i es) (hpc : op.pc = .putting name rest) :
    op.Progress ∧ es = creates op.call.dirId op.stat op.startino (op.call.names.take op.m) ∧
      IsNext op name := by
  rw [Op.Touched, hpc] at ht
  obtain ⟨hp, hes, h | ⟨namearr, mode, n, hreq, hnext, -⟩⟩ := ht
  · exact ⟨hp, hes, .inl h⟩
  · exact ⟨hp, hes, .inr ⟨namearr, mode, n, hreq, (hp.next hreq hnext).1⟩⟩

/-- **A name has been put**: a batch goes on, a single create is over. Either way the
touches so far, with this one, are those its reply would explain. -/
theorem touched_put (ht : op.Touched fs C i es) (hpc : op.pc = .putting name rest) :
    (putDone op rest).Touched fs C i (es ++ [.created op.call.dirId name op.stat]) ∧
      ∀ st, (putDone op rest).pc ≠ .done st := by
  rw [Op.Touched, hpc] at ht
  obtain ⟨hp, hes, ⟨hname, hlook⟩ | ⟨namearr, mode, n, hreq, hnext, hino⟩⟩ := ht
  · obtain ⟨hout, hpc'⟩ := fs.outcome_put (C := C) (i := i) rest hname hlook hes
    have hframe : (putDone op rest).call = op.call ∧ (putDone op rest).startino = op.startino := by
      rw [putDone]
      split <;> exact ⟨rfl, rfl⟩
    refine ⟨?_, by simp [hpc']⟩
    rw [Op.Touched, hpc', hframe.1, hframe.2]
    exact hout
  · obtain ⟨hget, hdrop⟩ := hp.next hreq hnext
    have hlt : op.m < op.call.names.length := (List.getElem?_eq_some_iff.mp hget).1
    have hput : putDone op rest = { op with m := op.m + 1, input := rest, pc := .running } := by
      rw [putDone]
      simp only [hreq]
    rw [hput]
    refine ⟨⟨⟨fun hnil => ?_, fun a b c h => ⟨(hp.2 _ _ _ h).1, hlt, hdrop⟩⟩, ?_⟩, by simp⟩
    · have hnil : op.call.names = [] := hnil
      rw [hnil] at hlt
      cases hlt
    · have hstat : ({ op.stat with inodeNo := op.startino + UInt64.ofNat op.m } : Stat) = op.stat := by
        rw [← hino]
      dsimp only
      rw [creates_take_succ _ _ _ hget, hstat, hes]

/-- The read of `CheckAndPut` failed. -/
theorem failing_read (htook : Took C i op.call s op e) (hpc : op.pc = .running)
    (hn : Next op op₁ name rest) (hok : nameRead fs s op₁ name e ≠ .ok)
    (hnf : (nameRead fs s op₁ name e).isNotFound = false) :
    Failing fs C i op₁.call name (nameRead fs s op₁ name e) := by
  have hcall : op₁.call = op.call := hn.frame.1
  rw [nameRead] at hok hnf ⊢
  rcases dbGet_status (fs.dbs s) op₁.call.dirId name e.faults op₁.stat with
    h | h | ⟨h, value, hv, hdec⟩ | ⟨k, msg, hk, hmsg, h⟩
  · exact absurd h hok
  · rw [h] at hnf
    cases hnf
  · rw [h, hcall]
    rw [hcall] at hv
    exact .corrupt ⟨s, op, e, value, htook, .inl hpc, hv, hdec⟩
  · rw [h, hcall]
    exact .fault (.read htook (.inl hpc) hk hmsg)

/-- **What a move adds to the touches of an operation**, and to the log: touches
of its own while it goes on, or its reply when it returns. -/
theorem Move.touched {evs : List FsEvent} (hm : Move fs s i op e s' op' evs)
    (hb : Blocks fs s.table s.ops) (hk : s.ops[i]? = some op) (hC : C s (.advance i e))
    (ht : op.Touched fs C i es) :
    (∃ ts : List Touch, evs = ts.map (.pt i) ∧ op'.Touched fs C i (es ++ ts) ∧
      (∀ st, op.pc ≠ .done st) ∧ ∀ st, op'.pc ≠ .done st) ∨
    ∃ st, evs = [.ret i (op'.reply st)] ∧ op'.Touched fs C i es ∧ op'.pc = .done st ∧
      ∀ st, op.pc ≠ .done st := by
  have htook : Took C i op.call s op e := ⟨hC, hk, rfl⟩
  have hplaced := hb.placed hk
  have hquiet : ∀ {o : Op}, (∀ st, op.pc ≠ .done st) → (∀ st, o.pc ≠ .done st) →
      o.Touched fs C i es →
      ∃ ts : List Touch, ([] : List FsEvent) = ts.map (.pt i) ∧ o.Touched fs C i (es ++ ts) ∧
        (∀ st, op.pc ≠ .done st) ∧ ∀ st, o.pc ≠ .done st := by
    intro o h h' ho
    exact ⟨[], rfl, by rwa [List.append_nil], h, h'⟩
  -- sections before the body touch nothing: the reads and writes so far stand
  cases hm with
  | @acquire t p hpc hacq =>
    rw [Op.Touched, hpc] at ht
    obtain ⟨⟨hm₀, hbegun⟩, hes⟩ := ht
    refine .inl (hquiet (by simp [hpc]) (by simp) ⟨⟨?_, ?_⟩, hes⟩)
    · simp only [reserve]
      split <;> exact hm₀
    · simp only [reserve]
      split <;> exact hbegun
  -- refused before anything was touched: the check that failed names the status
  | @refuse st hpc hr =>
    rw [Op.Touched, hpc] at ht
    refine .inl (hquiet (by simp [hpc]) (by simp) ?_)
    rw [ht.2]
    exact outcome_refused _ rfl (.check htook hpc hr)
  | pass hpc hr =>
    rw [Op.Touched, hpc] at ht
    exact .inl (hquiet (by simp [hpc]) (by simp) ht)
  | misplaced hpc hp hd hno =>
    rw [Op.Touched, hpc] at ht
    rw [hb.index hk hp hd] at hno
    refine .inl (hquiet (by simp [hpc]) (by simp) ?_)
    rw [ht.2]
    exact outcome_refused _ rfl (.partition hno)
  | enterRead hpc hp hd hok hlook =>
    rw [Op.Touched, hpc] at ht
    exact .inl (hquiet (by simp [hpc]) (by simp) ht)
  | @lockFirst p d busy j hpc hp hd hok hlook hlock =>
    rw [Op.Touched, hpc] at ht
    exact .inl (hquiet (by simp [hpc]) (by dsimp only; split <;> simp) (touched_locked ht.1 ht.2 j))
  | @lockMore p d k busy j hpc hp hd hfree hlock =>
    rw [Op.Touched, hpc] at ht
    exact .inl (hquiet (by simp [hpc]) (by dsimp only; split <;> simp) (touched_locked ht.1 ht.2 j))
  | @bulk d db hpc hreq hdb =>
    rw [Op.Touched, hpc] at ht
    refine .inl (hquiet (by simp [hpc]) (by simp [stop]) ?_)
    have hreq' : (stop op e.bulk.1).call.req = .bukin d := hreq
    simp only [Op.Touched, stop, Outcome, hreq]
    rw [ht.2, creates_nil (by simp [hreq])]
  -- the body of the call ends with what the points so far add up to
  | finish hpc hreq hnext =>
    rw [Op.Touched, hpc] at ht
    refine .inl (hquiet (by simp [hpc]) (by simp [stop]) ?_)
    exact outcome_finished hreq hnext ht.1 ht.2
  | @collide op₁ name rest hpc hn hskip hread =>
    rw [Op.Touched, hpc] at ht
    refine .inl ⟨[.collided op.call.dirId name], rfl, ?_, by simp [hpc], by simp [stop]⟩
    exact outcome_collided hn ht.1 ht.2
  | @fail op₁ name rest hpc hn hok hnf =>
    rw [Op.Touched, hpc] at ht
    obtain ⟨hp, hes⟩ := ht
    refine .inl (hquiet (by simp [hpc]) (by simp [stop]) ?_)
    exact outcome_failed (hn.progress hp) (hn.isNext hp) (hes.trans hn.creates_eq.symm)
      (failing_read htook hpc hn hok hnf)
  | clear hpc hn hread =>
    rw [Op.Touched, hpc] at ht
    exact .inl (hquiet (by simp [hpc]) (by simp) (touched_putting hn ht.1 ht.2))
  | @put name rest db hpc hdb =>
    obtain ⟨hput, hpc'⟩ := touched_put ht hpc
    exact .inl ⟨[.created op.call.dirId name op.stat], rfl, hput, by simp [hpc], hpc'⟩
  -- the write did not happen: the call ends as after the names before this one
  | @putFail name rest msg db hpc hdb hfault =>
    obtain ⟨hp, hes, hnext⟩ := Op.Touched.isNext ht hpc
    refine .inl (hquiet (by simp [hpc]) (by simp [stop]) ?_)
    exact outcome_failed hp hnext hes (.fault (.put htook hpc hfault))
  | @read name hpc hname =>
    rw [Op.Touched, hpc] at ht
    rw [Op.Placed, hpc] at hplaced
    obtain ⟨st, hpc', hout⟩ := fs.outcome_read hname hplaced hpc htook
    refine .inl ⟨(fs.read s op name e).2, rfl, ?_, by simp [hpc], by simp [hpc']⟩
    rw [ht.2, List.nil_append, Op.Touched, hpc', (read_frame fs s op name e).1]
    exact hout
  | @unlock st p d hpc hp hd =>
    rw [Op.Touched, hpc] at ht
    exact .inl (hquiet (by simp [hpc]) (by simp) ht)
  -- the answer is fixed since the body ended: this section only tells it
  | @leave st p t hpc hp hrel =>
    rw [Op.Touched, hpc] at ht
    exact .inr ⟨st, rfl, ht, rfl, by simp [hpc]⟩

/-! ## The log

`Log` collects what holds of all operations and of the events: a step is one of one operation,
and the others keep what they had. -/

/-- The log of a run under `C` that ends with the operations `ops`. -/
structure Log (fs : Filesystem) (C : State → Label → Prop) (tr : List FsEvent) (ops : List Op) :
    Prop where
  wf : WellFormed tr
  /-- the invocations are those of the operations -/
  inv : ∀ {i : Nat} {c : Call}, .inv i c ∈ tr ↔ ∃ op : Op, ops[i]? = some op ∧ op.call = c
  /-- the replies are those of the operations that are done -/
  ret : ∀ {i : Nat} {r : Reply}, .ret i r ∈ tr ↔
    ∃ (op : Op) (st : Status), ops[i]? = some op ∧ op.pc = .done st ∧ op.reply st = r
  touched : ∀ {i : Nat} {op : Op}, ops[i]? = some op → op.Touched fs C i (entries (points tr) i)

variable {tr : List FsEvent} {ops : List Op}

theorem Log.start (fs : Filesystem) (C : State → Label → Prop) : Log fs C [] [] where
  wf := .nil
  inv := by simp
  ret := by simp
  touched h := by cases h

/-- An operation that has touched something has been invoked. -/
theorem Log.lt_of_mem (hl : Log fs C tr ops) {a : FsEvent} (ha : a ∈ tr) : a.id < ops.length := by
  obtain ⟨c, hc⟩ := hl.wf.invoked ha
  obtain ⟨op, hop, -⟩ := hl.inv.mp hc
  exact (List.getElem?_eq_some_iff.mp hop).1

/-- An operation arrives. -/
theorem Log.push (hl : Log fs C tr ops) (c : Call) (stat : Stat) :
    Log fs C (tr ++ [.inv ops.length c]) (ops ++ [Op.new c stat]) where
  wf := hl.wf.append fun a ha => (hl.lt_of_mem ha).ne
  inv {i c'} := by
    rw [List.mem_append, hl.inv, List.mem_singleton]
    constructor
    · rintro (⟨op, hop, hc⟩ | heq)
      · exact ⟨op, pool_push_old hop, hc⟩
      · cases heq
        exact ⟨_, List.getElem?_concat_length .., rfl⟩
    · rintro ⟨op, hop, rfl⟩
      rcases pool_push hop with ⟨rfl, rfl⟩ | hop
      · exact .inr rfl
      · exact .inl ⟨op, hop, rfl⟩
  ret {i r} := by
    rw [List.mem_append, hl.ret]
    constructor
    · rintro (⟨op, st, hop, h⟩ | heq)
      · exact ⟨op, st, pool_push_old hop, h⟩
      · cases List.mem_singleton.mp heq
    · rintro ⟨op, st, hop, hpc, hr⟩
      rcases pool_push hop with ⟨-, rfl⟩ | hop
      · cases hpc
      · exact .inl ⟨op, st, hop, hpc, hr⟩
  touched {i op} hop := by
    rw [points_append, entries_append]
    rcases pool_push hop with ⟨rfl, rfl⟩ | hop
    · have hnil : entries (points tr) ops.length = [] := by
        rw [List.eq_nil_iff_forall_not_mem]
        intro t ht
        exact (hl.lt_of_mem (mem_entries_points.mp ht)).ne rfl
      rw [hnil]
      exact Op.Touched.new fs C _ c stat
    · exact (List.append_nil _).symm ▸ hl.touched hop

/-- **A move keeps the log.** The operation that has moved has touched what the move shows,
and the others what they had. -/
theorem Log.move {evs : List FsEvent} (hl : Log fs C tr s.ops) (hb : Blocks fs s.table s.ops)
    (hk : s.ops[i]? = some op) (hm : Move fs s i op e s' op' evs) (hC : C s (.advance i e)) :
    Log fs C (tr ++ evs) (s.ops.set i op') := by
  have hcall := hm.call_eq
  have hinv : .inv i op.call ∈ tr := hl.inv.mpr ⟨op, hk, rfl⟩
  have hinv' : ∀ {j : Nat} {c : Call}, (∃ o : Op, s.ops[j]? = some o ∧ o.call = c) ↔
      ∃ o : Op, (s.ops.set i op')[j]? = some o ∧ o.call = c := by
    intro j c
    by_cases hj : j = i
    · subst hj
      rw [pool_set_self hk, hk]
      simp [hcall]
    · rw [pool_set_ne hj]
  have hret' : ∀ {j : Nat} {r : Reply}, j ≠ i →
      ((∃ (o : Op) (st : Status), s.ops[j]? = some o ∧ o.pc = .done st ∧ o.reply st = r) ↔
        ∃ (o : Op) (st : Status), (s.ops.set i op')[j]? = some o ∧ o.pc = .done st ∧
          o.reply st = r) := by
    intro j r hj
    rw [pool_set_ne hj]
  -- an operation that still moves has told no answer
  have hpending : (∀ st, op.pc ≠ .done st) → ∀ r, .ret i r ∉ tr := by
    intro hnd r hr
    obtain ⟨o, st, ho, hpc, -⟩ := hl.ret.mp hr
    obtain rfl := Option.some.inj (hk.symm.trans ho)
    exact hnd st hpc
  rcases hm.touched hb hk hC (hl.touched hk) with ⟨ts, rfl, ht, hnd, hnd'⟩ | ⟨st, rfl, ht, hpc', hnd⟩
  · -- the section touches names: points between the call and its answer
    refine ⟨hl.wf.append_pts hinv (hpending hnd) ts, ?_, ?_, ?_⟩
    · intro j c
      rw [List.mem_append, hl.inv, hinv']
      exact or_iff_left (by simp)
    · intro j r
      rw [List.mem_append, hl.ret, or_iff_left (by simp)]
      by_cases hj : j = i
      · subst hj
        refine iff_of_false ?_ ?_
        · rintro ⟨o, st, ho, hpc, -⟩
          obtain rfl := Option.some.inj (hk.symm.trans ho)
          exact hnd st hpc
        · rintro ⟨o, st, ho, hpc, -⟩
          rw [pool_set_self hk] at ho
          cases ho
          exact hnd' st hpc
      · exact hret' hj
    · intro j o ho
      rw [points_append, entries_append]
      rcases pool_set ho with ⟨rfl, rfl⟩ | ⟨hj, ho⟩
      · rw [entries_pts_self]
        exact ht
      · rw [entries_pts_ne hj, List.append_nil]
        exact hl.touched ho
  · -- the section answers: the last event of the operation
    refine ⟨hl.wf.append ⟨⟨_, hinv⟩, hpending hnd⟩, ?_, ?_, ?_⟩
    · intro j c
      rw [List.mem_append, hl.inv, hinv']
      exact or_iff_left (by simp)
    · intro j r
      rw [List.mem_append, hl.ret, List.mem_singleton]
      by_cases hj : j = i
      · subst hj
        constructor
        · rintro (hr | heq)
          · exact absurd (hl.ret.mpr hr) (hpending hnd r)
          · cases heq
            exact ⟨op', st, pool_set_self hk, hpc', rfl⟩
        · rintro ⟨o, st', ho, hpc, rfl⟩
          rw [pool_set_self hk] at ho
          cases ho
          rw [hpc'] at hpc
          cases hpc
          exact .inr rfl
      · rw [← hret' hj]
        refine or_iff_left fun heq => ?_
        cases heq
        exact hj rfl
    · intro j o ho
      have hnil : points ([.ret i (op'.reply st)] : List FsEvent) = [] := rfl
      rw [points_append, hnil, List.append_nil]
      rcases pool_set ho with ⟨rfl, rfl⟩ | ⟨-, ho⟩
      · exact ht
      · exact hl.touched ho

/-- **The log of every run.** Every reply in it is explained by the touches of its
operation, and every reply that reports a failure by a step the run may have
taken. -/
theorem run_log {db : Option Db} (hr : (fs.system db).Run C tr s) : Log fs C tr s.ops := by
  refine hr.invariant (I := fun tr s => Log fs C tr s.ops) ?_ ?_
  · rintro s rfl
    exact Log.start fs C
  · intro tr s l s' evs hr hl hC hs
    rcases step_cases hs with ⟨c, stat, -, rfl, rfl⟩ | ⟨i, e, op, s₁, op', rfl, hk, hm, rfl⟩
    · exact hl.push c stat
    · dsimp only
      rw [hm.ops_eq]
      exact hl.move (run_blocks hr) hk hm hC

/-- **What an operation has touched so far** is the first names of a batch, or
what a reply would explain. -/
theorem Op.Touched.cases (ht : op.Touched fs C i es) :
    (∃ m, es = creates op.call.dirId op.stat op.startino (op.call.names.take m)) ∨
      ∃ r, fs.Outcome C i op.call op.startino r es := by
  rw [Op.Touched] at ht
  split at ht
  · exact .inl ⟨_, ht.2⟩
  · exact .inl ⟨_, ht.2.1⟩
  · exact .inr ⟨_, ht⟩
  · exact .inr ⟨_, ht⟩
  · exact .inr ⟨_, ht⟩
  · exact .inl ⟨0, ht.2⟩

/-- **An operation touches entries of its directory, under its names.** The same is true
of its outcome; before it has one, the touches are those of the names that are done. -/
theorem Op.Touched.key (ht : op.Touched fs C i es) {t : Touch} (hmem : t ∈ es) :
    ∃ x, op.call.Names x ∧ t.key = (op.call.dirId, x) := by
  rcases Op.Touched.cases ht with ⟨m, rfl⟩ | ⟨r, hout⟩
  · obtain ⟨x, st, hx, rfl⟩ := mem_creates hmem
    exact ⟨x, .inr (List.mem_of_mem_take hx), rfl⟩
  · exact hout.key hmem

/-- **What an operation has touched explains its reply.** The touches of an operation that
has returned are its outcome, and an outcome names the reason if there is no touch. -/
theorem Log.explained (hl : Log fs C tr ops) (hk : ops[i]? = some op) :
    fs.explains C i op.call (response tr i) (entries (points tr) i) := by
  have ht := hl.touched hk
  rcases hr : response tr i with _ | r
  · rcases Op.Touched.cases ht with ⟨m, hes⟩ | hout
    · exact ⟨_, .inl ⟨_, m, hes⟩⟩
    · exact ⟨_, .inr hout⟩
  · obtain ⟨o, st, ho, hpc, rfl⟩ := hl.ret.mp (ret_mem_of_response hr)
    obtain rfl := Option.some.inj (hk.symm.trans ho)
    rw [Op.Touched, hpc] at ht
    exact ⟨_, ht⟩

/-- The outcome of an operation that has returned. -/
theorem Log.outcome (hl : Log fs C tr ops) {c : Call} {r : Reply} (hinv : .inv i c ∈ tr)
    (hret : .ret i r ∈ tr) : ∃ ino, fs.Outcome C i c ino r (entries (points tr) i) := by
  obtain ⟨op, hop, rfl⟩ := hl.inv.mp hinv
  obtain ⟨o, st, ho, hpc, rfl⟩ := hl.ret.mp hret
  obtain rfl := Option.some.inj (hop.symm.trans ho)
  have ht := hl.touched hop
  rw [Op.Touched, hpc] at ht
  exact ⟨_, ht⟩

end Filesystem

end DeltaFs
