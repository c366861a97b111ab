import DeltaFs.Compactor
import DeltaFs.KVSender
import DeltaFs.Transition

/-!
# Parallel compaction

`parallel_compactor.cc`: every rank sends each record of its db to the rank the
record belongs to, flushes its senders, waits for the requests under way, and
goes to a barrier. The requests are served in any order, at any time after they
have been sent, and their senders hear of it, or of a failure, at any time after
that.

`Conserves` is the invariant: while the requests of a sender succeed, each of its
records is still to be read, in the buffer, in the request under way, or in the
db of its rank; and no db has a record that does not belong there.
`compaction_conserves` reads it at the barrier.
-/

namespace DeltaFs

namespace Compactor

/-! ## The state of a compaction

A rank is its main thread and a sender to each rank; a sender has a buffer, and a call that may
be under way. The network is in the senders: a request is served at some time while its call is
under way, or never. A call that fails may have been served all the same, or be served later,
hence the strays. -/

/-- The ranks and the flags, all of them the same at every rank. -/
structure Flags where
  xx : XXHash
  /-- `FLAGS_comm_size` -/
  commSize : Nat
  commSize_pos : 0 < commSize
  /-- `FLAGS_rpc_batch_min`, an `int` -/
  batchMin : Nat
  batchMin_lt : batchMin < 2 ^ 31
  /-- `FLAGS_rpc_batch_max`, an `int` -/
  batchMax : Nat
  batchMax_lt : batchMax < 2 ^ 31
  /-- there are sender threads -/
  pool : Bool

/-- The records of the source db of each rank, in the order they are read. -/
structure Sources where
  records : Nat → List Record
  fits : ∀ {r x}, x ∈ records r → x.Fits
  /-- a db has one value for a key -/
  nodup : ∀ r, ((records r).map Prod.fst).Nodup
  disjoint : ∀ {r r' k}, r ≠ r' → k ∈ (records r).map Prod.fst → k ∉ (records r').map Prod.fst

/-- Where `MapReduce` has got to. -/
inductive MapPc where
  /-- about to read the next record -/
  | reading (rest : List Record)
  /-- in the loop of `Send`, with a record in the buffer of rank `d` -/
  | sending (d : Nat) (rest : List Record)
  /-- about to flush, or flushing, the sender to a rank -/
  | flushing (i : Nat)
  /-- about to wait, or waiting, for the sender to a rank -/
  | waiting (i : Nat)
  /-- in `SendIt` itself, with no thread to leave it to -/
  | inSend (d : Nat) (next : MapPc)
  /-- at the barrier -/
  | arrived
  | passed
  /-- `MPI_Abort` -/
  | aborted

/-- A compaction. -/
structure World where
  main : Nat → MapPc
  /-- `dirs_`, of each rank -/
  dirs : Nat → Slice → Option DirIndex
  /-- the sender of a rank to a rank -/
  senders : Nat → Nat → AsyncKVSender
  /-- the destination dbs -/
  dst : Nat → Db
  /-- requests that are given up by their senders and may still be served -/
  strays : List (Nat × Slice)

/-- What a step is about. -/
inductive CompactionLabel where
  /-- the main thread of a rank goes on -/
  | main (r : Nat)
  /-- the request under way from `r` to `d` is served, with the outcome of the
  write -/
  | serve (r d : Nat) (write : Status)
  /-- the call from `r` to `d` returns `rpc` -/
  | finish (r d : Nat) (rpc : Status)
  /-- a request that was given up is served -/
  | stray (j : Nat) (write : Status)
  /-- the barrier opens -/
  | barrier

variable (fl : Flags) (src : Sources)

/-- The rank of a key: that of the name in the directory. -/
def home (key : Slice) : Nat :=
  FilesystemCli.selectServer fl.xx fl.commSize (keyDirId (key.take 16)) (key.drop 16)

namespace World

/-! ## The steps

`MapReduce` goes on by one turn of a loop at a time, and the calls of its senders begin, are
served and return in between, in any order. The barrier lets the ranks pass once all have
arrived. -/

/-- The main thread of `r` goes on at `pc`. -/
def setMain (s : World) (r : Nat) (pc : MapPc) : World :=
  { s with main := Function.update s.main r pc }

/-- Change a sender. -/
def setSender (s : World) (r d : Nat) (t : AsyncKVSender) : World :=
  { s with senders := Function.update s.senders r (Function.update (s.senders r) d t) }

/-- A turn of a loop on the sender to `d`: `leave` is where the thread goes on
after it, and `wait` where it is in it. -/
def loop (s : World) (r d : Nat) (turn : Turn) (leave wait : MapPc) : World :=
  match turn with
  | .fail => s.setMain r .aborted
  | .leave => s.setMain r leave
  | .schedule =>
    (s.setSender r d (s.senders r d).schedule).setMain r
      (if fl.pool then leave else .inSend d leave)
  | .wait => s.setMain r wait

/-- `Send` has put a record into the buffer of its rank. -/
def take (s : World) (r : Nat) (key val : Slice) (rest : List Record) : World × Nat :=
  let dir := fetchDir fl.xx fl.commSize (s.dirs r) (key.take 16)
  let d := dir.2.selectServer fl.xx (key.drop 16)
  let s := s.setSender r d ((s.senders r d).append key val)
  ({ s with dirs := Function.update s.dirs r dir.1 }.setMain r (.sending d rest), d)

/-- A step of `MapReduce`. -/
def mainStep (s : World) (r : Nat) : MapPc → Option World
  | .reading [] => some (s.setMain r (.flushing 0))
  | .reading ((key, val) :: rest) =>
    if key.length ≤ 16 then some (s.setMain r .aborted)
    else
      let (s, d) := s.take fl r key val rest
      some (s.loop fl r d ((s.senders r d).sendTurn fl.batchMin fl.batchMax) (.reading rest)
        (.sending d rest))
  | .sending d rest =>
    some (s.loop fl r d ((s.senders r d).sendTurn fl.batchMin fl.batchMax) (.reading rest)
      (.sending d rest))
  | .flushing i =>
    if i < fl.commSize then
      some (s.loop fl r i (s.senders r i).flushTurn (.flushing (i + 1)) (.flushing i))
    else some (s.setMain r (.waiting 0))
  | .waiting i =>
    if i < fl.commSize then
      match (s.senders r i).waitTurn with
      | .leave => some (s.setMain r (.waiting (i + 1)))
      | .fail => some (s.setMain r .aborted)
      | _ => none
    else some (s.setMain r .arrived)
  | .inSend d next => if (s.senders r d).call.isNone then some (s.setMain r next) else none
  | _ => none

/-- A rank is at the barrier. -/
def isArrived (s : World) (r : Nat) : Bool :=
  match s.main r with
  | .arrived => true
  | _ => false

/-- The request under way from `r` to `d` is served. -/
def serve (s : World) (r d : Nat) (write : Status) : Option World :=
  match (s.senders r d).call with
  | some (request, none) =>
    let served := (s.dst d).call request write
    let t := { s.senders r d with call := some (request, some served.2) }
    some ({ s with dst := Function.update s.dst d served.1 }.setSender r d t)
  | _ => none

/-- The call from `r` to `d` returns; with success only if the request has been
served. -/
def finish (s : World) (r d : Nat) (rpc : Status) : Option World :=
  match (s.senders r d).call with
  | none => none
  | some (request, none) =>
    if rpc.isOk then none
    else
      let s' := s.setSender r d ((s.senders r d).finish rpc)
      some { s' with strays := s.strays ++ [(d, request)] }
  | some (_, some reply) =>
    if rpc.isOk then
      match AsyncKVSender.parseReply reply with
      | .ok st => some (s.setSender r d ((s.senders r d).finish st))
      | _ => none
    else some (s.setSender r d ((s.senders r d).finish rpc))

/-- A request that was given up is served. -/
def stray (s : World) (j : Nat) (write : Status) : Option World :=
  s.strays[j]?.map fun x =>
    { s with
      dst := Function.update s.dst x.1 ((s.dst x.1).call x.2 write).1
      strays := s.strays.eraseIdx j }

/-- All ranks are at the barrier, and leave it. -/
def barrier (s : World) : Option World :=
  if (List.range fl.commSize).all s.isArrived then
    some { s with main := fun r => if r < fl.commSize then .passed else s.main r }
  else none

/-- One step. -/
def step (s : World) : CompactionLabel → Option World
  | .main r => if r < fl.commSize then s.mainStep fl r (s.main r) else none
  | .serve r d write => if r < fl.commSize then s.serve r d write else none
  | .finish r d rpc => if r < fl.commSize then s.finish r d rpc else none
  | .stray j write => s.stray j write
  | .barrier => s.barrier fl

/-- The start of a compaction, the destination dbs being empty. -/
def start : World where
  main r := .reading (src.records r)
  dirs _ _ := none
  senders _ _ := .new
  dst _ _ := none
  strays := []

end World

/-- The ranks of a compaction; what happens is all in their states. -/
def compaction : TransitionSystem World CompactionLabel Empty where
  init s := s = World.start src
  step s k := (s.step fl k).map fun s => (s, [])

/-! ## The invariant

Every record a rank has is in one of four places: not read yet, in a buffer, in a request under
way, or in the db it belongs to. `Sends` says this for the sender of one rank to another, where
the records are those of the first rank that belong to the second. Since keys of different ranks
differ, the order in which requests are served does not matter. -/

/-- The records `MapReduce` has not read yet. -/
def MapPc.rest : MapPc → List Record
  | .reading rest => rest
  | .sending _ rest => rest
  | .inSend _ next => next.rest
  | _ => []

/-- In the loop of `Send` to `d`. -/
def MapPc.sendsTo (d : Nat) : MapPc → Bool
  | .sending d' _ => d' = d
  | _ => false

/-- `MPI_Abort` has been called. -/
def MapPc.failed : MapPc → Bool
  | .aborted => true
  | .inSend _ next => next.failed
  | _ => false

/-- What `MapReduce` has seen to when it gets somewhere. -/
def Settled (senders : Nat → AsyncKVSender) : MapPc → Prop
  | .flushing i => ∀ d < i, (senders d).n = 0
  | .waiting i => (∀ d < fl.commSize, (senders d).n = 0) ∧
    ∀ d < i, (senders d).call = none ∧ (senders d).status = .ok
  | .inSend _ next => Settled senders next
  | .arrived => ∀ d < fl.commSize, (senders d).n = 0 ∧ (senders d).call = none ∧
    (senders d).status = .ok
  | .passed => ∀ d < fl.commSize, (senders d).n = 0 ∧ (senders d).call = none ∧
    (senders d).status = .ok
  | _ => True

/-- Records of `r` that belong to `d`. -/
def Belong (r d : Nat) (kvs : List Record) : Prop :=
  ∀ x ∈ kvs, x ∈ src.records r ∧ home fl x.1 = d

/-- More records than a buffer ever has. -/
def Flags.cap : Nat := max 1 (max fl.batchMin fl.batchMax)

/-- The invariant of the sender of `r` to `d`, with the records `kvs` in its
buffer and `out` under way. -/
structure Sends (r d : Nat) (t : AsyncKVSender) (pc : MapPc) (db : Db) (kvs out : List Record) :
    Prop where
  buf : t.buf = encodeFixed32 0 ++ encodeKvs kvs
  n : t.n = kvs.length
  le : t.n ≤ fl.cap
  lt : pc.failed = false → pc.sendsTo d = false → t.n < fl.cap
  belong : Belong fl src r d (kvs ++ out)
  idle : t.call = none → out = []
  request : ∀ {request reply}, t.call = some (request, reply) → request = requestOf out ∧
    out.length < 2 ^ 31
  /-- a reply of success comes from the write -/
  reply : ∀ {request reply}, t.call = some (request, some reply) →
    ∃ write : Status, reply = encodeFixed32 write.errCode ∧
      (write = .ok → ∀ x ∈ out, db x.1 = some x.2)
  all : t.status = .ok → pc.failed = false → ∀ x ∈ src.records r, home fl x.1 = d →
    x ∈ pc.rest ∨ x ∈ kvs ∨ x ∈ out ∨ db x.1 = some x.2

/-- The invariant of a compaction. -/
structure Conserves (s : World) : Prop where
  sends : ∀ r < fl.commSize, ∀ d, ∃ kvs out,
    Sends fl src r d (s.senders r d) (s.main r) (s.dst d) kvs out
  settled : ∀ r < fl.commSize, Settled fl (s.senders r) (s.main r)
  rest : ∀ r < fl.commSize, ∀ x ∈ (s.main r).rest, x ∈ src.records r
  fetched : ∀ r < fl.commSize, Fetched fl.xx fl.commSize (s.dirs r)
  sound : ∀ {d k v}, s.dst d k = some v → ∃ r < fl.commSize, (k, v) ∈ src.records r ∧ home fl k = d
  strays : ∀ {d request}, (d, request) ∈ s.strays →
    ∃ r < fl.commSize, ∃ out, request = requestOf out ∧ out.length < 2 ^ 31 ∧ Belong fl src r d out

variable {fl src} {r d : Nat} {t : AsyncKVSender} {pc pc' : MapPc} {db db' : Db}
  {kvs out : List Record} {s : World}

theorem Flags.cap_lt (fl : Flags) : fl.cap < 2 ^ 31 := by
  have h₁ := fl.batchMin_lt
  have h₂ := fl.batchMax_lt
  rw [Flags.cap]
  omega

/-- The records of all ranks have one value for a key. -/
theorem Sources.one_value (src : Sources) {r r' : Nat} {k v v' : Slice}
    (h : (k, v) ∈ src.records r) (h' : (k, v') ∈ src.records r') : v = v' := by
  have hk := List.mem_map_of_mem (f := Prod.fst) h
  have hk' := List.mem_map_of_mem (f := Prod.fst) h'
  by_cases hr : r = r'
  · subst hr
    have heq := List.inj_on_of_nodup_map (src.nodup r) h h' rfl
    exact (Prod.mk.inj heq).2
  · exact absurd hk' (src.disjoint hr hk)

/-! ## The invariant of a sender

One sender and one destination db, and what each kind of step makes of its four places. A record
moves from one place to the next, and is never copied. When a write fails the request is lost,
and then the status of the sender is not OK any more, which its rank sees at the barrier at the
latest. -/

/-- The main thread goes on, past records of other ranks. -/
theorem Sends.go (h : Sends fl src r d t pc db kvs out)
    (hlt : pc'.failed = false → pc'.sendsTo d = false → t.n < fl.cap)
    (hrest : pc'.failed = false →
      pc.failed = false ∧ ∀ x ∈ pc.rest, home fl x.1 = d → x ∈ pc'.rest) :
    Sends fl src r d t pc' db kvs out where
  buf := h.buf
  n := h.n
  le := h.le
  lt := hlt
  belong := h.belong
  idle := h.idle
  request := h.request
  reply := h.reply
  all hst hf x hx hd := by
    obtain ⟨hf', hin⟩ := hrest hf
    exact (h.all hst hf' x hx hd).imp_left fun hxr => hin x hxr hd

/-- **A record is put into the buffer.** It comes from what is not read yet, and the
sender has room for it because the loop of the last `Send` has left some. -/
theorem Sends.appended {key val : Slice} {rest : List Record}
    (h : Sends fl src r d t (.reading ((key, val) :: rest)) db kvs out)
    (hin : (key, val) ∈ src.records r) (hd : home fl key = d) :
    Sends fl src r d (t.append key val) (.sending d rest) db (kvs ++ [(key, val)]) out where
  buf := by
    rw [AsyncKVSender.append, encodeKvs_concat]
    simp only []
    rw [putLengthPrefixedSlice_eq, putLengthPrefixedSlice_eq t.buf, h.buf, List.append_assoc,
      List.append_assoc]
  n := by
    rw [List.length_append, List.length_singleton, ← h.n]
    rfl
  le := h.lt rfl rfl
  lt _ hno := by simp [MapPc.sendsTo] at hno
  belong x hx := by
    rw [List.append_assoc, List.mem_append, List.mem_append, List.mem_singleton] at hx
    rcases hx with hx | rfl | hx
    · exact h.belong x (List.mem_append_left _ hx)
    · exact ⟨hin, hd⟩
    · exact h.belong x (List.mem_append_right _ hx)
  idle := h.idle
  request := h.request
  reply := h.reply
  all hst _ x hx hxd := by
    rcases h.all hst rfl x hx hxd with hr | hk | ho | hdb
    · cases List.mem_cons.mp hr with
      | inl heq => exact .inr (.inl (List.mem_append_right _ (List.mem_singleton.mpr heq)))
      | inr hr => exact .inl hr
    · exact .inr (.inl (List.mem_append_left _ hk))
    · exact .inr (.inr (.inl ho))
    · exact .inr (.inr (.inr hdb))

/-- **A request is sent**: it carries what was in the buffer. No other call is under
way, so nothing is overwritten, and the buffer starts again empty. -/
theorem Sends.scheduled (h : Sends fl src r d t pc db kvs out) (hcall : t.call = none) :
    Sends fl src r d t.schedule pc db [] kvs where
  buf := (List.append_nil _).symm
  n := rfl
  le := Nat.zero_le _
  lt _ _ := Nat.lt_of_lt_of_le Nat.zero_lt_one (Nat.le_max_left ..)
  belong x hx := h.belong x (List.mem_append_left _ hx)
  idle hno := by cases hno
  request {request reply} hc := by
    have hdrop : t.buf.drop 4 = encodeKvs kvs := by
      rw [h.buf]
      exact List.drop_left' (length_encodeFixed32 0)
    have hlen : kvs.length < 2 ^ 31 := by
      have hle := h.le
      have hcap := fl.cap_lt
      rw [h.n] at hle
      omega
    cases hc
    rw [hdrop, h.n]
    exact ⟨rfl, hlen⟩
  reply hc := by cases hc
  all hst hf x hx hd := by
    rcases h.all hst hf x hx hd with hr | hk | ho | hdb
    · exact .inl hr
    · exact .inr (.inr (.inl hk))
    · rw [h.idle hcall] at ho
      cases ho
    · exact .inr (.inr (.inr hdb))

/-- The db of the rank keeps the records of `r`. -/
theorem Sends.grows (h : Sends fl src r d t pc db kvs out)
    (hdb : ∀ x ∈ src.records r, db x.1 = some x.2 → db' x.1 = some x.2) :
    Sends fl src r d t pc db' kvs out where
  buf := h.buf
  n := h.n
  le := h.le
  lt := h.lt
  belong := h.belong
  idle := h.idle
  request := h.request
  reply hc := by
    obtain ⟨write, hreply, hwrite⟩ := h.reply hc
    refine ⟨write, hreply, fun hok x hx => hdb x ?_ (hwrite hok x hx)⟩
    exact (h.belong x (List.mem_append_right _ hx)).1
  all hst hf x hx hd := by
    refine (h.all hst hf x hx hd).imp_right fun h => h.imp_right fun h => h.imp_right fun h => ?_
    exact hdb x hx h

/-- **The request is served.** If the write has succeeded, the records it carries are in
the db of the rank from now on. -/
theorem Sends.served (h : Sends fl src r d t pc db kvs out) {request : Slice}
    (hcall : t.call = some (request, none)) {write : Status}
    (hwrite : write = .ok → ∀ x ∈ out, db x.1 = some x.2) :
    Sends fl src r d { t with call := some (request, some (encodeFixed32 write.errCode)) } pc db kvs
      out where
  buf := h.buf
  n := h.n
  le := h.le
  lt := h.lt
  belong := h.belong
  idle hno := by cases hno
  request hc := by
    cases hc
    exact h.request hcall
  reply hc := by
    cases hc
    exact ⟨write, rfl, hwrite⟩
  all := h.all

/-- **The call returns**: with success only if the records are in the db. A call that
fails leaves its status in the sender, and from then on the invariant asks nothing of
its records. -/
theorem Sends.finished (h : Sends fl src r d t pc db kvs out) {st : Status}
    (hst : st = .ok → ∀ x ∈ out, db x.1 = some x.2) :
    Sends fl src r d (t.finish st) pc db kvs [] where
  buf := h.buf
  n := h.n
  le := h.le
  lt := h.lt
  belong x hx := h.belong x (by rw [List.append_nil] at hx; exact List.mem_append_left _ hx)
  idle _ := rfl
  request hc := by cases hc
  reply hc := by cases hc
  all hok hf x hx hd := by
    have hboth : st = .ok ∧ t.status = .ok := by
      have hok : (if !st.isOk && t.status.isOk then st else t.status) = .ok := hok
      cases st with
      | ok => exact ⟨rfl, by simpa using hok⟩
      | err c msg =>
        cases hts : t.status with
        | ok => rw [hts] at hok; cases hok
        | err c' msg' => rw [hts] at hok; cases hok
    rcases h.all hboth.2 hf x hx hd with hr | hk | ho | hdb
    · exact .inl hr
    · exact .inr (.inl hk)
    · exact .inr (.inr (.inr (hst hboth.1 x ho)))
    · exact .inr (.inr (.inr hdb))

/-- What is settled of the senders does not change with one that is under
way. -/
theorem Settled.update {senders : Nat → AsyncKVSender} (h : Settled fl senders pc)
    (hcall : (senders d).call ≠ none) (hn : t.n = (senders d).n) :
    Settled fl (Function.update senders d t) pc := by
  have hns : ∀ d', (senders d').n = 0 → (Function.update senders d t d').n = 0 := by
    intro d' h0
    by_cases hd : d' = d
    · subst hd
      rw [Function.update_self, hn, h0]
    · rw [Function.update_of_ne hd, h0]
  have hidle : ∀ d', (senders d').call = none → Function.update senders d t d' = senders d' := by
    intro d' h0
    apply Function.update_of_ne
    rintro rfl
    exact hcall h0
  induction pc with
  | flushing i => exact fun d' hd => hns d' (h d' hd)
  | waiting i =>
    refine ⟨fun d' hd => hns d' (h.1 d' hd), fun d' hd => ?_⟩
    rw [hidle d' (h.2 d' hd).1]
    exact h.2 d' hd
  | inSend d' next ih => exact ih h
  | arrived =>
    intro d' hd
    rw [hidle d' (h d' hd).2.1]
    exact h d' hd
  | passed =>
    intro d' hd
    rw [hidle d' (h d' hd).2.1]
    exact h d' hd
  | reading => trivial
  | sending => trivial
  | aborted => trivial

/-! ## The invariant of a compaction

The senders of all ranks together. A step concerns one sender, so its lemma above does for that
one, and the others are as they were: their buffers are their own, and a db that gains records
of one rank keeps those of all others. -/

theorem Conserves.start : Conserves fl src (World.start src) where
  sends r _ d := by
    refine ⟨[], [], (List.append_nil _).symm, rfl, Nat.zero_le _, fun _ _ => ?_,
      fun x hx => absurd hx List.not_mem_nil, fun _ => rfl, fun hc => (nomatch hc),
      fun hc => (nomatch hc), fun _ _ x hx _ => .inl hx⟩
    exact Nat.lt_of_lt_of_le Nat.zero_lt_one (Nat.le_max_left ..)
  settled _ _ := trivial
  rest _ _ x hx := hx
  fetched _ _ := Fetched.empty fl.xx fl.commSize
  sound h := by cases h
  strays h := by cases h

/-- The main thread of a rank goes on. -/
theorem Conserves.setMain (h : Conserves fl src s)
    (hlt : ∀ d, pc.failed = false → pc.sendsTo d = false →
      (s.main r).sendsTo d = false ∨ (s.senders r d).n < fl.cap)
    (hrest : pc.failed = false → (s.main r).failed = false ∧ pc.rest = (s.main r).rest)
    (hsub : ∀ x ∈ pc.rest, x ∈ src.records r)
    (hsettled : Settled fl (s.senders r) pc) : Conserves fl src (s.setMain r pc) where
  sends r' hr' d := by
    obtain ⟨kvs, out, hs⟩ := h.sends r' hr' d
    by_cases hr : r' = r
    · subst hr
      refine ⟨kvs, out, ?_⟩
      show Sends fl src r' d (s.senders r' d) (Function.update s.main r' pc r') (s.dst d) kvs out
      rw [Function.update_self]
      refine hs.go (fun hf hno => (hlt d hf hno).elim (hs.lt (hrest hf).1) id) fun hf => ?_
      obtain ⟨hf', hr⟩ := hrest hf
      rw [hr]
      exact ⟨hf', fun x hx _ => hx⟩
    · refine ⟨kvs, out, ?_⟩
      show Sends fl src r' d (s.senders r' d) (Function.update s.main r pc r') (s.dst d) kvs out
      rw [Function.update_of_ne hr]
      exact hs
  settled r' hr' := by
    show Settled fl (s.senders r') (Function.update s.main r pc r')
    by_cases hr : r' = r
    · subst hr
      rw [Function.update_self]
      exact hsettled
    · rw [Function.update_of_ne hr]
      exact h.settled r' hr'
  rest r' hr' := by
    show ∀ x ∈ (Function.update s.main r pc r').rest, x ∈ src.records r'
    by_cases hr : r' = r
    · subst hr
      rw [Function.update_self]
      exact hsub
    · rw [Function.update_of_ne hr]
      exact h.rest r' hr'
  fetched := h.fetched
  sound := h.sound
  strays := h.strays

/-- A sender changes. -/
theorem Conserves.setSender (h : Conserves fl src s)
    (hs : ∃ kvs out, Sends fl src r d t (s.main r) (s.dst d) kvs out)
    (hsettled : Settled fl (Function.update (s.senders r) d t) (s.main r)) :
    Conserves fl src (s.setSender r d t) where
  sends r' hr' d' := by
    show ∃ kvs out, Sends fl src r' d' (Function.update s.senders r _ r' d') _ _ kvs out
    by_cases hr : r' = r
    · subst hr
      rw [Function.update_self]
      by_cases hd : d' = d
      · subst hd
        rw [Function.update_self]
        exact hs
      · rw [Function.update_of_ne hd]
        exact h.sends r' hr' d'
    · rw [Function.update_of_ne hr]
      exact h.sends r' hr' d'
  settled r' hr' := by
    show Settled fl (Function.update s.senders r _ r') _
    by_cases hr : r' = r
    · subst hr
      rw [Function.update_self]
      exact hsettled
    · rw [Function.update_of_ne hr]
      exact h.settled r' hr'
  rest := h.rest
  fetched := h.fetched
  sound := h.sound
  strays := h.strays

/-- **A request is served** at a db: what it carries is written, or nothing
is. -/
theorem Conserves.serve (h : Conserves fl src s) (hr : r < fl.commSize)
    (hlen : out.length < 2 ^ 31) (hbelong : Belong fl src r d out) (write : Status) :
    (∀ r' x, x ∈ src.records r' → s.dst d x.1 = some x.2 →
      ((s.dst d).call (requestOf out) write).1 x.1 = some x.2) ∧
      (write = .ok → ∀ x ∈ out, ((s.dst d).call (requestOf out) write).1 x.1 = some x.2) ∧
      ((s.dst d).call (requestOf out) write).2 = encodeFixed32 write.errCode ∧
      Conserves fl src
        { s with dst := Function.update s.dst d ((s.dst d).call (requestOf out) write).1 } := by
  have hone : ∀ {r' : Nat} {x : Record}, x ∈ src.records r' → ∀ v, (x.1, v) ∈ out → v = x.2 :=
    fun hx v hv => src.one_value (hbelong _ hv).1 hx
  rw [call_requestOf (fun x hx => src.fits (hbelong x hx).1) hlen]
  have hkeeps : ∀ r' x, x ∈ src.records r' → s.dst d x.1 = some x.2 →
      (if write.isOk then (s.dst d).writeBatch out else s.dst d) x.1 = some x.2 := by
    intro r' x hx hdb
    split
    · exact writeBatch_of (hone hx) (.inl hdb)
    · exact hdb
  refine ⟨hkeeps, fun hok x hx => ?_, rfl, ?_⟩
  · rw [hok, Status.isOk_ok, if_pos rfl]
    exact writeBatch_of (hone (hbelong x hx).1) (.inr hx)
  · refine ⟨fun r' hr' d' => ?_, h.settled, h.rest, h.fetched, fun {d' k v} hv => ?_, h.strays⟩
    · obtain ⟨kvs, out', hs⟩ := h.sends r' hr' d'
      refine ⟨kvs, out', ?_⟩
      by_cases hd : d' = d
      · subst hd
        simp only [Function.update_self]
        exact hs.grows (hkeeps r')
      · simp only [Function.update_of_ne hd]
        exact hs
    · by_cases hd : d' = d
      · subst hd
        simp only [Function.update_self] at hv
        split at hv
        · cases writeBatch_some hv with
          | inl hold => exact h.sound hold
          | inr hin => exact ⟨r, hr, hbelong _ hin⟩
        · exact h.sound hv
      · simp only [Function.update_of_ne hd] at hv
        exact h.sound hv

/-- **A turn of a loop** on a sender. Whichever loop it is, the turn either leaves it,
sends what is buffered, or waits; so `Send` and `Flush` have one lemma. -/
theorem Conserves.loop (h : Conserves fl src s) (hr : r < fl.commSize) {turn : Turn}
    (leave : MapPc) (hfailed : (s.main r).failed = false)
    (hlt : ∀ d', d' ≠ d → (s.main r).sendsTo d' = false)
    (hrest : leave.failed = false ∧ leave.rest = (s.main r).rest)
    (hleave : turn = .leave → (s.senders r d).n < fl.cap ∧ Settled fl (s.senders r) leave)
    (hsched : turn = .schedule → (s.senders r d).call = none ∧
      Settled fl (Function.update (s.senders r) d (s.senders r d).schedule) (s.main r) ∧
      Settled fl (Function.update (s.senders r) d (s.senders r d).schedule) leave) :
    Conserves fl src (s.loop fl r d turn leave (s.main r)) := by
  have hsub : ∀ x ∈ leave.rest, x ∈ src.records r := by
    rw [hrest.2]
    exact h.rest r hr
  cases turn with
  | fail =>
    exact h.setMain (fun _ hf _ => (nomatch hf)) (fun hf => (nomatch hf))
      (fun _ hx => (nomatch hx)) trivial
  | leave =>
    obtain ⟨hn, hset⟩ := hleave rfl
    refine h.setMain (fun d' _ _ => ?_) (fun _ => ⟨hfailed, hrest.2⟩) hsub hset
    by_cases hd : d' = d
    · subst hd
      exact .inr hn
    · exact .inl (hlt d' hd)
  | wait =>
    exact h.setMain (fun _ _ hd => .inl hd) (fun hf => ⟨hf, rfl⟩) (h.rest r hr) (h.settled r hr)
  | schedule =>
    obtain ⟨hcall, hset, hset'⟩ := hsched rfl
    obtain ⟨kvs, out, hs⟩ := h.sends r hr d
    have h₁ := h.setSender (t := (s.senders r d).schedule) ⟨[], kvs, hs.scheduled hcall⟩ hset
    have hsender : (s.setSender r d (s.senders r d).schedule).senders r =
        Function.update (s.senders r) d (s.senders r d).schedule := Function.update_self ..
    refine h₁.setMain (fun d' _ _ => ?_) (fun _ => ⟨hfailed, ?_⟩) ?_ ?_
    · by_cases hd : d' = d
      · subst hd
        refine .inr ?_
        rw [hsender, Function.update_self]
        exact Nat.lt_of_lt_of_le Nat.zero_lt_one (Nat.le_max_left ..)
      · exact .inl (hlt d' hd)
    · split
      · exact hrest.2
      · exact hrest.2
    · split
      · exact hsub
      · exact hsub
    · rw [hsender]
      split
      · exact hset'
      · exact hset'

/-! ### The main thread

What `MapReduce` does in one step: it takes a record to the sender of its destination, sends,
flushes, or goes on to the next rank. A step that moves no record only has to keep what is
settled (`goOn`). -/

/-- **A record is read**, and put into the buffer of the rank it belongs to. The rank is
computed from the key and an index of the directory that the reader makes itself, which
is that of everybody else. -/
theorem Conserves.take (h : Conserves fl src s) (hr : r < fl.commSize) {key val : Slice}
    {rest : List Record} (hpc : s.main r = .reading ((key, val) :: rest)) :
    Conserves fl src (s.take fl r key val rest).1 ∧
      (s.take fl r key val rest).1.main r = .sending (s.take fl r key val rest).2 rest := by
  obtain ⟨hdirs, hgiga⟩ := (h.fetched r hr).fetchDir (key.take 16)
  have hhome : (fetchDir fl.xx fl.commSize (s.dirs r) (key.take 16)).2.selectServer fl.xx
      (key.drop 16) = home fl key := by
    rw [hgiga]
    rfl
  have hin : ∀ x ∈ (key, val) :: rest, x ∈ src.records r := by
    have hsub := h.rest r hr
    rw [hpc] at hsub
    exact hsub
  refine ⟨⟨fun r' hr' d => ?_, fun r' hr' => ?_, fun r' hr' => ?_, fun r' hr' => ?_, h.sound,
    h.strays⟩, Function.update_self ..⟩
  · show ∃ kvs out, Sends fl src r' d (Function.update s.senders r _ r' d)
      (Function.update s.main r _ r') (s.dst d) kvs out
    obtain ⟨kvs, out, hs⟩ := h.sends r' hr' d
    by_cases hrr : r' = r
    · subst hrr
      rw [Function.update_self, Function.update_self, hhome]
      rw [hpc] at hs
      by_cases hd : d = home fl key
      · subst hd
        rw [Function.update_self]
        exact ⟨_, out, hs.appended (hin _ (List.mem_cons_self ..)) rfl⟩
      · rw [Function.update_of_ne hd]
        refine ⟨kvs, out, hs.go (fun _ _ => hs.lt rfl rfl) fun _ => ⟨rfl, fun x hx hxd => ?_⟩⟩
        cases List.mem_cons.mp hx with
        | inl heq => rw [heq] at hxd; exact absurd hxd.symm hd
        | inr hx => exact hx
    · rw [Function.update_of_ne hrr, Function.update_of_ne hrr]
      exact ⟨kvs, out, hs⟩
  · show Settled fl (Function.update s.senders r _ r') (Function.update s.main r _ r')
    by_cases hrr : r' = r
    · subst hrr
      rw [Function.update_self, Function.update_self]
      trivial
    · rw [Function.update_of_ne hrr, Function.update_of_ne hrr]
      exact h.settled r' hr'
  · show ∀ x ∈ (Function.update s.main r _ r').rest, x ∈ src.records r'
    by_cases hrr : r' = r
    · subst hrr
      rw [Function.update_self]
      exact fun x hx => hin x (List.mem_cons_of_mem _ hx)
    · rw [Function.update_of_ne hrr]
      exact h.rest r' hr'
  · show Fetched fl.xx fl.commSize (Function.update s.dirs r _ r')
    by_cases hrr : r' = r
    · subst hrr
      rw [Function.update_self]
      exact hdirs
    · rw [Function.update_of_ne hrr]
      exact h.fetched r' hr'

/-- A turn of the loop of `Send`. -/
theorem Conserves.send (h : Conserves fl src s) (hr : r < fl.commSize) {rest : List Record}
    (hpc : s.main r = .sending d rest) :
    Conserves fl src (s.loop fl r d ((s.senders r d).sendTurn fl.batchMin fl.batchMax)
      (.reading rest) (.sending d rest)) := by
  have hturn : (s.senders r d).sendTurn fl.batchMin fl.batchMax = .leave →
      (s.senders r d).n < fl.cap := by
    intro ht
    have hn := AsyncKVSender.sendTurn_leave ht
    rw [Flags.cap]
    omega
  have hcall : (s.senders r d).sendTurn fl.batchMin fl.batchMax = .schedule →
      (s.senders r d).call = none := fun ht => (AsyncKVSender.sendTurn_schedule ht).2
  have hloop := h.loop (d := d) hr (.reading rest) (by rw [hpc]; rfl) (fun d' hd => ?_)
    ⟨rfl, by rw [hpc]; rfl⟩ (fun ht => ⟨hturn ht, trivial⟩) fun ht => ⟨hcall ht, ?_, trivial⟩
  · rw [hpc] at hloop
    exact hloop
  · rw [hpc]
    exact decide_eq_false fun heq => hd heq.symm
  · rw [hpc]
    trivial

/-- A turn of the loop of `Flush`. -/
theorem Conserves.flush (h : Conserves fl src s) (hr : r < fl.commSize) {i : Nat}
    (hpc : s.main r = .flushing i) :
    Conserves fl src
      (s.loop fl r i (s.senders r i).flushTurn (.flushing (i + 1)) (.flushing i)) := by
  have hset := h.settled r hr
  rw [hpc] at hset
  have hturn : (s.senders r i).flushTurn = .leave → (s.senders r i).n = 0 :=
    AsyncKVSender.flushTurn_leave
  have hcall : (s.senders r i).flushTurn = .schedule → (s.senders r i).call = none :=
    fun ht => (AsyncKVSender.flushTurn_schedule ht).2.1
  have hupdated : ∀ d' < i + 1,
      (Function.update (s.senders r) i (s.senders r i).schedule d').n = 0 := by
    intro d' hd
    by_cases hdi : d' = i
    · subst hdi
      rw [Function.update_self]
      rfl
    · rw [Function.update_of_ne hdi]
      exact hset d' (by omega)
  have hloop := h.loop (d := i) hr (.flushing (i + 1)) (by rw [hpc]; rfl)
    (fun _ _ => by rw [hpc]; rfl) ⟨rfl, by rw [hpc]; rfl⟩ (fun ht => ⟨?_, fun d' hd => ?_⟩)
    fun ht => ⟨hcall ht, ?_, hupdated⟩
  · rw [hpc] at hloop
    exact hloop
  · rw [hturn ht]
    exact Nat.lt_of_lt_of_le Nat.zero_lt_one (Nat.le_max_left ..)
  · by_cases hdi : d' = i
    · rw [hdi]
      exact hturn ht
    · exact hset d' (by omega)
  · rw [hpc]
    exact fun d' hd => hupdated d' (Nat.lt_succ_of_lt hd)

/-- The thread goes on where nothing is read any more. -/
theorem Conserves.goOn (h : Conserves fl src s) (hr : r < fl.commSize)
    (hsends : ∀ d, (s.main r).sendsTo d = false)
    (hrest : pc.failed = false → (s.main r).failed = false ∧ pc.rest = (s.main r).rest)
    (hempty : pc.failed = true → pc.rest = [])
    (hset : Settled fl (s.senders r) pc) : Conserves fl src (s.setMain r pc) := by
  refine h.setMain (fun d _ _ => .inl (hsends d)) hrest (fun x hx => ?_) hset
  cases hf : pc.failed with
  | true => rw [hempty hf] at hx; cases hx
  | false =>
    rw [(hrest hf).2] at hx
    exact h.rest r hr x hx

/-- **Step lemma**, of the main threads. -/
theorem Conserves.mainStep (h : Conserves fl src s) (hr : r < fl.commSize) {s' : World}
    (hs : s.mainStep fl r (s.main r) = some s') : Conserves fl src s' := by
  have hset := h.settled r hr
  cases hpc : s.main r with
  -- a record read is put into the sender of its destination; the last one leads to the
  -- flush
  | reading rest =>
    rw [hpc] at hs hset
    cases rest with
    | nil =>
      cases hs
      refine h.goOn hr (fun _ => by rw [hpc]; rfl) (fun _ => by rw [hpc]; exact ⟨rfl, rfl⟩)
        (fun _ => rfl) fun d hd => absurd hd (Nat.not_lt_zero d)
    | cons x rest =>
      obtain ⟨key, val⟩ := x
      rw [World.mainStep] at hs
      split at hs
      · cases hs
        exact h.goOn hr (fun _ => by rw [hpc]; rfl) (fun hf => (nomatch hf)) (fun _ => rfl) trivial
      · obtain ⟨htake, hmain⟩ := h.take hr hpc
        cases hs
        exact htake.send hr hmain
  | sending d rest =>
    rw [hpc] at hs
    cases hs
    exact h.send hr hpc
  | flushing i =>
    rw [hpc] at hs hset
    rw [World.mainStep] at hs
    split at hs
    · cases hs
      exact h.flush hr hpc
    · rename_i hi
      cases hs
      refine h.goOn hr (fun _ => by rw [hpc]; rfl) (fun _ => by rw [hpc]; exact ⟨rfl, rfl⟩)
        (fun _ => rfl) ⟨fun d hd => hset d (by omega), fun d hd => absurd hd (Nat.not_lt_zero d)⟩
  | waiting i =>
    rw [hpc] at hs hset
    rw [World.mainStep] at hs
    -- waiting moves no record: only how far the rank has settled
    have hgo : ∀ {pc}, pc.failed = true ∧ pc.rest = [] ∨ pc.failed = false ∧ pc.rest = [] →
        Settled fl (s.senders r) pc → Conserves fl src (s.setMain r pc) := by
      intro pc hp hset'
      refine h.goOn hr (fun _ => by rw [hpc]; rfl) (fun _ => ?_) (fun _ => ?_) hset'
      · rw [hpc, hp.elim And.right And.right]
        exact ⟨rfl, rfl⟩
      · exact hp.elim And.right And.right
    split at hs
    · split at hs
      · rename_i hturn
        cases hs
        refine hgo (.inr ⟨rfl, rfl⟩) ⟨hset.1, fun d hd => ?_⟩
        by_cases hdi : d = i
        · subst hdi
          -- the loop has been left without an error
          simp only [AsyncKVSender.waitTurn] at hturn
          split at hturn
          · cases hturn
          · rename_i hcall
            split at hturn
            · rename_i hok
              refine ⟨?_, Status.isOk_iff.mp hok⟩
              simpa using hcall
            · cases hturn
        · exact hset.2 d (by omega)
      · cases hs
        exact hgo (.inl ⟨rfl, rfl⟩) trivial
      · cases hs
    · rename_i hi
      cases hs
      exact hgo (.inr ⟨rfl, rfl⟩) fun d hd => ⟨hset.1 d hd, hset.2 d (by omega)⟩
  -- without a pool the rank is itself in `SendIt` and goes on when the call has returned
  | inSend d next =>
    rw [hpc] at hs hset
    rw [World.mainStep] at hs
    have hsub := h.rest r hr
    rw [hpc] at hsub
    split at hs
    · cases hs
      exact h.setMain (fun _ _ _ => .inl (by rw [hpc]; rfl)) (fun hf => by rw [hpc]; exact ⟨hf, rfl⟩)
        hsub hset
    · cases hs
  | arrived => rw [hpc] at hs; cases hs
  | passed => rw [hpc] at hs; cases hs
  | aborted => rw [hpc] at hs; cases hs

/-! ### The calls

A call that is served puts its records in the db; one that returns makes room in the sender. If
it returns an error its records may be lost, but then the status of the sender says so for good,
and the rank never reaches the barrier. -/

theorem Conserves.served (h : Conserves fl src s) (hr : r < fl.commSize) {write : Status}
    {s' : World} (hs : s.serve r d write = some s') : Conserves fl src s' := by
  rw [World.serve] at hs
  split at hs
  · rename_i request hcall
    have hne : (s.senders r d).call ≠ none := by rw [hcall]; exact nofun
    obtain ⟨kvs, out, hsend⟩ := h.sends r hr d
    obtain ⟨rfl, hlen⟩ := hsend.request hcall
    have hbelong : Belong fl src r d out := fun x hx => hsend.belong x (List.mem_append_right _ hx)
    obtain ⟨hkeeps, hwritten, hreply, hinv⟩ := h.serve hr hlen hbelong write
    obtain rfl := Option.some.inj hs
    rw [hreply]
    refine hinv.setSender ⟨kvs, out, ?_⟩ ((h.settled r hr).update hne rfl)
    simp only [Function.update_self]
    exact (hsend.grows (hkeeps r)).served hcall hwritten
  · cases hs

theorem Conserves.finished (h : Conserves fl src s) (hr : r < fl.commSize) {rpc : Status}
    {s' : World} (hs : s.finish r d rpc = some s') : Conserves fl src s' := by
  obtain ⟨kvs, out, hsend⟩ := h.sends r hr d
  have hfin : ∀ {st : Status}, (s.senders r d).call ≠ none →
      (st = .ok → ∀ x ∈ out, s.dst d x.1 = some x.2) →
      Conserves fl src (s.setSender r d ((s.senders r d).finish st)) :=
    fun hne hst => h.setSender ⟨kvs, [], hsend.finished hst⟩ ((h.settled r hr).update hne rfl)
  rw [World.finish] at hs
  split at hs
  · cases hs
  · rename_i request hcall
    have hne : (s.senders r d).call ≠ none := by rw [hcall]; exact nofun
    split at hs
    · cases hs
    · rename_i hno
      obtain rfl := Option.some.inj hs
      have h' : Conserves fl src (s.setSender r d ((s.senders r d).finish rpc)) :=
        hfin hne fun hok => absurd (Status.isOk_iff.mpr hok) hno
      refine ⟨h'.sends, h'.settled, h'.rest, h'.fetched, h'.sound, fun {d' request'} hin => ?_⟩
      cases List.mem_append.mp hin with
      | inl hin => exact h.strays hin
      | inr hin =>
        obtain ⟨rfl, rfl⟩ := Prod.mk.inj (List.mem_singleton.mp hin)
        obtain ⟨hreq, hlen⟩ := hsend.request hcall
        exact ⟨r, hr, out, hreq, hlen, fun x hx => hsend.belong x (List.mem_append_right _ hx)⟩
  · rename_i request reply hcall
    have hne : (s.senders r d).call ≠ none := by rw [hcall]; exact nofun
    obtain ⟨write, hreply, hwritten⟩ := hsend.reply hcall
    split at hs
    · split at hs
      · rename_i st hparse
        obtain rfl := Option.some.inj hs
        refine hfin hne fun hok => hwritten ?_
        rw [hok, hreply] at hparse
        exact parseReply_errCode write hparse
      · cases hs
    · rename_i hno
      obtain rfl := Option.some.inj hs
      exact hfin hne fun hok => absurd (Status.isOk_iff.mpr hok) hno

theorem Conserves.barrier (h : Conserves fl src s) {s' : World} (hs : s.barrier fl = some s') :
    Conserves fl src s' := by
  rw [World.barrier] at hs
  split at hs
  · rename_i hall
    obtain rfl := Option.some.inj hs
    have harrived : ∀ r < fl.commSize, s.main r = .arrived := by
      intro r hr
      have ha := List.all_eq_true.mp hall r (List.mem_range.mpr hr)
      rw [World.isArrived] at ha
      split at ha
      · assumption
      · cases ha
    refine ⟨fun r hr d => ?_, fun r hr => ?_, fun r hr => ?_, h.fetched, h.sound, h.strays⟩
    · obtain ⟨kvs, out, hsend⟩ := h.sends r hr d
      refine ⟨kvs, out, ?_⟩
      simp only [if_pos hr]
      rw [harrived r hr] at hsend
      exact hsend.go (fun _ _ => hsend.lt rfl rfl) fun _ => ⟨rfl, fun x hx => absurd hx List.not_mem_nil⟩
    · simp only [if_pos hr]
      have hset := h.settled r hr
      rw [harrived r hr] at hset
      exact hset
    · simp only [if_pos hr]
      exact fun x hx => absurd hx List.not_mem_nil
  · cases hs

/-- **Step lemma**: every step keeps the invariant. A step is one of a main thread, or one
of a request: it is served, or its call returns. -/
theorem Conserves.step (h : Conserves fl src s) {k : CompactionLabel} {s' : World}
    (hs : s.step fl k = some s') : Conserves fl src s' := by
  cases k with
  | main r =>
    rw [World.step] at hs
    split at hs
    · rename_i hr
      exact h.mainStep hr hs
    · cases hs
  | serve r d write =>
    rw [World.step] at hs
    split at hs
    · rename_i hr
      exact h.served hr hs
    · cases hs
  | finish r d rpc =>
    rw [World.step] at hs
    split at hs
    · rename_i hr
      exact h.finished hr hs
    · cases hs
  | stray j write =>
    rw [World.step, World.stray] at hs
    obtain ⟨x, hj, rfl⟩ := Option.map_eq_some_iff.mp hs
    obtain ⟨d, request⟩ := x
    obtain ⟨r, hr, out, rfl, hlen, hbelong⟩ := h.strays (List.mem_of_getElem? hj)
    obtain ⟨-, -, -, hinv⟩ := h.serve hr hlen hbelong write
    exact ⟨hinv.sends, hinv.settled, hinv.rest, hinv.fetched, hinv.sound,
      fun hin => hinv.strays (List.mem_of_mem_eraseIdx hin)⟩
  | barrier => exact h.barrier hs

/-! ## Runs

At the barrier nothing is left anywhere but in the dbs, and what is there has come from the
sources: the two halves of the equality. -/

/-- **Run lemma**. At the start all records are still to be read, the senders are idle
and the destination dbs empty; every step keeps `Conserves`. -/
theorem conserves_of_run {C : World → CompactionLabel → Prop} {tr : List Empty}
    (hr : (compaction fl src).Run C tr s) : Conserves fl src s := by
  refine hr.invariant_state (fun s hs => ?_) fun s k s' es hi _ hs => ?_
  · rw [hs]
    exact Conserves.start
  · obtain ⟨s₁, hs₁, heq⟩ := Option.map_eq_some_iff.mp hs
    cases heq
    exact hi.step hs₁

/-- **Compaction conserves the records**: once every rank has passed the
barrier, the db of a rank holds the records of all ranks that belong there, and
no others.

No send has failed then, since a rank passes the barrier only when all of its senders have
returned OK; so nothing is left in a buffer or under way, and what `Conserves` has followed
from the source dbs must have arrived. Requests may have overtaken each other, which is why
the dbs are compared as sets of records and not as sequences. -/
theorem compaction_conserves {tr : List Empty} (hr : (compaction fl src).Run (fun _ _ => True) tr s)
    (hpassed : ∀ r < fl.commSize, s.main r = .passed) {i : Nat} (hi : i < fl.commSize)
    (key val : Slice) :
    s.dst i key = some val ↔
      ∃ r < fl.commSize, (key, val) ∈ src.records r ∧ home fl key = i := by
  have h := conserves_of_run hr
  refine ⟨fun hv => h.sound hv, ?_⟩
  rintro ⟨r, hrank, hin, hhome⟩
  obtain ⟨kvs, out, hsend⟩ := h.sends r hrank i
  have hset := h.settled r hrank
  rw [hpassed r hrank] at hsend hset
  obtain ⟨hn, hcall, hok⟩ := hset i hi
  -- nothing is left to read, in the buffer, or under way
  rcases hsend.all hok rfl _ hin hhome with hx | hx | hx | hx
  · cases hx
  · rw [List.eq_nil_of_length_eq_zero (hsend.n.symm.trans hn)] at hx
    cases hx
  · rw [hsend.idle hcall] at hx
    cases hx
  · exact hx

/-- Two ranks with sender threads. -/
def twoRanks : Flags where
  xx := ⟨fun _ _ => 0, fun name _ => (name.getLastD 0).toUInt64 <<< 7⟩
  commSize := 2
  commSize_pos := Nat.two_pos
  batchMin := 1
  batchMin_lt := by decide
  batchMax := 2
  batchMax_lt := by decide
  pool := true

/-- The first rank has the records of two entries of the root, the second one
none. -/
def twoEntries : Sources where
  records r :=
    if r = 0 then
      [(entryKey ⟨0, 0⟩ (str "a"), str "x"), (entryKey ⟨0, 0⟩ (str "b"), str "y")]
    else []
  fits {r x} hx := by
    split at hx
    · rw [List.mem_cons, List.mem_singleton] at hx
      obtain rfl | rfl := hx
      · exact ⟨by decide, by decide⟩
      · exact ⟨by decide, by decide⟩
    · cases hx
  nodup r := by
    split
    · decide
    · exact List.nodup_nil
  disjoint {r r' k} hne hk hk' := by
    split at hk
    · split at hk'
      · rename_i h h'
        exact hne (h.trans h'.symm)
      · cases hk'
    · cases hk

/-- Both records are sent, and served in the other order. -/
def sendBoth : List CompactionLabel :=
  [.main 0, .main 0, .serve 0 0 .ok, .serve 0 1 .ok, .finish 0 0 .ok, .finish 0 1 .ok] ++
    List.replicate 7 (.main 0) ++ List.replicate 7 (.main 1) ++ [.barrier]

/-- Where a rank is. -/
def isPassed (s : World) (r : Nat) : Bool :=
  match s.main r with
  | .passed => true
  | _ => false

/-- The records of `twoEntries` end up on one rank each. -/
theorem compaction_conserves_twoEntries :
    ∃ tr s, (compaction twoRanks twoEntries).Run (fun _ _ => True) tr s ∧
      (∀ r < twoRanks.commSize, s.main r = .passed) ∧
      (s.dst 1 (entryKey ⟨0, 0⟩ (str "a")) = some (str "x") ↔ ∃ r < twoRanks.commSize,
        (entryKey ⟨0, 0⟩ (str "a"), str "x") ∈ twoEntries.records r ∧
          home twoRanks (entryKey ⟨0, 0⟩ (str "a")) = 1) := by
  have hexec : ((compaction twoRanks twoEntries).exec (fun _ _ => true) (World.start twoEntries)
      sendBoth).map (fun x => isPassed x.1 0 && isPassed x.1 1) = some true := by decide +kernel
  obtain ⟨x, hx, hpassed⟩ := Option.map_eq_some_iff.mp hexec
  have hstart : (compaction twoRanks twoEntries).Run (fun _ _ => True) []
      (World.start twoEntries) := .init rfl
  have hr := hstart.exec (fun _ _ _ => trivial) hx
  have hone : ∀ r, isPassed x.1 r = true → x.1.main r = .passed := by
    intro r h
    rw [isPassed] at h
    split at h
    · assumption
    · cases h
  have hall : ∀ r < twoRanks.commSize, x.1.main r = .passed := by
    intro r hr
    rw [Bool.and_eq_true] at hpassed
    have hr : r < 2 := hr
    obtain rfl | rfl : r = 0 ∨ r = 1 := by omega
    · exact hone 0 hpassed.1
    · exact hone 1 hpassed.2
  exact ⟨_, x.1, hr, hall, compaction_conserves hr hall (by decide) _ _⟩

end Compactor

end DeltaFs
