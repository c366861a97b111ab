import DeltaFs.KVSender
import DeltaFs.Transition

/-!
# Delivery of records

One `AsyncKVSender` and the thread that uses it: `Send` of each record, `Flush`,
`WaitForAsyncOperations`. Requests are sent by a thread of a pool, or by that
thread itself, and a request under way stays as it is while `Send` fills the
other buffer.

`Delivers` is the invariant: the records of the requests that were scheduled,
those in the buffer and those still to be sent are all of the records, in order.
`delivery_exactly_once` reads it after `WaitForAsyncOperations`.

What makes the hand-over between the threads safe is that a request is scheduled only when
the one before it has returned, and that the buffers change places then. So the request
under way is a value in the invariant, and not a place that somebody writes to.
-/

namespace DeltaFs

open Rpc TransitionSystem

namespace AsyncKVSender

/-! ## A sender and its threads

The thread that produces records, the thread of the pool that sends a request, and the calls at
the stub, which begin and return. Without a pool the producer makes the call itself. -/

/-- What a sender is run with. -/
structure BatchFlags where
  /-- `FLAGS_rpc_batch_min`, an `int` -/
  batchMin : Nat
  batchMin_lt : batchMin < 2 ^ 31
  /-- `FLAGS_rpc_batch_max`, an `int` -/
  batchMax : Nat
  batchMax_lt : batchMax < 2 ^ 31
  /-- there is a thread pool -/
  pool : Bool

/-- The most records a request has. -/
def BatchFlags.cap (fl : BatchFlags) : Nat := max 1 (max fl.batchMin fl.batchMax)

/-- Where the thread that uses the sender has got to. -/
inductive Producer where
  /-- about to send the first record, or to flush -/
  | sending (rest : List Record)
  /-- in the loop of `Send` -/
  | inSend (rest : List Record)
  /-- in the loop of `Flush` -/
  | flushing
  /-- about to wait, or in the loop of `WaitForAsyncOperations` -/
  | waiting
  /-- in `SendIt` itself, with no thread to leave it to -/
  | inline (next : Producer)
  | done

/-- What can be seen of a sender. -/
inductive SenderEvent where
  /-- `stub_->Call` begins, with these bytes in `in_` -/
  | call (request : Slice)
  /-- it is over, with these bytes in `in_`, and `SendIt` has made `st` of it -/
  | ret (request : Slice) (st : Status)
  /-- `Send` or `Flush` returns -/
  | returned (st : Status)
  /-- `WaitForAsyncOperations` returns -/
  | waited (st : Status)
  deriving DecidableEq

/-- A sender at work. -/
structure Delivery where
  sender : AsyncKVSender
  /-- `stub_->Call` is running -/
  calling : Bool
  producer : Producer

/-- What a step is about. -/
inductive DeliveryLabel where
  /-- the thread that uses the sender goes on -/
  | producer
  /-- `SendIt` makes its call -/
  | call
  /-- the call returns `rpc`, with a reply -/
  | ret (rpc : Status) (reply : Slice)

namespace Delivery

variable (fl : BatchFlags)

/-! ## The steps

A turn of the loop of `Send`, `Flush` or `WaitForAsyncOperations`, or a call that begins or
returns, is a step. A turn that has to wait leaves the thread where it is in its loop. -/

/-- A turn of the loop of `Send` or `Flush`: `next` is where the thread goes on
after the call, and `here` where it is in the loop. -/
def turn (s : Delivery) (t : Turn) (next here : Producer) : Delivery × List SenderEvent :=
  match t with
  | .fail => ({ s with producer := next }, [.returned s.sender.status])
  | .leave => ({ s with producer := next }, [.returned .ok])
  | .schedule =>
    if fl.pool then
      ({ s with sender := s.sender.schedule, producer := next }, [.returned .ok])
    else ({ s with sender := s.sender.schedule, producer := .inline next }, [])
  | .wait => ({ s with producer := here }, [])

/-- The thread goes on. -/
def produce (s : Delivery) : Option (Delivery × List SenderEvent) :=
  match s.producer with
  | .sending (r :: rest) =>
    let s := { s with sender := s.sender.append r.1 r.2 }
    some (s.turn fl (s.sender.sendTurn fl.batchMin fl.batchMax) (.sending rest) (.inSend rest))
  | .inSend rest =>
    some (s.turn fl (s.sender.sendTurn fl.batchMin fl.batchMax) (.sending rest) (.inSend rest))
  | .sending [] => some (s.turn fl s.sender.flushTurn .waiting .flushing)
  | .flushing => some (s.turn fl s.sender.flushTurn .waiting .flushing)
  | .waiting =>
    match s.sender.waitTurn with
    | .wait => some (s, [])
    | _ => some ({ s with producer := .done }, [.waited s.sender.status])
  | .inline next =>
    if s.sender.call.isNone then some ({ s with producer := next }, [.returned .ok]) else none
  | .done => none

/-- The call of `SendIt` begins. -/
def call (s : Delivery) : Option (Delivery × List SenderEvent) :=
  match s.sender.call with
  | none => none
  | some (request, _) =>
    if s.calling then none else some ({ s with calling := true }, [.call request])

/-- The call of `SendIt` is over. -/
def ret (s : Delivery) (rpc : Status) (reply : Slice) : Option (Delivery × List SenderEvent) :=
  match s.sender.call with
  | none => none
  | some (request, _) =>
    if s.calling then
      match if rpc.isOk then parseReply reply else .ok rpc with
      | .ok st =>
        some ({ s with sender := s.sender.finish st, calling := false }, [.ret request st])
      | _ => none
    else none

/-- One step. -/
def step (s : Delivery) : DeliveryLabel → Option (Delivery × List SenderEvent)
  | .producer => s.produce fl
  | .call => s.call
  | .ret rpc reply => s.ret rpc reply

/-- A new sender, and the records it is to send. -/
def start (kvs : List Record) : Delivery := ⟨.new, false, .sending kvs⟩

end Delivery

/-- The delivery of records. -/
def delivery (fl : BatchFlags) (kvs : List Record) :
    TransitionSystem Delivery DeliveryLabel SenderEvent where
  init s := s = .start kvs
  step := Delivery.step fl

/-! ## What a run shows

Read off the events: which requests were passed to the stub, and whether a call is in flight. A
request in flight must not change, though `Send` goes on filling a buffer meanwhile. So the
bytes are noted when the call begins and again when it is over, and `nextFlight` compares them. -/

/-- The requests that were passed to `stub_->Call`. -/
def calls (evs : List SenderEvent) : List Slice :=
  evs.filterMap fun
    | .call request => some request
    | _ => none

/-- The request in flight after one more event; `none` if a second call begins,
or one that is over had other bytes than when it began. -/
def nextFlight : Option (Option Slice) → SenderEvent → Option (Option Slice)
  | some none, .call request => some (some request)
  | some (some request), .ret request' _ => if request' = request then some none else none
  | flight, .returned _ => flight
  | flight, .waited _ => flight
  | _, _ => none

/-- The request in flight. -/
def inFlight (evs : List SenderEvent) : Option (Option Slice) := evs.foldl nextFlight (some none)

/-- A call has failed. -/
def Failed (evs : List SenderEvent) : Prop := ∃ request st, .ret request st ∈ evs ∧ st ≠ .ok

/-- All that has returned so far has returned OK. -/
def AllOk (evs : List SenderEvent) : Prop :=
  ∀ st, (.returned st ∈ evs ∨ .waited st ∈ evs) → st = .ok

/-- The records of a request, as `Compactor::Call` reads them. -/
def decodeRequest (request : Slice) : Option (List Record) :=
  match getFixed32 request with
  | .ok (n, input) => readKvs (loopCount n) input
  | _ => none

/-! ## The invariant

The records to send are split into three parts, in their order: those of the requests that have
been scheduled, those in the buffer, and those the thread has not sent yet. A step moves a
record from the last part to the second, or all of the second to the first. Nothing else moves,
so nothing is lost, repeated or reordered as long as no call fails. -/

/-- The records a thread has not sent yet. -/
def Producer.rest : Producer → List Record
  | .sending rest => rest
  | .inSend rest => rest
  | .inline next => next.rest
  | _ => []

/-- In the loop of `Send`, with a record just put into the buffer. -/
def Producer.isInSend : Producer → Bool
  | .inSend _ => true
  | .inline next => next.isInSend
  | _ => false

/-- `Flush` has put what there was into a request. -/
def Producer.isFlushed : Producer → Bool
  | .waiting => true
  | .inline next => next.isFlushed
  | .done => true
  | _ => false

/-- The request under way is the last of those scheduled, and the others have
been sent. -/
def UnderWay (s : Delivery) (evs : List SenderEvent) (sent : List (List Record)) : Prop :=
  match s.sender.call with
  | none => s.calling = false ∧ calls evs = sent.map requestOf
  | some (request, _) => ∃ before b, sent = before ++ [b] ∧ request = requestOf b ∧
      calls evs = (if s.calling then sent else before).map requestOf

/-- The invariant of a delivery, with the records `cur` in the buffer and those
of `sent` in the requests scheduled so far. -/
structure Delivers (fl : BatchFlags) (kvs : List Record) (evs : List SenderEvent) (s : Delivery)
    (sent : List (List Record)) (cur : List Record) : Prop where
  buf : s.sender.buf = encodeFixed32 0 ++ encodeKvs cur
  n : s.sender.n = cur.length
  records : sent.flatten ++ cur ++ s.producer.rest = kvs
  sizes : ∀ b ∈ sent, 1 ≤ b.length ∧ b.length ≤ fl.cap
  room : s.sender.status = .ok → s.producer.isInSend = false → cur.length < fl.cap
  full : s.producer.isInSend = true → s.sender.status = .ok → 1 ≤ cur.length ∧ cur.length ≤ fl.cap
  underWay : UnderWay s evs sent
  flight : inFlight evs = some (if s.calling then s.sender.call.map Prod.fst else none)
  failed : s.sender.status ≠ .ok ↔ Failed evs
  flushed : AllOk evs → s.producer.isFlushed = true → cur = []
  done : s.producer = .done → s.sender.call = none
  report : ∀ st, .waited st ∈ evs → s.producer = .done ∧ st = s.sender.status

variable {fl : BatchFlags} {kvs : List Record} {evs : List SenderEvent} {s : Delivery}
  {sent : List (List Record)} {cur : List Record}

theorem BatchFlags.cap_pos (fl : BatchFlags) : 0 < fl.cap :=
  Nat.lt_of_lt_of_le Nat.zero_lt_one (Nat.le_max_left ..)

theorem BatchFlags.cap_lt (fl : BatchFlags) : fl.cap < 2 ^ 31 := by
  have h₁ := fl.batchMin_lt
  have h₂ := fl.batchMax_lt
  rw [BatchFlags.cap]
  omega

theorem Delivers.start (fl : BatchFlags) (kvs : List Record) :
    Delivers fl kvs [] (.start kvs) [] [] where
  buf := (List.append_nil _).symm
  n := rfl
  records := rfl
  sizes b hb := absurd hb List.not_mem_nil
  room _ _ := fl.cap_pos
  full h := by cases h
  underWay := ⟨rfl, rfl⟩
  flight := rfl
  failed := by
    refine iff_of_false (fun h => h rfl) ?_
    rintro ⟨request, st, h, -⟩
    cases h
  flushed _ _ := rfl
  done h := by cases h
  report st h := by cases h

/-- Before the thread is done it has not reported that it has waited. -/
theorem Delivers.not_waited (h : Delivers fl kvs evs s sent cur) (hp : s.producer ≠ .done) :
    ∀ st, .waited st ∉ evs := fun st hst => hp (h.report st hst).1

/-! ### Events that show nothing

Most steps make no call. The events of such a step change nothing in what a run shows, and one
lemma each says so. -/

/-- What the thread of a sender shows does not concern its calls. -/
structure Quiet (es : List SenderEvent) : Prop where
  calls : calls es = []
  flight : ∀ x, es.foldl nextFlight x = x
  ret : ∀ request st, .ret request st ∉ es

theorem Quiet.calls_append {es : List SenderEvent} (h : Quiet es) :
    AsyncKVSender.calls (evs ++ es) = AsyncKVSender.calls evs := by
  rw [AsyncKVSender.calls, List.filterMap_append]
  exact (congrArg _ h.calls).trans (List.append_nil _)

theorem Quiet.nil : Quiet [] := ⟨rfl, fun _ => rfl, fun _ _ h => by cases h⟩

theorem Quiet.returned (st : Status) : Quiet [.returned st] := by
  refine ⟨rfl, fun x => ?_, fun _ _ h => ?_⟩
  · rcases x with _ | _ | _ <;> rfl
  · cases List.mem_singleton.mp h

theorem Quiet.waited (st : Status) : Quiet [.waited st] := by
  refine ⟨rfl, fun x => ?_, fun _ _ h => ?_⟩
  · rcases x with _ | _ | _ <;> rfl
  · cases List.mem_singleton.mp h

theorem Quiet.failed {es : List SenderEvent} (h : Quiet es) : Failed (evs ++ es) ↔ Failed evs := by
  constructor
  · rintro ⟨request, st, hmem, hst⟩
    exact ⟨request, st, (List.mem_append.mp hmem).resolve_right (h.ret request st), hst⟩
  · rintro ⟨request, st, hmem, hst⟩
    exact ⟨request, st, List.mem_append_left _ hmem, hst⟩

theorem AllOk.of_append {es : List SenderEvent} (h : AllOk (evs ++ es)) : AllOk evs :=
  fun st hst => h st (hst.imp (List.mem_append_left _) (List.mem_append_left _))

/-! ### One lemma for each part of a step

A record is put into the buffer, the buffer is scheduled as a request, the call begins and
returns. The loops are put together from these. -/

/-- **The thread goes on** without touching the sender. -/
theorem Delivers.goOn (h : Delivers fl kvs evs s sent cur) {p : Producer} {es : List SenderEvent}
    (hq : Quiet es) (hrest : p.rest = s.producer.rest)
    (hroom : s.sender.status = .ok → p.isInSend = false → cur.length < fl.cap)
    (hfull : p.isInSend = true → s.sender.status = .ok → 1 ≤ cur.length ∧ cur.length ≤ fl.cap)
    (hflushed : AllOk (evs ++ es) → p.isFlushed = true → cur = [])
    (hdone : p = .done → s.sender.call = none)
    (hreport : ∀ st, .waited st ∈ evs ++ es → p = .done ∧ st = s.sender.status) :
    Delivers fl kvs (evs ++ es) { s with producer := p } sent cur where
  buf := h.buf
  n := h.n
  records := by
    rw [hrest]
    exact h.records
  sizes := h.sizes
  room := hroom
  full := hfull
  underWay := by
    have hu := h.underWay
    rw [UnderWay, ← hq.calls_append] at hu
    exact hu
  flight := by
    rw [inFlight, List.foldl_append, hq.flight]
    exact h.flight
  failed := h.failed.trans hq.failed.symm
  flushed := hflushed
  done := hdone
  report := hreport

/-- **A record is put into the buffer.** The first record that is not sent becomes the
last of the buffer, so the order of all stays as it is. -/
theorem Delivers.appended {r : Record} {rest : List Record} (h : Delivers fl kvs evs s sent cur)
    (hp : s.producer = .sending (r :: rest)) :
    Delivers fl kvs evs { s with sender := s.sender.append r.1 r.2, producer := .inSend rest } sent
      (cur ++ [r]) where
  buf := by
    rw [append, encodeKvs_concat]
    dsimp only
    rw [putLengthPrefixedSlice_eq, putLengthPrefixedSlice_eq s.sender.buf, h.buf, List.append_assoc,
      List.append_assoc]
  n := by
    rw [List.length_append, List.length_singleton, ← h.n]
    rfl
  records := by
    have hrec := h.records
    rw [hp] at hrec
    rw [← hrec]
    simp [Producer.rest]
  sizes := h.sizes
  room _ hno := by cases hno
  full _ hst := by
    have hlt := h.room hst (by rw [hp]; rfl)
    rw [List.length_append, List.length_singleton]
    exact ⟨Nat.le_add_left 1 _, hlt⟩
  underWay := h.underWay
  flight := h.flight
  failed := h.failed
  flushed _ hno := by cases hno
  done hno := by cases hno
  report st hst := by
    have hdone := (h.report st hst).1
    rw [hp] at hdone
    cases hdone

/-- **A request is scheduled**: it carries what was in the buffer. The buffer goes
behind what has been sent, as a whole; nothing is in flight then, since a sender has one
call at a time. -/
theorem Delivers.scheduled (h : Delivers fl kvs evs s sent cur) (hcall : s.sender.call = none)
    (hsize : 1 ≤ cur.length ∧ cur.length ≤ fl.cap) {p : Producer} {es : List SenderEvent}
    (hq : Quiet es) (hrest : p.rest = s.producer.rest) (hin : p.isInSend = false)
    (hdone : p ≠ .done) (hreport : ∀ st, .waited st ∉ evs ++ es) :
    Delivers fl kvs (evs ++ es) { s with sender := s.sender.schedule, producer := p }
      (sent ++ [cur]) [] where
  buf := (List.append_nil _).symm
  n := rfl
  records := by
    rw [hrest, ← h.records]
    simp
  sizes b hb := by
    rcases List.mem_append.mp hb with hb | hb
    · exact h.sizes b hb
    · rw [List.mem_singleton.mp hb]
      exact hsize
  room _ _ := fl.cap_pos
  full hno := by
    have hno : p.isInSend = true := hno
    rw [hin] at hno
    cases hno
  underWay := by
    have hu := h.underWay
    rw [UnderWay, hcall] at hu
    refine ⟨sent, cur, rfl, ?_, ?_⟩
    · rw [requestOf, h.n, h.buf]
      rfl
    · rw [hq.calls_append, hu.2]
      dsimp only
      rw [hu.1]
      rfl
  flight := by
    have hu := h.underWay
    rw [UnderWay, hcall] at hu
    have hf := h.flight
    rw [hu.1] at hf
    rw [inFlight, List.foldl_append, hq.flight]
    dsimp only
    rw [hu.1]
    exact hf
  failed := h.failed.trans hq.failed.symm
  flushed _ _ := rfl
  done hno := absurd hno hdone
  report st hst := absurd hst (hreport st)

/-- The call of `SendIt` begins. -/
theorem Delivers.called (h : Delivers fl kvs evs s sent cur) {request : Slice} {x : Option Slice}
    (hcall : s.sender.call = some (request, x)) (hc : s.calling = false) :
    Delivers fl kvs (evs ++ [.call request]) { s with calling := true } sent cur where
  buf := h.buf
  n := h.n
  records := h.records
  sizes := h.sizes
  room := h.room
  full := h.full
  underWay := by
    have hu := h.underWay
    rw [UnderWay, hcall] at hu
    obtain ⟨before, b, hsent, hreq, hcalls⟩ := hu
    rw [UnderWay, hcall]
    refine ⟨before, b, hsent, hreq, ?_⟩
    rw [hc] at hcalls
    rw [calls, List.filterMap_append]
    show calls evs ++ [request] = _
    rw [hcalls, hsent, hreq]
    show before.map requestOf ++ [requestOf b] = (before ++ [b]).map requestOf
    rw [List.map_append]
    rfl
  flight := by
    have hf := h.flight
    rw [hc] at hf
    rw [inFlight, List.foldl_append]
    show nextFlight (inFlight evs) _ = _
    rw [hf]
    dsimp only
    rw [hcall]
    rfl
  failed := by
    refine h.failed.trans ⟨?_, ?_⟩
    · rintro ⟨request', st, hmem, hst⟩
      exact ⟨request', st, List.mem_append_left _ hmem, hst⟩
    · rintro ⟨request', st, hmem, hst⟩
      rcases List.mem_append.mp hmem with hmem | hmem
      · exact ⟨request', st, hmem, hst⟩
      · cases List.mem_singleton.mp hmem
  flushed hok := h.flushed hok.of_append
  done := h.done
  report st hst := by
    rcases List.mem_append.mp hst with hst | hst
    · exact h.report st hst
    · cases List.mem_singleton.mp hst

/-- A sender keeps the first error. -/
theorem finish_status (t : AsyncKVSender) (st : Status) :
    (t.finish st).status = .ok ↔ t.status = .ok ∧ st = .ok := by
  rw [finish]
  dsimp only
  cases st with
  | ok => simp [Status.isOk]
  | err c msg =>
    cases hst : t.status with
    | ok => simp [Status.isOk]
    | err c' msg' => simp [Status.isOk]

/-- The call of `SendIt` is over. -/
theorem Delivers.finished (h : Delivers fl kvs evs s sent cur) {request : Slice}
    {x : Option Slice} (hcall : s.sender.call = some (request, x)) (hc : s.calling = true)
    (st : Status) :
    Delivers fl kvs (evs ++ [.ret request st])
      { s with sender := s.sender.finish st, calling := false } sent cur where
  buf := h.buf
  n := h.n
  records := h.records
  sizes := h.sizes
  room hst := h.room ((finish_status _ _).mp hst).1
  full hin hst := h.full hin ((finish_status _ _).mp hst).1
  underWay := by
    have hu := h.underWay
    rw [UnderWay, hcall] at hu
    obtain ⟨before, b, hsent, hreq, hcalls⟩ := hu
    rw [hc] at hcalls
    refine ⟨rfl, ?_⟩
    rw [calls, List.filterMap_append]
    show calls evs ++ [] = _
    rw [List.append_nil, hcalls]
    rfl
  flight := by
    have hf := h.flight
    rw [hc, hcall] at hf
    rw [inFlight, List.foldl_append]
    show nextFlight (inFlight evs) _ = _
    rw [hf]
    exact if_pos rfl
  failed := by
    rw [ne_eq, finish_status, not_and_or]
    constructor
    · rintro (hst | hst)
      · obtain ⟨request', st', hmem, hne⟩ := h.failed.mp hst
        exact ⟨request', st', List.mem_append_left _ hmem, hne⟩
      · exact ⟨request, st, List.mem_append_right _ (List.mem_singleton_self _), hst⟩
    · rintro ⟨request', st', hmem, hne⟩
      rcases List.mem_append.mp hmem with hmem | hmem
      · exact .inl (h.failed.mpr ⟨request', st', hmem, hne⟩)
      · cases List.mem_singleton.mp hmem
        exact .inr hne
  flushed hok := h.flushed hok.of_append
  done _ := rfl
  report st' hst := by
    rcases List.mem_append.mp hst with hst | hst
    · have hnone := h.done (h.report st' hst).1
      rw [hcall] at hnone
      cases hnone
    · cases List.mem_singleton.mp hst

/-- A turn of the loop of `Send` or `Flush`. -/
theorem Delivers.turn (h : Delivers fl kvs evs s sent cur) {t : Turn} {next here : Producer}
    (hrest : next.rest = s.producer.rest) (hrest' : here.rest = s.producer.rest)
    (hnext : next ≠ .done ∧ next.isInSend = false) (hhere : here ≠ .done ∧ here.isFlushed = false)
    (hrun : s.producer ≠ .done) (hfail : t = .fail → s.sender.status ≠ .ok)
    (hleave : t = .leave → (s.sender.status = .ok → cur.length < fl.cap) ∧
      (next.isFlushed = true → cur = []))
    (hsched : t = .schedule → s.sender.call = none ∧ 1 ≤ cur.length ∧ cur.length ≤ fl.cap)
    (hwait : t = .wait → (s.sender.status = .ok → here.isInSend = false → cur.length < fl.cap) ∧
      (here.isInSend = true → s.sender.status = .ok → 1 ≤ cur.length ∧ cur.length ≤ fl.cap)) :
    ∃ sent' cur', Delivers fl kvs (evs ++ (s.turn fl t next here).2) (s.turn fl t next here).1
      sent' cur' := by
  have hno : ∀ {es : List SenderEvent}, (∀ st, .waited st ∉ es) → ∀ st, .waited st ∉ evs ++ es := by
    intro es hes st hst
    rcases List.mem_append.mp hst with hst | hst
    · exact h.not_waited hrun st hst
    · exact hes st hst
  have hreturned : ∀ st st', SenderEvent.waited st ∉ [SenderEvent.returned st'] := by
    intro st st' hst
    cases List.mem_singleton.mp hst
  have hnil : ∀ st, SenderEvent.waited st ∉ ([] : List SenderEvent) := fun st => List.not_mem_nil
  have hin : ∀ {P : Prop}, next.isInSend = true → P := by
    intro P hin
    rw [hnext.2] at hin
    cases hin
  cases t with
  | fail =>
    refine ⟨sent, cur, h.goOn (Quiet.returned _) hrest (fun hst => absurd hst (hfail rfl))
      (fun h' => hin h') (fun hok => ?_) (fun hd => absurd hd hnext.1)
      fun st hst => absurd hst (hno (fun st => hreturned st _) st)⟩
    have hst := hok s.sender.status (.inl (List.mem_append_right _ (List.mem_singleton_self _)))
    exact absurd hst (hfail rfl)
  | leave =>
    obtain ⟨hlt, hfl⟩ := hleave rfl
    exact ⟨sent, cur, h.goOn (Quiet.returned _) hrest (fun hst _ => hlt hst)
      (fun h' => hin h') (fun _ => hfl) (fun hd => absurd hd hnext.1)
      fun st hst => absurd hst (hno (fun st => hreturned st _) st)⟩
  | schedule =>
    obtain ⟨hcall, hsize⟩ := hsched rfl
    refine ⟨sent ++ [cur], [], ?_⟩
    cases hpool : fl.pool with
    | true =>
      simp only [Delivery.turn, hpool, if_true]
      exact h.scheduled hcall hsize (Quiet.returned _) hrest hnext.2 hnext.1
        (hno fun st => hreturned st _)
    | false =>
      simp only [Delivery.turn, hpool, Bool.false_eq_true, if_false]
      refine h.scheduled hcall hsize Quiet.nil hrest hnext.2 ?_ (hno hnil)
      intro hd
      cases hd
  | wait =>
    obtain ⟨hroom, hfull⟩ := hwait rfl
    refine ⟨sent, cur, h.goOn Quiet.nil hrest' hroom hfull (fun _ hf => ?_)
      (fun hd => absurd hd hhere.1) fun st hst => absurd hst (hno hnil st)⟩
    rw [hhere.2] at hf
    cases hf

/-- A turn of the loop of `Send`. -/
theorem Delivers.send (h : Delivers fl kvs evs s sent cur) {rest : List Record}
    (hp : s.producer = .inSend rest) :
    ∃ sent' cur', Delivers fl kvs
      (evs ++ (s.turn fl (s.sender.sendTurn fl.batchMin fl.batchMax) (.sending rest)
        (.inSend rest)).2)
      (s.turn fl (s.sender.sendTurn fl.batchMin fl.batchMax) (.sending rest) (.inSend rest)).1
      sent' cur' := by
  have hcap : fl.batchMin ≤ fl.cap ∧ fl.batchMax ≤ fl.cap := by
    rw [BatchFlags.cap]
    omega
  have hfull := h.full (by rw [hp]; rfl)
  have hn := h.n
  refine h.turn (by rw [hp]; rfl) (by rw [hp]) ⟨by simp, rfl⟩ ⟨by simp, rfl⟩ (by simp [hp])
    (fun ht => ?_) (fun ht => ⟨fun hst => ?_, Bool.noConfusion⟩) (fun ht => ?_)
    fun ht => ⟨fun _ => Bool.noConfusion, fun _ => hfull⟩
  · exact sendTurn_fail ht
  · have hlt := sendTurn_leave ht
    omega
  · obtain ⟨hst, hnone⟩ := sendTurn_schedule ht
    exact ⟨hnone, hfull hst⟩

/-- A turn of the loop of `Flush`. -/
theorem Delivers.flush (h : Delivers fl kvs evs s sent cur)
    (hp : s.producer = .sending [] ∨ s.producer = .flushing) :
    ∃ sent' cur', Delivers fl kvs
      (evs ++ (s.turn fl s.sender.flushTurn .waiting .flushing).2)
      (s.turn fl s.sender.flushTurn .waiting .flushing).1 sent' cur' := by
  have hrest : s.producer.rest = [] := by
    rcases hp with hp | hp <;> rw [hp] <;> rfl
  have hin : s.producer.isInSend = false := by
    rcases hp with hp | hp <;> rw [hp] <;> rfl
  have hrun : s.producer ≠ .done := by
    rcases hp with hp | hp <;> simp [hp]
  have hn := h.n
  refine h.turn hrest.symm hrest.symm ⟨by simp, rfl⟩ ⟨by simp, rfl⟩ hrun (fun ht => ?_)
    (fun ht => ⟨fun hst => h.room hst hin, fun _ => ?_⟩) (fun ht => ?_)
    fun ht => ⟨fun hst _ => h.room hst hin, Bool.noConfusion⟩
  · exact flushTurn_fail ht
  · exact List.eq_nil_of_length_eq_zero (hn ▸ flushTurn_leave ht)
  · obtain ⟨hst, hnone, hne⟩ := flushTurn_schedule ht
    refine ⟨hnone, ?_, (h.room hst hin).le⟩
    omega

/-! ### Steps and runs

The producer, or a call; and the induction over the run. -/

/-- **A step of the thread** keeps the invariant. The thread puts a record, waits, schedules
what is in the buffer, or returns. -/
theorem Delivers.produce (h : Delivers fl kvs evs s sent cur) {s' : Delivery}
    {es : List SenderEvent} (hs : s.produce fl = some (s', es)) :
    ∃ sent' cur', Delivers fl kvs (evs ++ es) s' sent' cur' := by
  have hstep : ∀ {p : Delivery × List SenderEvent}, some p = some (s', es) →
      (∃ sent' cur', Delivers fl kvs (evs ++ p.2) p.1 sent' cur') →
        ∃ sent' cur', Delivers fl kvs (evs ++ es) s' sent' cur' := by
    intro p hp hd
    obtain rfl := Option.some.inj hp
    exact hd
  rw [Delivery.produce] at hs
  -- where the thread of the sender is
  split at hs
  case h_1 r rest hp => exact hstep hs ((h.appended hp).send rfl)
  case h_2 rest hp => exact hstep hs (h.send hp)
  case h_3 hp => exact hstep hs (h.flush (.inl hp))
  case h_4 hp => exact hstep hs (h.flush (.inr hp))
  case h_5 hp =>
    have hno := h.not_waited (by rw [hp]; exact Producer.noConfusion)
    split at hs
    · refine hstep hs ⟨sent, cur, ?_⟩
      rw [List.append_nil]
      exact h
    · -- no call is under way, so the thread reports the status it finds
      rename_i ht
      have hcall : s.sender.call = none := by
        refine Option.not_isSome_iff_eq_none.mp fun hsome => ht ?_
        rw [waitTurn, if_pos hsome]
      refine hstep hs ⟨sent, cur, h.goOn (Quiet.waited _) (by rw [hp]; rfl)
        (fun hst _ => h.room hst (by rw [hp]; rfl)) Bool.noConfusion
        (fun hok _ => h.flushed hok.of_append (by rw [hp]; rfl)) (fun _ => hcall) fun st hst => ?_⟩
      rcases List.mem_append.mp hst with hst | hst
      · exact absurd hst (hno st)
      · cases List.mem_singleton.mp hst
        exact ⟨rfl, rfl⟩
  case h_6 next hp =>
    split at hs
    · rename_i hnone
      have hno := h.not_waited (by rw [hp]; exact Producer.noConfusion)
      have hroom := h.room
      have hfull := h.full
      have hflushed := h.flushed
      rw [hp] at hroom hfull hflushed
      refine hstep hs ⟨sent, cur, h.goOn (Quiet.returned _) (by rw [hp]; rfl) hroom hfull
        (fun hok => hflushed hok.of_append) (fun _ => Option.isNone_iff_eq_none.mp hnone)
        fun st hst => ?_⟩
      rcases List.mem_append.mp hst with hst | hst
      · exact absurd hst (hno st)
      · cases List.mem_singleton.mp hst
    · cases hs
  case h_7 => cases hs

/-- **A step** keeps the invariant. What is sent and what is buffered may change, which
is why the lemma gives the new lists. -/
theorem Delivers.step (h : Delivers fl kvs evs s sent cur) {l : DeliveryLabel} {s' : Delivery}
    {es : List SenderEvent} (hs : s.step fl l = some (s', es)) :
    ∃ sent' cur', Delivers fl kvs (evs ++ es) s' sent' cur' := by
  cases l with
  | producer => exact h.produce hs
  | call =>
    rw [Delivery.step, Delivery.call] at hs
    split at hs
    · cases hs
    · rename_i request x hcall
      split at hs
      · cases hs
      · rename_i hc
        cases hs
        exact ⟨sent, cur, h.called hcall (Bool.eq_false_of_not_eq_true hc)⟩
  | ret rpc reply =>
    rw [Delivery.step, Delivery.ret] at hs
    split at hs
    · cases hs
    · rename_i request x hcall
      split at hs
      · rename_i hc
        split at hs
        · rename_i st hst
          cases hs
          exact ⟨sent, cur, h.finished hcall hc st⟩
        · cases hs
      · cases hs

/-- **The invariant holds in every run.** At the start nothing has been scheduled, and all
records are still to be sent. -/
theorem run_delivers {C : Delivery → DeliveryLabel → Prop}
    (hr : (delivery fl kvs).Run C evs s) : ∃ sent cur, Delivers fl kvs evs s sent cur := by
  refine hr.invariant (I := fun evs s => ∃ sent cur, Delivers fl kvs evs s sent cur) ?_ ?_
  · rintro s rfl
    exact ⟨[], [], Delivers.start fl kvs⟩
  · rintro evs s l s' es - ⟨sent, cur, h⟩ - hs
    exact h.step hs

/-! ## Requests

From the invariant to what the receiver reads. A request carries the records as bytes, with the
prefix of each length and a count before them; the receiver reads them back if the lengths are
those of varints of 32 bits. -/

/-- **A request is read back** as the records it carries. Its count is written over four
bytes that were left for it at the beginning, and each key and value after its length. -/
theorem decodeRequest_requestOf (h : ∀ r ∈ kvs, Record.Fits r) (hlen : kvs.length < 2 ^ 31) :
    decodeRequest (requestOf kvs) = some kvs := by
  simp only [decodeRequest, requestOf, getFixed32_encode, loopCount_ofNat hlen, readKvs_encodeKvs h]

/-- The requests passed on are the first ones of those scheduled. -/
theorem UnderWay.calls (h : UnderWay s evs sent) : ∃ bs, bs <+: sent ∧ calls evs = bs.map requestOf := by
  rw [UnderWay] at h
  split at h
  · exact ⟨sent, List.prefix_rfl, h.2⟩
  · obtain ⟨before, b, rfl, -, hcalls⟩ := h
    refine ⟨_, ?_, hcalls⟩
    split
    · exact List.prefix_rfl
    · exact List.prefix_append ..

/-- **A sender delivers exactly once and in order.** In every run at most one
call is in flight and its request stays as it is, every request carries between
one record and the bound; and once `WaitForAsyncOperations` has returned, it has
returned an error if a call has failed, and if everything returned OK the
requests carry all of the records, in order. -/
theorem delivery_exactly_once (fl : BatchFlags) (kvs : List Record) (hfits : ∀ r ∈ kvs, r.Fits)
    {C : Delivery → DeliveryLabel → Prop} {evs : List SenderEvent} {s : Delivery}
    (hr : (delivery fl kvs).Run C evs s) :
    (inFlight evs).isSome = true ∧
      (∀ request ∈ calls evs, ∃ b, decodeRequest request = some b ∧ 1 ≤ b.length ∧
        b.length ≤ max 1 (max fl.batchMin fl.batchMax)) ∧
      ∀ st, .waited st ∈ evs → (Failed evs → st ≠ .ok) ∧
        (AllOk evs → ∃ bs : List (List Record),
          (calls evs).map decodeRequest = bs.map some ∧ bs.flatten = kvs) := by
  obtain ⟨sent, cur, h⟩ := run_delivers hr
  have hfitsSent : ∀ b ∈ sent, ∀ r ∈ b, r.Fits := by
    intro b hb r hrb
    refine hfits r ?_
    rw [← h.records]
    exact List.mem_append_left _ (List.mem_append_left _ (List.mem_flatten.mpr ⟨b, hb, hrb⟩))
  have hdec : ∀ b ∈ sent, decodeRequest (requestOf b) = some b := fun b hb =>
    decodeRequest_requestOf (hfitsSent b hb) (Nat.lt_of_le_of_lt (h.sizes b hb).2 fl.cap_lt)
  refine ⟨by rw [h.flight]; rfl, ?_, fun st hst => ⟨?_, fun hok => ⟨sent, ?_, ?_⟩⟩⟩
  · intro request hreq
    obtain ⟨bs, hpre, hcalls⟩ := h.underWay.calls
    rw [hcalls] at hreq
    obtain ⟨b, hb, rfl⟩ := List.mem_map.mp hreq
    have hb := hpre.subset hb
    exact ⟨b, hdec b hb, h.sizes b hb⟩
  · intro hfail
    rw [(h.report st hst).2]
    exact h.failed.mpr hfail
  · have hu := h.underWay
    rw [UnderWay, h.done (h.report st hst).1] at hu
    rw [hu.2, List.map_map]
    exact List.map_congr_left fun b hb => hdec b hb
  · have hdone := (h.report st hst).1
    have hrec := h.records
    rw [h.flushed hok (by rw [hdone]; rfl), hdone] at hrec
    simpa [Producer.rest] using hrec

theorem zero_lt_two_pow : 0 < 2 ^ 31 := Nat.two_pow_pos 31

theorem two_lt_two_pow : 2 < 2 ^ 31 := by decide

/-- Requests of two records at most, and a thread pool. -/
def upToTwo : BatchFlags where
  batchMin := 0
  batchMin_lt := zero_lt_two_pow
  batchMax := 2
  batchMax_lt := two_lt_two_pow
  pool := true

/-- Three records, one of them empty. -/
def threeRecords : List Record := [([1], [2]), ([], []), ([3], [])]

/-- The first record is sent alone, the others while its call is under way. -/
def sendThree : List DeliveryLabel :=
  [.producer, .call, .producer, .producer, .producer, .ret .ok (encodeFixed32 0), .producer, .call,
    .ret .ok (encodeFixed32 0), .producer, .producer]

/-- `delivery_exactly_once` for two requests. -/
theorem delivery_exactly_once_three : ∃ evs s,
    (delivery upToTwo threeRecords).Run (fun _ _ => True) evs s ∧
      (calls evs).map decodeRequest = [some [([1], [2])], some [([], []), ([3], [])]] ∧
      AllOk evs ∧ ∃ bs : List (List Record), (calls evs).map decodeRequest = bs.map some ∧
        bs.flatten = threeRecords := by
  have hend : ((delivery upToTwo threeRecords).exec (fun _ _ => true) (.start threeRecords)
      sendThree).map Prod.snd = some
        [.returned .ok, .call (requestOf [([1], [2])]), .returned .ok,
          .ret (requestOf [([1], [2])]) .ok, .returned .ok,
          .call (requestOf [([], []), ([3], [])]), .ret (requestOf [([], []), ([3], [])]) .ok,
          .returned .ok, .waited .ok] := by
    decide +kernel
  obtain ⟨⟨s, evs⟩, hx, hevs⟩ := Option.map_eq_some_iff.mp hend
  dsimp only at hevs
  have hinit : (delivery upToTwo threeRecords).init (.start threeRecords) := rfl
  have hr := Run.exec (C := fun _ _ => True) (fun _ _ _ => trivial) (.init hinit) hx
  have hok : AllOk ([] ++ evs) := by
    rw [hevs]
    intro st hst
    simpa using hst
  obtain ⟨-, -, hend⟩ := delivery_exactly_once upToTwo threeRecords
    (by simp [threeRecords, Record.Fits]) hr
  refine ⟨_, s, hr, ?_, hok, (hend .ok ?_).2 hok⟩
  · rw [hevs]
    decide +kernel
  · rw [hevs]
    simp

/-- A record whose key is too long for its length to be sent. -/
theorem decodeRequest_long {key : Slice} (hkey : key.length = 2 ^ 32) (val : Slice) :
    decodeRequest (requestOf [(key, val)]) ≠ some [(key, val)] := by
  have hcut : putLengthPrefixedSlice [] key = 0 :: key := by
    rw [putLengthPrefixedSlice, hkey]
    rfl
  have hnil : key ≠ [] := by
    rintro rfl
    cases hkey
  have hget : ∀ rest : Slice, getLengthPrefixedSlice (0 :: rest) = some ([], rest) := fun _ => rfl
  have hn : loopCount (UInt32.ofNat [(key, val)].length) = 1 := rfl
  intro h
  simp only [decodeRequest, requestOf, getFixed32_encode, hn] at h
  rw [readKvs, encodeKvs, List.flatMap_singleton, hcut, List.cons_append, hget] at h
  dsimp only at h
  split at h
  · cases h
  · obtain ⟨kvs, -, hkvs⟩ := Option.map_eq_some_iff.mp h
    exact hnil (congrArg (fun x => (x.headD ([], [])).1) hkvs).symm

/-- The length of the key is cut to 32 bits: everything returns OK, and another
record is delivered. -/
theorem delivery_long_key : ∃ kvs evs s,
    (delivery upToTwo kvs).Run (fun _ _ => True) evs s ∧ .waited .ok ∈ evs ∧ AllOk evs ∧
      ¬ ∃ bs : List (List Record), (calls evs).map decodeRequest = bs.map some ∧
        bs.flatten = kvs := by
  obtain ⟨key, hkey⟩ : ∃ key : Slice, key.length = 2 ^ 32 :=
    ⟨List.replicate (2 ^ 32) 0, List.length_replicate⟩
  have hreq : encodeFixed32 (UInt32.ofNat 1) ++
      (putLengthPrefixedSlice (putLengthPrefixedSlice (encodeFixed32 0) key) []).drop 4 =
        requestOf [(key, [])] := by
    rw [putLengthPrefixedSlice_eq, putLengthPrefixedSlice_eq (encodeFixed32 0), List.append_assoc,
      requestOf, encodeKvs, List.flatMap_singleton]
    rfl
  have hx : ∃ s, (delivery upToTwo [(key, [])]).exec (fun _ _ => true) (.start [(key, [])])
      [.producer, .call, .ret .ok (encodeFixed32 0), .producer, .producer] = some (s,
        [.returned .ok, .call (requestOf [(key, [])]), .ret (requestOf [(key, [])]) .ok,
          .returned .ok, .waited .ok]) := by
    rw [← hreq]
    exact ⟨_, rfl⟩
  obtain ⟨s, hx⟩ := hx
  have hinit : (delivery upToTwo [(key, [])]).init (.start [(key, [])]) := rfl
  have hr := Run.exec (C := fun _ _ => True) (fun _ _ _ => trivial) (.init hinit) hx
  rw [List.nil_append] at hr
  refine ⟨_, _, s, hr, by simp, fun st hst => by simpa using hst, ?_⟩
  rintro ⟨bs, hbs, hflat⟩
  have hbs : [decodeRequest (requestOf [(key, [])])] = bs.map some := hbs
  cases bs with
  | nil => cases hbs
  | cons b bs =>
    cases bs with
    | nil =>
      rw [List.flatten_singleton] at hflat
      rw [hflat] at hbs
      exact decodeRequest_long hkey [] (List.cons.inj hbs).1
    | cons b' bs => cases (List.cons.inj hbs).2

end AsyncKVSender

end DeltaFs
