import DeltaFs.FsDb
import DeltaFs.Rpc

/-!
# Senders of records

`parallel_compactor.cc`: an `AsyncKVSender` collects records for one rank in a
buffer while a request with those before them is under way. A request is the
number of its records and the records, keys and values length-prefixed;
`Compactor::Call` reads it back and writes the records as one batch.

A request is read back to the records it was made of (`readKvs_encodeKvs`), provided that
their number and their lengths fit the words that are written for them. What a batch writes
is the db with these records put one after the other.
-/

namespace DeltaFs

open Rpc

/-- A record of a db. -/
abbrev Record : Type := Slice × Slice

/-- `AsyncKVSender`. -/
structure AsyncKVSender where
  /-- `status_` -/
  status : Status
  /-- if `scheduled_`, the request and, once it has been served, the reply -/
  call : Option (Slice × Option Slice)
  /-- `buf_`, which starts with room for a number -/
  buf : Slice
  /-- `n_` -/
  n : Nat

/-- What one turn of a loop on a sender finds. -/
inductive Turn where
  /-- an error -/
  | fail
  /-- nothing to do -/
  | leave
  /-- records to send, and nothing under way -/
  | schedule
  /-- something under way to wait for -/
  | wait
  deriving DecidableEq

namespace AsyncKVSender

/-- A new sender. -/
def new : AsyncKVSender where
  status := .ok
  call := none
  buf := encodeFixed32 0
  n := 0

/-- The start of `Send`. -/
def append (s : AsyncKVSender) (key val : Slice) : AsyncKVSender :=
  { s with
    buf := putLengthPrefixedSlice (putLengthPrefixedSlice s.buf key) val
    n := s.n + 1 }

/-- `Schedule`, without the call. -/
def schedule (s : AsyncKVSender) : AsyncKVSender :=
  { s with
    call := some (encodeFixed32 (UInt32.ofNat s.n) ++ s.buf.drop 4, none)
    buf := encodeFixed32 0
    n := 0 }

/-- A turn of the loop of `Send`. -/
def sendTurn (batchMin batchMax : Nat) (s : AsyncKVSender) : Turn :=
  if !s.status.isOk then .fail
  else if s.n < batchMin then .leave
  else if s.call.isNone then .schedule
  else if s.n < batchMax then .leave
  else .wait

/-- A turn of the loop of `Flush`. -/
def flushTurn (s : AsyncKVSender) : Turn :=
  if !s.status.isOk then .fail
  else if s.n = 0 then .leave
  else if s.call.isNone then .schedule
  else .wait

/-- A turn of the loop of `WaitForAsyncOperations`, and what follows it. -/
def waitTurn (s : AsyncKVSender) : Turn :=
  if s.call.isSome then .wait
  else if s.status.isOk then .leave
  else .fail

/-- What `SendIt` makes of a reply. -/
def parseReply (reply : Slice) : Read Status :=
  match getFixed32 reply with
  | .fault => .fault
  | .bad => .ok (.err .corruption (str "Bad rpc reply header"))
  | .ok (code, _) => if code ≠ 0 then Status.fromCode code else .ok .ok

/-- The rest of `SendIt`, once the call has returned `rpc`. -/
def finish (s : AsyncKVSender) (st : Status) : AsyncKVSender :=
  { s with
    call := none
    status := if !st.isOk && s.status.isOk then st else s.status }

variable {batchMin batchMax : Nat} {s : AsyncKVSender}

theorem sendTurn_fail (h : s.sendTurn batchMin batchMax = .fail) : s.status ≠ .ok := by
  intro hst
  rw [sendTurn, hst] at h
  simp only [Status.isOk, Bool.not_true, Bool.false_eq_true, if_false] at h
  split at h
  · cases h
  split at h
  · cases h
  split at h
  · cases h
  · cases h

/-- `Send` returns with fewer records than fill a batch. -/
theorem sendTurn_leave (h : s.sendTurn batchMin batchMax = .leave) :
    s.n < batchMin ∨ s.n < batchMax := by
  rw [sendTurn] at h
  split at h
  · cases h
  split at h
  · rename_i hmin
    exact .inl hmin
  split at h
  · cases h
  split at h
  · rename_i hmax
    exact .inr hmax
  · cases h

theorem sendTurn_schedule (h : s.sendTurn batchMin batchMax = .schedule) :
    s.status = .ok ∧ s.call = none := by
  rw [sendTurn] at h
  split at h
  · cases h
  rename_i hst
  split at h
  · cases h
  split at h
  · rename_i hnone
    rw [Bool.not_eq_true', Bool.not_eq_false] at hst
    exact ⟨Status.isOk_iff.mp hst, Option.isNone_iff_eq_none.mp hnone⟩
  split at h
  · cases h
  · cases h

theorem flushTurn_fail (h : s.flushTurn = .fail) : s.status ≠ .ok := by
  intro hst
  rw [flushTurn, hst] at h
  simp only [Status.isOk, Bool.not_true, Bool.false_eq_true, if_false] at h
  split at h
  · cases h
  split at h
  · cases h
  · cases h

/-- `Flush` returns with no records left. -/
theorem flushTurn_leave (h : s.flushTurn = .leave) : s.n = 0 := by
  rw [flushTurn] at h
  split at h
  · cases h
  split at h
  · rename_i hzero
    exact hzero
  split at h
  · cases h
  · cases h

theorem flushTurn_schedule (h : s.flushTurn = .schedule) :
    s.status = .ok ∧ s.call = none ∧ s.n ≠ 0 := by
  rw [flushTurn] at h
  split at h
  · cases h
  rename_i hst
  split at h
  · cases h
  rename_i hzero
  split at h
  · rename_i hnone
    rw [Bool.not_eq_true', Bool.not_eq_false] at hst
    exact ⟨Status.isOk_iff.mp hst, Option.isNone_iff_eq_none.mp hnone, hzero⟩
  · cases h

end AsyncKVSender

/-! ## Requests

Both ends of a request: how the buffer is appended to, and how `Call` reads it. Reading back
needs that lengths fit a varint of 32 bits, and that the number of pairs is one an `int` has. -/

/-- `n` records of a request, in `Call`. -/
def readKvs : Nat → Slice → Option (List Record)
  | 0, _ => some []
  | n + 1, input =>
    match getLengthPrefixedSlice input with
    | none => none
    | some (key, input) =>
      match getLengthPrefixedSlice input with
      | none => none
      | some (val, input) => (readKvs n input).map fun kvs => (key, val) :: kvs

/-- `WriteBatch::Put` of each record, and `Write`. -/
def Db.writeBatch (db : Db) (kvs : List Record) : Db :=
  kvs.foldl (fun db r => Function.update db r.1 (some r.2)) db

/-- How often a loop runs whose bound is a number read into an `int`. -/
def loopCount (n : UInt32) : Nat := if n.toNat < 2 ^ 31 then n.toNat else 0

theorem loopCount_ofNat {n : Nat} (h : n < 2 ^ 31) : loopCount (UInt32.ofNat n) = n := by
  have htoNat : (UInt32.ofNat n).toNat = n := by
    rw [UInt32.toNat_ofNat']
    omega
  rw [loopCount, htoNat, if_pos h]

/-- `Compactor::Call`, given how the write turns out. Returns the reply. -/
def Db.call (db : Db) (request : Slice) (write : Status) : Db × Slice :=
  match getFixed32 request with
  | .ok (n, input) =>
    match readKvs (loopCount n) input with
    | none =>
      (db, encodeFixed32 (Status.err .invalidArgument (str "Bad kv encoding")).errCode)
    | some kvs =>
      (if write.isOk then db.writeBatch kvs else db, encodeFixed32 write.errCode)
  | _ => (db, encodeFixed32 (Status.err .invalidArgument (str "Bad rpc request encoding")).errCode)

/-- The records of a buffer, as they are appended. -/
def encodeKvs (kvs : List Record) : Slice :=
  kvs.flatMap fun r => putLengthPrefixedSlice [] r.1 ++ putLengthPrefixedSlice [] r.2

/-- The lengths of a record are varints of 32 bits, as in the dbs it comes
from. -/
def Record.Fits (r : Record) : Prop := r.1.length < 2 ^ 32 ∧ r.2.length < 2 ^ 32

/-- The request that carries records. -/
def requestOf (kvs : List Record) : Slice :=
  encodeFixed32 (UInt32.ofNat kvs.length) ++ encodeKvs kvs

variable {kvs : List Record} {db : Db}

theorem encodeKvs_concat (kvs : List Record) (r : Record) :
    encodeKvs (kvs ++ [r]) =
      encodeKvs kvs ++ (putLengthPrefixedSlice [] r.1 ++ putLengthPrefixedSlice [] r.2) := by
  rw [encodeKvs, encodeKvs, List.flatMap_append, List.flatMap_singleton]

/-- **Reading back** what was appended. By induction on the records, with whatever
follows them: the reader stops at the count and not at the end of its input. -/
theorem readKvs_encodeKvs (h : ∀ r ∈ kvs, Record.Fits r) :
    readKvs kvs.length (encodeKvs kvs) = some kvs := by
  induction kvs with
  | nil => rfl
  | cons r kvs ih =>
    obtain ⟨hkey, hval⟩ := h r (List.mem_cons_self ..)
    have henc : encodeKvs (r :: kvs) = putLengthPrefixedSlice [] r.1 ++
        (putLengthPrefixedSlice [] r.2 ++ encodeKvs kvs) := by
      rw [← List.append_assoc]
      exact List.flatMap_cons
    have hrest := ih fun x hx => h x (List.mem_cons_of_mem _ hx)
    rw [List.length_cons, readKvs, henc, getLengthPrefixedSlice_put hkey]
    simp only [getLengthPrefixedSlice_put hval, hrest, Option.map_some]

/-- **A request is served** in full, or fails and says so. Reading cannot fail, so the
only failure left is that of the write, whose status is the reply. -/
theorem call_requestOf (h : ∀ r ∈ kvs, Record.Fits r) (hlen : kvs.length < 2 ^ 31)
    (write : Status) :
    db.call (requestOf kvs) write =
      (if write.isOk then db.writeBatch kvs else db, encodeFixed32 write.errCode) := by
  simp only [Db.call, requestOf, getFixed32_encode, loopCount_ofNat hlen, readKvs_encodeKvs h]

theorem parseReply_errCode (st : Status) :
    AsyncKVSender.parseReply (encodeFixed32 st.errCode) = .ok .ok → st = .ok := by
  intro h
  cases st with
  | ok => rfl
  | err c msg =>
    have hread := getFixed32_encode (Status.err c msg).errCode []
    rw [List.append_nil] at hread
    rw [AsyncKVSender.parseReply, hread] at h
    simp only [ne_eq, Status.errCode_err_ne, not_false_eq_true, if_true,
      Status.fromCode_errCode] at h
    cases h

/-! ## What a batch writes

A batch is a list of pairs that are put one after the other, so the last value for a key counts.
Where all pairs of a key have one value the order is of no consequence, and this is so in a
compaction. -/

theorem writeBatch_some {key val : Slice} (h : db.writeBatch kvs key = some val) :
    db key = some val ∨ (key, val) ∈ kvs := by
  induction kvs generalizing db with
  | nil => exact .inl h
  | cons r kvs ih =>
    have hstep : Db.writeBatch (Function.update db r.1 (some r.2)) kvs key = some val := h
    cases ih hstep with
    | inl hdb =>
      by_cases hkey : key = r.1
      · subst hkey
        rw [Function.update_self] at hdb
        cases hdb
        exact .inr (List.mem_cons_self ..)
      · rw [Function.update_of_ne hkey] at hdb
        exact .inl hdb
    | inr hmem => exact .inr (List.mem_cons_of_mem _ hmem)

/-- A record is written, or stays, if the batch has no other value for its
key. -/
theorem writeBatch_of {key val : Slice} (hone : ∀ v, (key, v) ∈ kvs → v = val)
    (h : db key = some val ∨ (key, val) ∈ kvs) : db.writeBatch kvs key = some val := by
  induction kvs generalizing db with
  | nil => exact h.resolve_right List.not_mem_nil
  | cons r kvs ih =>
    show Db.writeBatch (Function.update db r.1 (some r.2)) kvs key = some val
    refine ih (fun v hv => hone v (List.mem_cons_of_mem _ hv)) ?_
    by_cases hkey : key = r.1
    · have hval : r.2 = val := hone r.2 (hkey ▸ List.mem_cons_self ..)
      rw [hkey, Function.update_self, hval]
      exact .inl rfl
    · rw [Function.update_of_ne hkey]
      refine h.imp_right fun hmem => (List.mem_cons.mp hmem).resolve_left fun heq => hkey ?_
      exact congrArg Prod.fst heq

end DeltaFs
