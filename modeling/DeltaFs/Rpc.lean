import DeltaFs.Filesystem

/-!
# Remote calls

`fscom.cc` and `fssvr.cc`: the six operations of `FilesystemIf` as messages.
For each of them there is a client, which encodes its arguments, sends them
through an `rpc::If` and decodes the reply, and an operation of the server,
which decodes the arguments, calls the `FilesystemIf` and encodes what it
returns. `FilesystemServer::Call` hands a message to the operation its first
four bytes select.

A message is a byte string. Reading a message is fallible in two ways: a `Get`
function returns false when the message is too short, and reading or writing
outside of a message is a fault, as is a failed assertion. The `FilesystemIf`
and the transport act in a monad `m` of their own.
-/

namespace DeltaFs

/-- The outcome of reading a message. -/
inductive Read (α : Type) where
  /-- memory outside the message has been touched, or an assertion has failed -/
  | fault
  /-- a `Get` function has returned false -/
  | bad
  | ok (a : α)
  deriving DecidableEq

instance : Monad Read where
  pure := .ok
  bind x f :=
    match x with
    | .fault => .fault
    | .bad => .bad
    | .ok a => f a

/-! ## Status codes

A status travels as its code. `FromCode` asserts that the code is known, so a code that is not
one of these stops the client; every code a server sends is one. -/

/-- `err_code`, of an error. -/
def ErrCode.code : ErrCode → Nat
  | .notFound => 1
  | .alreadyExists => 2
  | .corruption => 3
  | .notSupported => 4
  | .invalidArgument => 5
  | .ioError => 6
  | .bufferFull => 7
  | .readOnly => 8
  | .writeOnly => 9
  | .deadLocked => 10
  | .optimisticLockFailed => 11
  | .tryAgain => 12
  | .disconnected => 13
  | .assertionFailed => 14
  | .accessDenied => 15
  | .dirExpected => 16
  | .fileExpected => 17
  | .dirNotEmpty => 18
  | .dirNotAllocated => 19
  | .dirDisabled => 20
  | .dirMarkedDeleted => 21
  | .invalidFileDescriptor => 22
  | .tooManyOpens => 23
  | .range => 24

/-- The error of a code from 1 to `kMaxCode`. -/
def ErrCode.ofCode : Nat → Option ErrCode
  | 1 => some .notFound
  | 2 => some .alreadyExists
  | 3 => some .corruption
  | 4 => some .notSupported
  | 5 => some .invalidArgument
  | 6 => some .ioError
  | 7 => some .bufferFull
  | 8 => some .readOnly
  | 9 => some .writeOnly
  | 10 => some .deadLocked
  | 11 => some .optimisticLockFailed
  | 12 => some .tryAgain
  | 13 => some .disconnected
  | 14 => some .assertionFailed
  | 15 => some .accessDenied
  | 16 => some .dirExpected
  | 17 => some .fileExpected
  | 18 => some .dirNotEmpty
  | 19 => some .dirNotAllocated
  | 20 => some .dirDisabled
  | 21 => some .dirMarkedDeleted
  | 22 => some .invalidFileDescriptor
  | 23 => some .tooManyOpens
  | 24 => some .range
  | _ => none

theorem ErrCode.ofCode_code (c : ErrCode) : ofCode c.code = some c := by
  cases c <;> rfl

theorem ErrCode.code_pos (c : ErrCode) : 0 < c.code := by
  cases c <;> decide

theorem ErrCode.code_lt (c : ErrCode) : c.code < 25 := by
  cases c <;> decide

namespace Status

/-- `err_code`. -/
def errCode : Status → UInt32
  | ok => 0
  | err c _ => UInt32.ofNat c.code

/-- `FromCode`, with its assertion. -/
def fromCode (code : UInt32) : Read Status :=
  match ErrCode.ofCode code.toNat with
  | none => .fault
  | some c => .ok (err c [])

/-- A status travels as its code. -/
theorem fromCode_errCode (c : ErrCode) (msg : Slice) :
    fromCode (err c msg).errCode = .ok (err c []) := by
  have hcode : (UInt32.ofNat c.code).toNat = c.code := by
    have := c.code_lt
    rw [UInt32.toNat_ofNat']
    omega
  rw [errCode, fromCode, hcode, ErrCode.ofCode_code]

theorem errCode_err_ne (c : ErrCode) (msg : Slice) : (err c msg).errCode ≠ 0 := by
  intro h
  have hnat := congrArg UInt32.toNat h
  have hpos := c.code_pos
  have hlt := c.code_lt
  rw [errCode, UInt32.toNat_ofNat', UInt32.toNat_zero] at hnat
  omega

end Status

namespace Rpc

/-! ## Encoders

There are two versions of each in the source, one that writes to a buffer and one that appends
to a string. They write the same bytes. -/

/-- `EncodeLookupStat`. -/
def encodeLookupStat (stat : LookupStat) : Slice :=
  encodeFixed64 stat.dnodeNo ++ encodeFixed64 stat.inodeNo ++ encodeFixed64 stat.leaseDue ++
    encodeFixed32 stat.zerothServer ++ encodeFixed32 stat.dirMode ++ encodeFixed32 stat.userId ++
    encodeFixed32 stat.groupId

/-- `EncodeStat`. -/
def encodeStat (stat : Stat) : Slice :=
  encodeFixed64 stat.dnodeNo ++ encodeFixed64 stat.inodeNo ++ encodeFixed32 stat.fileMode ++
    encodeFixed32 stat.userId ++ encodeFixed32 stat.groupId

/-- `EncodeUser`. -/
def encodeUser (u : User) : Slice := encodeFixed32 u.uid ++ encodeFixed32 u.gid

/-- `PutFixed32`. -/
def putFixed32 (dst : Slice) (v : UInt32) : Slice := dst ++ encodeFixed32 v

/-- `PutFixed64`. -/
def putFixed64 (dst : Slice) (v : UInt64) : Slice := dst ++ encodeFixed64 v

/-- `PutLookupStat`. -/
def putLookupStat (dst : Slice) (stat : LookupStat) : Slice :=
  let dst := putFixed64 dst stat.dnodeNo
  let dst := putFixed64 dst stat.inodeNo
  let dst := putFixed64 dst stat.leaseDue
  let dst := putFixed32 dst stat.zerothServer
  let dst := putFixed32 dst stat.dirMode
  let dst := putFixed32 dst stat.userId
  putFixed32 dst stat.groupId

/-- `PutUser`. -/
def putUser (dst : Slice) (u : User) : Slice := putFixed32 (putFixed32 dst u.uid) u.gid

/-! ## Decoders

A decoder takes its bytes off the front of the message, and fails if there are too few.
`GetStat` sets five of the nine fields and leaves the others as they are, which is why the
caller's stat is an argument. -/

/-- `DecodeFixed32`, at a place in a message. -/
def word32 (p : Slice) : Read UInt32 :=
  if 4 ≤ p.length then .ok (decodeFixed32 (p.take 4)) else .fault

/-- `DecodeFixed64`, at a place in a message. -/
def word64 (p : Slice) : Read UInt64 :=
  if 8 ≤ p.length then .ok (decodeFixed64 (p.take 8)) else .fault

/-- `GetLookupStat`. -/
def getLookupStat (input : Slice) : Read (LookupStat × Slice) :=
  if input.length < 40 then .bad
  else do
    let dnodeNo ← word64 input
    let inodeNo ← word64 (input.drop 8)
    let leaseDue ← word64 (input.drop 16)
    let zerothServer ← word32 (input.drop 24)
    let dirMode ← word32 (input.drop 28)
    let userId ← word32 (input.drop 32)
    let groupId ← word32 (input.drop 36)
    .ok (⟨dnodeNo, inodeNo, zerothServer, dirMode, userId, groupId, leaseDue⟩, input.drop 40)

/-- `GetStat`: only sets the fields a message carries. -/
def getStat (stat : Stat) (input : Slice) : Read (Stat × Slice) :=
  if input.length < 28 then .bad
  else do
    let dnodeNo ← word64 input
    let inodeNo ← word64 (input.drop 8)
    let fileMode ← word32 (input.drop 16)
    let userId ← word32 (input.drop 20)
    let groupId ← word32 (input.drop 24)
    .ok ({ stat with
      dnodeNo := dnodeNo
      inodeNo := inodeNo
      fileMode := fileMode
      userId := userId
      groupId := groupId }, input.drop 28)

/-- `GetUser`. -/
def getUser (input : Slice) : Read (User × Slice) :=
  if input.length < 8 then .bad
  else do
    let uid ← word32 input
    let gid ← word32 (input.drop 4)
    .ok (⟨uid, gid⟩, input.drop 8)

/-- `GetFixed32`. -/
def getFixed32 (input : Slice) : Read (UInt32 × Slice) :=
  if input.length < 4 then .bad
  else do
    let op ← word32 input
    .ok (op, input.drop 4)

/-- `GetLengthPrefixedSlice`, which reads byte by byte up to the end. -/
def getSlice (input : Slice) : Read (Slice × Slice) :=
  match getLengthPrefixedSlice input with
  | none => .bad
  | some r => .ok r

/-! ## The server

The opcode is the first word of the message and selects one of six operations from a table; each
decodes its input, calls the method and encodes the output. Nothing compares the word with the
size of the table, so a word beyond the last operation reads outside of it, and `fault` stands
for that. -/

/-- The status a method of a `FilesystemIf` returns, and what its output
parameter holds by then. -/
structure Output where
  status : Status
  look : LookupStat
  stat : Stat
  n : UInt32
  deriving DecidableEq

/-- `rpc::kNumOps`, and the operations before it. -/
def kLokup : UInt32 := 0
@[inherit_doc kLokup] def kMkdir : UInt32 := 1
@[inherit_doc kLokup] def kMkfle : UInt32 := 2
@[inherit_doc kLokup] def kMkfls : UInt32 := 3
@[inherit_doc kLokup] def kBukin : UInt32 := 4
@[inherit_doc kLokup] def kLstat : UInt32 := 5
@[inherit_doc kLokup] def kNumOps : UInt32 := 6

/-- The fields every request starts with. -/
def getHead (input : Slice) : Read (LookupStat × Slice × User × Slice) := do
  let (_, input) ← getFixed32 input
  let (pa, input) ← getLookupStat input
  let (name, input) ← getSlice input
  let (me, input) ← getUser input
  .ok (pa, name, me, input)

variable {m : Type → Type} [Monad m]

/-- What the operations of the server share: a request that cannot be decoded
is refused, any other one is answered with the code of the status and, if that
is OK, with the method's output. -/
def serve (decode : Slice → Read Call) (encode : Output → Slice) (fs : Call → m Output)
    (input : Slice) : m (Read (Status × Slice)) :=
  match decode input with
  | .fault => pure .fault
  | .bad => pure (.ok (.err .invalidArgument (str "Bad rpc input data"), []))
  | .ok c => do
    let ss ← fs c
    let out := encodeFixed32 ss.status.errCode
    pure (.ok (.ok, if ss.status.isOk then out ++ encode ss else out))

/-- The input of `LokupOperation`. -/
def decodeLokup (input : Slice) : Read Call := do
  let (pa, name, me, _) ← getHead input
  .ok ⟨me, pa, .lokup name⟩

/-- The input of `MkdirOperation`. -/
def decodeMkdir (input : Slice) : Read Call := do
  let (pa, name, me, input) ← getHead input
  let (mode, _) ← getFixed32 input
  .ok ⟨me, pa, .mkdir name mode⟩

/-- The input of `MkfleOperation`. -/
def decodeMkfle (input : Slice) : Read Call := do
  let (pa, name, me, input) ← getHead input
  let (mode, _) ← getFixed32 input
  .ok ⟨me, pa, .mkfle name mode⟩

/-- The input of `MkflsOperation`. -/
def decodeMkfls (input : Slice) : Read Call := do
  let (pa, namearr, me, input) ← getHead input
  let (n, input) ← getFixed32 input
  let (mode, _) ← getFixed32 input
  .ok ⟨me, pa, .mkfls namearr mode n⟩

/-- The input of `BukinOperation`. -/
def decodeBukin (input : Slice) : Read Call := do
  let (pa, dir, me, _) ← getHead input
  .ok ⟨me, pa, .bukin dir⟩

/-- The input of `LstatOperation`. -/
def decodeLstat (input : Slice) : Read Call := do
  let (pa, name, me, _) ← getHead input
  .ok ⟨me, pa, .lstat name⟩

/-- `LokupOperation`. -/
def lokupOperation (fs : Call → m Output) : Slice → m (Read (Status × Slice)) :=
  serve decodeLokup (fun o => encodeLookupStat o.look) fs

/-- `MkdirOperation`. -/
def mkdirOperation (fs : Call → m Output) : Slice → m (Read (Status × Slice)) :=
  serve decodeMkdir (fun o => encodeStat o.stat) fs

/-- `MkfleOperation`. -/
def mkfleOperation (fs : Call → m Output) : Slice → m (Read (Status × Slice)) :=
  serve decodeMkfle (fun o => encodeStat o.stat) fs

/-- `MkflsOperation`. -/
def mkflsOperation (fs : Call → m Output) : Slice → m (Read (Status × Slice)) :=
  serve decodeMkfls (fun o => encodeFixed32 o.n) fs

/-- `BukinOperation`. -/
def bukinOperation (fs : Call → m Output) : Slice → m (Read (Status × Slice)) :=
  serve decodeBukin (fun _ => []) fs

/-- `LstatOperation`. -/
def lstatOperation (fs : Call → m Output) : Slice → m (Read (Status × Slice)) :=
  serve decodeLstat (fun o => encodeStat o.stat) fs

/-- `hmap_`, as the constructor of `FilesystemServer` sets it up. -/
def hmap (fs : Call → m Output) : List (Slice → m (Read (Status × Slice))) :=
  [lokupOperation fs, mkdirOperation fs, mkfleOperation fs, mkflsOperation fs, bukinOperation fs,
    lstatOperation fs]

/-- `FilesystemServer::Call`. -/
def serverCall (fs : Call → m Output) (input : Slice) : m (Read (Status × Slice)) :=
  if 4 ≤ input.length then
    match word32 input with
    | .ok op =>
      match (hmap fs)[op.toNat]? with
      | some handler => handler input
      | none => pure .fault
    | _ => pure .fault
  else pure (.ok (.err .invalidArgument (str "Bad rpc req"), []))

/-! ## The clients

A client writes its request, asserts that it fits the buffer, has it sent, and reads the reply.
Only `Mkfls` writes to a string that grows. All share the first fields and the handling of
replies, which are given once. -/

/-- `sizeof(Message::buf)`. -/
def bufSize : Nat := 200

/-- The fields every request starts with, in `Message::buf`. -/
def encodeHead (op : UInt32) (parent : LookupStat) (name : Slice) (me : User) : Slice :=
  encodeFixed32 op ++ encodeLookupStat parent ++ putLengthPrefixedSlice [] name ++ encodeUser me

/-- The request of `LokupCli`. -/
def lokupRequest (parent : LookupStat) (name : Slice) (me : User) : Slice :=
  encodeHead kLokup parent name me

/-- The request of `MkdirCli`. -/
def mkdirRequest (parent : LookupStat) (name : Slice) (mode : UInt32) (me : User) : Slice :=
  encodeHead kMkdir parent name me ++ encodeFixed32 mode

/-- The request of `MkfleCli`. -/
def mkfleRequest (parent : LookupStat) (name : Slice) (mode : UInt32) (me : User) : Slice :=
  encodeHead kMkfle parent name me ++ encodeFixed32 mode

/-- The request of `MkflsCli`, in `Message::extra_buf`. -/
def mkflsRequest (parent : LookupStat) (namearr : Slice) (n mode : UInt32) (me : User) : Slice :=
  let buf := putFixed32 [] kMkfls
  let buf := putLookupStat buf parent
  let buf := putLengthPrefixedSlice buf namearr
  let buf := putUser buf me
  let buf := putFixed32 buf n
  putFixed32 buf mode

/-- The request of `BukinCli`. -/
def bukinRequest (parent : LookupStat) (dir : Slice) (me : User) : Slice :=
  encodeHead kBukin parent dir me

/-- The request of `LstatCli`. -/
def lstatRequest (parent : LookupStat) (name : Slice) (me : User) : Slice :=
  encodeHead kLstat parent name me

/-- What the clients do with a reply: `get` decodes the output of the method,
and `ret` is what the output parameter holds before. -/
def parseReply {α : Type} (get : Slice → Read (α × Slice)) (ret : α) (out : Slice) :
    Read (Status × α) :=
  match getFixed32 out with
  | .fault => .fault
  | .bad => .ok (.err .corruption (str "Bad rpc reply header"), ret)
  | .ok (rv, input) =>
    if rv ≠ 0 then do
      let s ← Status.fromCode rv
      .ok (s, ret)
    else
      match get input with
      | .fault => .fault
      | .bad => .ok (.err .corruption (str "Bad rpc reply"), ret)
      | .ok (a, _) => .ok (.ok, a)

/-- The second half of the clients: `rpc_->Call` and its reply. -/
def finishCall {α : Type} (rpc : Slice → m (Read (Status × Slice))) (request : Slice)
    (get : Slice → Read (α × Slice)) (ret : α) : m (Read (Status × α)) := do
  let r ← rpc request
  pure do
    let (s, out) ← r
    if s.isOk then parseReply get ret out else .ok (s, ret)

/-- A request that is written to `Message::buf` has to fit in there. -/
def checkedCall {α : Type} (rpc : Slice → m (Read (Status × Slice))) (request : Slice)
    (get : Slice → Read (α × Slice)) (ret : α) : m (Read (Status × α)) :=
  if request.length ≤ bufSize then finishCall rpc request get ret else pure .fault

/-- `LokupCli`. -/
def lokupCli (rpc : Slice → m (Read (Status × Slice))) (parent : LookupStat) (name : Slice)
    (me : User) (stat : LookupStat) : m (Read (Status × LookupStat)) :=
  checkedCall rpc (lokupRequest parent name me) getLookupStat stat

/-- `MkdirCli`. -/
def mkdirCli (rpc : Slice → m (Read (Status × Slice))) (parent : LookupStat) (name : Slice)
    (mode : UInt32) (me : User) (stat : Stat) : m (Read (Status × Stat)) :=
  checkedCall rpc (mkdirRequest parent name mode me) (getStat stat) stat

/-- `MkfleCli`. -/
def mkfleCli (rpc : Slice → m (Read (Status × Slice))) (parent : LookupStat) (name : Slice)
    (mode : UInt32) (me : User) (stat : Stat) : m (Read (Status × Stat)) :=
  checkedCall rpc (mkfleRequest parent name mode me) (getStat stat) stat

/-- `MkflsCli`. -/
def mkflsCli (rpc : Slice → m (Read (Status × Slice))) (parent : LookupStat) (namearr : Slice)
    (n mode : UInt32) (me : User) (ret : UInt32) : m (Read (Status × UInt32)) :=
  finishCall rpc (mkflsRequest parent namearr n mode me) getFixed32 ret

/-- The output of `Bukin`, which has none. -/
def getNothing (input : Slice) : Read (Unit × Slice) := .ok ((), input)

/-- `BukinCli`. -/
def bukinCli (rpc : Slice → m (Read (Status × Slice))) (parent : LookupStat) (dir : Slice)
    (me : User) : m (Read (Status × Unit)) :=
  checkedCall rpc (bukinRequest parent dir me) getNothing ()

/-- `LstatCli`. -/
def lstatCli (rpc : Slice → m (Read (Status × Slice))) (parent : LookupStat) (name : Slice)
    (me : User) (stat : Stat) : m (Read (Status × Stat)) :=
  checkedCall rpc (lstatRequest parent name me) (getStat stat) stat

/-! ## Decoding what has been encoded

The server's decoders on the clients' requests, field by field from the front. Each lemma says
what is read and what is left, so that the lemma of a request is a chain of them. -/

variable {rest input : Slice}

@[simp] theorem ok_bind {α β : Type} (a : α) (f : α → Read β) : (Read.ok a >>= f) = f a := rfl

theorem word32_of_le (h : 4 ≤ input.length) : word32 input = .ok (decodeFixed32 (input.take 4)) :=
  if_pos h

theorem word64_of_le (h : 8 ≤ input.length) : word64 input = .ok (decodeFixed64 (input.take 8)) :=
  if_pos h

@[simp] theorem word32_encode (v : UInt32) (rest : Slice) :
    word32 (encodeFixed32 v ++ rest) = .ok v := by
  rw [word32_of_le (by simp), List.take_left' (length_encodeFixed32 v), decodeFixed32_encodeFixed32]

@[simp] theorem word64_encode (v : UInt64) (rest : Slice) :
    word64 (encodeFixed64 v ++ rest) = .ok v := by
  rw [word64_of_le (by simp), List.take_left' (length_encodeFixed64 v), decodeFixed64_encodeFixed64]

theorem drop_encodeFixed32 (v : UInt32) (rest : Slice) {k : Nat} (h : 4 ≤ k) :
    (encodeFixed32 v ++ rest).drop k = rest.drop (k - 4) := by
  rw [List.drop_append, length_encodeFixed32, List.drop_eq_nil_of_le (by simpa using h),
    List.nil_append]

theorem drop_encodeFixed64 (v : UInt64) (rest : Slice) {k : Nat} (h : 8 ≤ k) :
    (encodeFixed64 v ++ rest).drop k = rest.drop (k - 8) := by
  rw [List.drop_append, length_encodeFixed64, List.drop_eq_nil_of_le (by simpa using h),
    List.nil_append]

theorem getFixed32_encode (v : UInt32) (rest : Slice) :
    getFixed32 (encodeFixed32 v ++ rest) = .ok (v, rest) := by
  rw [getFixed32, if_neg (by simp), word32_encode, ok_bind, drop_encodeFixed32 _ _ (by decide)]
  rfl

theorem getUser_encode (u : User) (rest : Slice) :
    getUser (encodeUser u ++ rest) = .ok (u, rest) := by
  rw [getUser, encodeUser, List.append_assoc, if_neg (by simp; omega)]
  simp (disch := decide) only [word32_encode, ok_bind, drop_encodeFixed32, Nat.reduceSub,
    List.drop_zero]

theorem getLookupStat_encode (stat : LookupStat) (rest : Slice) :
    getLookupStat (encodeLookupStat stat ++ rest) = .ok (stat, rest) := by
  rw [getLookupStat, encodeLookupStat, if_neg (by simp; omega)]
  simp (disch := decide) only [List.append_assoc, word64_encode, word32_encode, ok_bind,
    drop_encodeFixed32, drop_encodeFixed64, Nat.reduceSub, List.drop_zero]

/-- **`GetStat`** sets five of the nine fields. The size, the times and the zeroth server
are not written, so the caller's are kept. -/
theorem getStat_encode (stat st : Stat) (rest : Slice) :
    getStat stat (encodeStat st ++ rest) = .ok ({ stat with
      dnodeNo := st.dnodeNo
      inodeNo := st.inodeNo
      fileMode := st.fileMode
      userId := st.userId
      groupId := st.groupId }, rest) := by
  rw [getStat, encodeStat, if_neg (by simp; omega)]
  simp (disch := decide) only [List.append_assoc, word64_encode, word32_encode, ok_bind,
    drop_encodeFixed32, drop_encodeFixed64, Nat.reduceSub, List.drop_zero]

theorem getSlice_put {value : Slice} (h : value.length < 2 ^ 32) (rest : Slice) :
    getSlice (putLengthPrefixedSlice [] value ++ rest) = .ok (value, rest) := by
  rw [getSlice, getLengthPrefixedSlice_put h]

/-- **The head of a request** is read back. Everything in it but the name has a fixed
length, and the name has a prefix with its own; what follows the head is left over. -/
theorem getHead_encodeHead {name : Slice} (h : name.length < 2 ^ 32) (op : UInt32)
    (parent : LookupStat) (me : User) (rest : Slice) :
    getHead (encodeHead op parent name me ++ rest) = .ok (parent, name, me, rest) := by
  rw [getHead, encodeHead, List.append_assoc, List.append_assoc, List.append_assoc,
    getFixed32_encode]
  simp only [ok_bind, getLookupStat_encode, getSlice_put h, getUser_encode]

/-- The string version of the encoders writes the same bytes. -/
theorem mkflsRequest_eq (parent : LookupStat) (namearr : Slice) (n mode : UInt32) (me : User) :
    mkflsRequest parent namearr n mode me =
      encodeHead kMkfls parent namearr me ++ (encodeFixed32 n ++ encodeFixed32 mode) := by
  simp only [mkflsRequest, putFixed32, putLookupStat, putFixed64, putUser, encodeHead,
    encodeLookupStat, encodeUser, putLengthPrefixedSlice, List.append_assoc, List.nil_append]

theorem decodeLokup_request {name : Slice} (h : name.length < 2 ^ 32) (parent : LookupStat)
    (me : User) : decodeLokup (lokupRequest parent name me) = .ok ⟨me, parent, .lokup name⟩ := by
  have hhead := getHead_encodeHead h kLokup parent me []
  rw [List.append_nil] at hhead
  rw [decodeLokup, lokupRequest, hhead]
  rfl

theorem decodeLstat_request {name : Slice} (h : name.length < 2 ^ 32) (parent : LookupStat)
    (me : User) : decodeLstat (lstatRequest parent name me) = .ok ⟨me, parent, .lstat name⟩ := by
  have hhead := getHead_encodeHead h kLstat parent me []
  rw [List.append_nil] at hhead
  rw [decodeLstat, lstatRequest, hhead]
  rfl

theorem decodeBukin_request {dir : Slice} (h : dir.length < 2 ^ 32) (parent : LookupStat)
    (me : User) : decodeBukin (bukinRequest parent dir me) = .ok ⟨me, parent, .bukin dir⟩ := by
  have hhead := getHead_encodeHead h kBukin parent me []
  rw [List.append_nil] at hhead
  rw [decodeBukin, bukinRequest, hhead]
  rfl

theorem getFixed32_encode' (v : UInt32) : getFixed32 (encodeFixed32 v) = .ok (v, []) := by
  have h := getFixed32_encode v []
  rwa [List.append_nil] at h

theorem decodeMkdir_request {name : Slice} (h : name.length < 2 ^ 32) (parent : LookupStat)
    (mode : UInt32) (me : User) :
    decodeMkdir (mkdirRequest parent name mode me) = .ok ⟨me, parent, .mkdir name mode⟩ := by
  rw [decodeMkdir, mkdirRequest, getHead_encodeHead h]
  simp only [ok_bind, getFixed32_encode']

theorem decodeMkfle_request {name : Slice} (h : name.length < 2 ^ 32) (parent : LookupStat)
    (mode : UInt32) (me : User) :
    decodeMkfle (mkfleRequest parent name mode me) = .ok ⟨me, parent, .mkfle name mode⟩ := by
  rw [decodeMkfle, mkfleRequest, getHead_encodeHead h]
  simp only [ok_bind, getFixed32_encode']

theorem decodeMkfls_request {namearr : Slice} (h : namearr.length < 2 ^ 32) (parent : LookupStat)
    (n mode : UInt32) (me : User) :
    decodeMkfls (mkflsRequest parent namearr n mode me) =
      .ok ⟨me, parent, .mkfls namearr mode n⟩ := by
  rw [decodeMkfls, mkflsRequest_eq, getHead_encodeHead h]
  simp only [ok_bind, getFixed32_encode, getFixed32_encode']

/-! ## Calls

Request, method and reply put together, over a transport that delivers. What the client has then
is what the method has returned, as far as the reply carries it (`delivered`). -/

/-- What is left of a status that has travelled: its code. -/
def received : Status → Status
  | .ok => .ok
  | .err c _ => .err c []

/-- A reply that fits the client is read back. -/
theorem parseReply_serve {α : Type} {get : Slice → Read (α × Slice)} {out : Slice} {a ret : α}
    (hget : get out = .ok (a, [])) (st : Status) :
    parseReply get ret (if st.isOk then encodeFixed32 st.errCode ++ out
      else encodeFixed32 st.errCode) = .ok (received st, if st.isOk then a else ret) := by
  cases st with
  | ok =>
    have hzero : ¬Status.ok.errCode ≠ 0 := fun h => h rfl
    rw [parseReply, Status.isOk_ok, if_pos rfl, getFixed32_encode]
    simp only [if_neg hzero, hget]
    rfl
  | err c msg =>
    have hne := Status.errCode_err_ne c msg
    rw [parseReply, Status.isOk_err, if_neg Bool.false_ne_true, getFixed32_encode']
    simp only [if_pos hne, Status.fromCode_errCode, ok_bind]
    rfl

/-- **A call over a transport that delivers it** is a call of the method, with
the arguments of the client. -/
theorem finishCall_serve [LawfulMonad m] {α : Type} {decode : Slice → Read Call} {request : Slice}
    {c : Call} (hdec : decode request = .ok c) {encode : Output → Slice}
    {get : Slice → Read (α × Slice)} {a : Output → α} (hget : ∀ o, get (encode o) = .ok (a o, []))
    (fs : Call → m Output) (ret : α) :
    finishCall (serve decode encode fs) request get ret =
      (fun o => Read.ok (received o.status, if o.status.isOk then a o else ret)) <$> fs c := by
  rw [finishCall, serve, hdec, map_eq_pure_bind, bind_assoc]
  congr 1
  funext o
  rw [pure_bind]
  simp only [ok_bind, Status.isOk_ok, if_pos, parseReply_serve (hget o)]

/-- The same of a request that is written to `Message::buf`. -/
theorem checkedCall_serve [LawfulMonad m] {α : Type} {decode : Slice → Read Call}
    {request : Slice} {c : Call} (hfits : request.length ≤ bufSize)
    (hdec : decode request = .ok c) {encode : Output → Slice} {get : Slice → Read (α × Slice)}
    {a : Output → α} (hget : ∀ o, get (encode o) = .ok (a o, [])) (fs : Call → m Output)
    (ret : α) :
    checkedCall (serve decode encode fs) request get ret =
      (fun o => Read.ok (received o.status, if o.status.isOk then a o else ret)) <$> fs c := by
  rw [checkedCall, if_pos hfits, finishCall_serve hdec hget]

/-- The operation of a server that answers a request. -/
def operation (fs : Call → m Output) : Request → Slice → m (Read (Status × Slice))
  | .lokup _ => lokupOperation fs
  | .mkdir _ _ => mkdirOperation fs
  | .mkfle _ _ => mkfleOperation fs
  | .mkfls _ _ _ => mkflsOperation fs
  | .bukin _ => bukinOperation fs
  | .lstat _ => lstatOperation fs

/-- The client of a request, with what its output parameters hold before and
after. -/
def client (rpc : Slice → m (Read (Status × Slice))) (c : Call) (ret : Output) :
    m (Read Output) :=
  match c.req with
  | .lokup name => do
    let r ← lokupCli rpc c.parent name c.who ret.look
    pure (r >>= fun (s, look) => .ok { ret with status := s, look := look })
  | .mkdir name mode => do
    let r ← mkdirCli rpc c.parent name mode c.who ret.stat
    pure (r >>= fun (s, stat) => .ok { ret with status := s, stat := stat })
  | .mkfle name mode => do
    let r ← mkfleCli rpc c.parent name mode c.who ret.stat
    pure (r >>= fun (s, stat) => .ok { ret with status := s, stat := stat })
  | .mkfls namearr mode n => do
    let r ← mkflsCli rpc c.parent namearr n mode c.who ret.n
    pure (r >>= fun (s, n) => .ok { ret with status := s, n := n })
  | .bukin dir => do
    let r ← bukinCli rpc c.parent dir c.who
    pure (r >>= fun (s, _) => .ok { ret with status := s })
  | .lstat name => do
    let r ← lstatCli rpc c.parent name c.who ret.stat
    pure (r >>= fun (s, stat) => .ok { ret with status := s, stat := stat })

/-- The encoding of a request. -/
def encode (c : Call) : Slice :=
  match c.req with
  | .lokup name => lokupRequest c.parent name c.who
  | .mkdir name mode => mkdirRequest c.parent name mode c.who
  | .mkfle name mode => mkfleRequest c.parent name mode c.who
  | .mkfls namearr mode n => mkflsRequest c.parent namearr n mode c.who
  | .bukin dir => bukinRequest c.parent dir c.who
  | .lstat name => lstatRequest c.parent name c.who

/-- The clients but `MkflsCli` write to `Message::buf`. -/
def isBuffered : Request → Bool
  | .mkfls _ _ _ => false
  | _ => true

/-- The field of variable length. -/
def bytes : Request → Slice
  | .lokup name => name
  | .mkdir name _ => name
  | .mkfle name _ => name
  | .mkfls namearr _ _ => namearr
  | .bukin dir => dir
  | .lstat name => name

/-- The encoding of a request fits the buffer its client writes it to. -/
def Fits (c : Call) : Prop := isBuffered c.req = true → (encode c).length ≤ bufSize

/-- `GetStat`, as a merge. -/
def mergeStat (stat st : Stat) : Stat :=
  { stat with
    dnodeNo := st.dnodeNo
    inodeNo := st.inodeNo
    fileMode := st.fileMode
    userId := st.userId
    groupId := st.groupId }

/-- What the output parameters of a client hold after a call the method has
answered with `o`. -/
def delivered (req : Request) (ret o : Output) : Output :=
  if o.status.isOk then
    match req with
    | .lokup _ => { ret with status := .ok, look := o.look }
    | .mkfls _ _ _ => { ret with status := .ok, n := o.n }
    | .bukin _ => { ret with status := .ok }
    | _ => { ret with status := .ok, stat := mergeStat ret.stat o.stat }
  else { ret with status := received o.status }

theorem getStat_encode' (stat st : Stat) :
    getStat stat (encodeStat st) = .ok (mergeStat stat st, []) := by
  have h := getStat_encode stat st []
  rwa [List.append_nil] at h

theorem getLookupStat_encode' (stat : LookupStat) :
    getLookupStat (encodeLookupStat stat) = .ok (stat, []) := by
  have h := getLookupStat_encode stat []
  rwa [List.append_nil] at h

theorem length_bytes_le (c : Call) : (bytes c.req).length ≤ (encode c).length := by
  obtain ⟨who, parent, req⟩ := c
  cases req <;> simp [bytes, encode, lokupRequest, mkdirRequest, mkfleRequest, mkflsRequest_eq,
    bukinRequest, lstatRequest, encodeHead, putLengthPrefixedSlice] <;> omega

theorem client_of_map [LawfulMonad m] {α : Type} {x : m (Read (Status × α))}
    {f : Output → Read (Status × α)} {y : m Output} (h : x = f <$> y)
    (g : Read (Status × α) → Read Output) :
    (do let r ← x; pure (g r)) = (fun o => g (f o)) <$> y := by
  rw [h, map_eq_pure_bind, map_eq_pure_bind, bind_assoc]
  simp only [pure_bind]

theorem map_congr_output {f g : Output → Read Output} (h : ∀ o, f o = g o) {y : m Output} :
    f <$> y = g <$> y := by
  rw [funext h]

/-- **A remote call** is a call of the method, with what the reply carries of
its output. -/
theorem client_operation [LawfulMonad m] (fs : Call → m Output) {c : Call} (hfits : Fits c)
    (hlen : (bytes c.req).length < 2 ^ 32) (ret : Output) :
    client (operation fs c.req) c ret =
      (fun o => Read.ok (delivered c.req ret o)) <$> fs c := by
  obtain ⟨who, parent, req⟩ := c
  have hstat : ∀ o : Output, getStat ret.stat (encodeStat o.stat) =
      .ok (mergeStat ret.stat o.stat, []) := fun o => getStat_encode' ret.stat o.stat
  have hlook : ∀ o : Output, getLookupStat (encodeLookupStat o.look) = .ok (o.look, []) :=
    fun o => getLookupStat_encode' o.look
  have hnothing : ∀ _ : Output, getNothing [] = .ok ((), []) := fun _ => rfl
  cases req with
  | lokup name =>
    have hlen : name.length < 2 ^ 32 := hlen
    have hcall := checkedCall_serve (hfits rfl) (decodeLokup_request hlen parent who) hlook fs ret.look
    refine (client_of_map hcall _).trans (map_congr_output fun o => ?_)
    cases hs : o.status <;> simp [delivered, hs, received]
  | mkdir name mode =>
    have hlen : name.length < 2 ^ 32 := hlen
    have hcall := checkedCall_serve (hfits rfl) (decodeMkdir_request hlen parent mode who) hstat fs ret.stat
    refine (client_of_map hcall _).trans (map_congr_output fun o => ?_)
    cases hs : o.status <;> simp [delivered, hs, received]
  | mkfle name mode =>
    have hlen : name.length < 2 ^ 32 := hlen
    have hcall := checkedCall_serve (hfits rfl) (decodeMkfle_request hlen parent mode who) hstat fs ret.stat
    refine (client_of_map hcall _).trans (map_congr_output fun o => ?_)
    cases hs : o.status <;> simp [delivered, hs, received]
  | mkfls namearr mode n =>
    have hlen : namearr.length < 2 ^ 32 := hlen
    have hcall := finishCall_serve (decodeMkfls_request hlen parent n mode who)
      (fun o => getFixed32_encode' o.n) fs ret.n
    refine (client_of_map hcall _).trans (map_congr_output fun o => ?_)
    cases hs : o.status <;> simp [delivered, hs, received]
  | bukin dir =>
    have hlen : dir.length < 2 ^ 32 := hlen
    have hcall := checkedCall_serve (hfits rfl) (decodeBukin_request hlen parent who) hnothing fs ()
    refine (client_of_map hcall _).trans (map_congr_output fun o => ?_)
    cases hs : o.status <;> simp [delivered, hs, received]
  | lstat name =>
    have hlen : name.length < 2 ^ 32 := hlen
    have hcall := checkedCall_serve (hfits rfl) (decodeLstat_request hlen parent who) hstat fs ret.stat
    refine (client_of_map hcall _).trans (map_congr_output fun o => ?_)
    cases hs : o.status <;> simp [delivered, hs, received]

end Rpc

end DeltaFs
