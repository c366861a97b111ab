import DeltaFs.Coding

/-!
# Statuses, stats and permission checks

The records every component passes around: `Status`, `Stat`, `LookupStat`,
`DirId`, `User`, and the checks on a lease certificate that the server and the
client make with the same code.
-/

namespace DeltaFs

/-- The non-zero codes of `Status`. -/
inductive ErrCode where
  | notFound | alreadyExists | corruption | notSupported | invalidArgument | ioError | bufferFull
  | readOnly | writeOnly | deadLocked | optimisticLockFailed | tryAgain | disconnected
  | assertionFailed | accessDenied | dirExpected | fileExpected | dirNotEmpty | dirNotAllocated
  | dirDisabled | dirMarkedDeleted | invalidFileDescriptor | tooManyOpens | range
  deriving DecidableEq

/-- `Status`: success, or a code with a message. -/
inductive Status where
  /-- `Status::OK()` -/
  | ok : Status
  /-- an error code and its message -/
  | err : ErrCode → Slice → Status
  deriving DecidableEq

namespace Status

/-- The constructor's message: the second part follows after a colon. -/
def joinMsg (msg msg2 : Slice) : Slice := if msg2 = [] then msg else msg ++ str ": " ++ msg2

/-- `ok()`. -/
def isOk : Status → Bool
  | ok => true
  | err _ _ => false

/-- `IsNotFound()`. -/
def isNotFound : Status → Bool
  | err .notFound _ => true
  | _ => false

/-- `IsDirExpected()`. -/
def isDirExpected : Status → Bool
  | err .dirExpected _ => true
  | _ => false

@[simp] theorem isOk_ok : ok.isOk = true := rfl

@[simp] theorem isOk_err (c : ErrCode) (m : Slice) : (err c m).isOk = false := rfl

theorem isOk_iff {s : Status} : s.isOk = true ↔ s = ok := by
  cases s <;> simp

theorem not_isOk {s : Status} (h : s ≠ ok) : (!s.isOk) = true := by
  cases s with
  | ok => exact absurd rfl h
  | err c m => rfl

end Status

/-- `LokupMode`. -/
inductive LokupMode where
  | kRegular | kBatchedCreats | kBulkIn
  deriving DecidableEq

/-- `User`. -/
structure User where
  uid : UInt32
  gid : UInt32
  deriving DecidableEq

/-- `Stat`: a file or directory record. -/
structure Stat where
  dnodeNo : UInt64
  inodeNo : UInt64
  fileSize : UInt64
  /-- file type and access modes -/
  fileMode : UInt32
  zerothServer : UInt32
  userId : UInt32
  groupId : UInt32
  modifyTime : UInt64
  changeTime : UInt64
  deriving DecidableEq

/-- `LookupStat`: what a lookup returns of a directory, and the lease
certificate later requests carry. -/
structure LookupStat where
  dnodeNo : UInt64
  inodeNo : UInt64
  zerothServer : UInt32
  dirMode : UInt32
  userId : UInt32
  groupId : UInt32
  leaseDue : UInt64
  deriving DecidableEq

/-- `LookupStat::CopyFrom` followed by `SetLeaseDue`. -/
def LookupStat.copyFrom (stat : Stat) (leaseDue : UInt64) : LookupStat where
  dnodeNo := stat.dnodeNo
  inodeNo := stat.inodeNo
  dirMode := stat.fileMode
  zerothServer := stat.zerothServer
  userId := stat.userId
  groupId := stat.groupId
  leaseDue := leaseDue

/-- `DirId`. -/
structure DirId where
  dno : UInt64
  ino : UInt64
  deriving DecidableEq

/-- `DirId(const LookupStat&)`. -/
def LookupStat.dirId (p : LookupStat) : DirId := ⟨p.dnodeNo, p.inodeNo⟩

/-- The table key of a directory: its two numbers, eight bytes each. -/
def DirId.key (id : DirId) : Slice := encodeFixed64 id.dno ++ encodeFixed64 id.ino

theorem DirId.key_injective : Function.Injective DirId.key := by
  rintro ⟨d, i⟩ ⟨d', i'⟩ h
  obtain ⟨hd, hi⟩ := List.append_inj h (by simp)
  obtain rfl := encodeFixed64_injective hd
  obtain rfl := encodeFixed64_injective hi
  rfl

/-! ## File modes

The bits of a mode, with the values they have in `stat.h`, and the checks that read them. Client
and server check permissions with the same functions. -/

/-- `S_IFMT`. -/
def sIfmt : UInt32 := 0o170000
/-- `S_IFREG`. -/
def sIfreg : UInt32 := 0o100000
/-- `S_IFDIR`. -/
def sIfdir : UInt32 := 0o040000
/-- `ACCESSPERMS`. -/
def accessPerms : UInt32 := 0o777
/-- `S_IWUSR`. -/
def sIwusr : UInt32 := 0o200
/-- `S_IWGRP`. -/
def sIwgrp : UInt32 := 0o020
/-- `S_IWOTH`. -/
def sIwoth : UInt32 := 0o002
/-- `S_IXUSR`. -/
def sIxusr : UInt32 := 0o100
/-- `S_IXGRP`. -/
def sIxgrp : UInt32 := 0o010
/-- `S_IXOTH`. -/
def sIxoth : UInt32 := 0o001

/-- `S_ISDIR`. -/
def isDir (mode : UInt32) : Bool := mode &&& sIfmt = sIfdir

/-- The owner, group and other bits of a lease against a user: what
`IsDirWriteOk` and `IsLookupOk` share, at the server and at the client. -/
def isModeOk (skipPermChecks : Bool) (usr grp oth : UInt32) (parent : LookupStat) (who : User) :
    Bool :=
  let mode := parent.dirMode
  if skipPermChecks then true
  else if who.uid = 0 then true
  else if who.uid = parent.userId ∧ mode &&& usr = usr then true
  else if who.gid = parent.groupId ∧ mode &&& grp = grp then true
  else mode &&& oth = oth

/-- `IsDirWriteOk`: the user has the "w" permission beneath the directory. -/
def isDirWriteOk (skipPermChecks : Bool) : LookupStat → User → Bool :=
  isModeOk skipPermChecks sIwusr sIwgrp sIwoth

/-- `IsLookupOk`: the user has the "x" permission beneath the directory. -/
def isLookupOk (skipPermChecks : Bool) : LookupStat → User → Bool :=
  isModeOk skipPermChecks sIxusr sIxgrp sIxoth

end DeltaFs
