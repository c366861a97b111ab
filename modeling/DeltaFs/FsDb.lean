import DeltaFs.Types
import Mathlib.Logic.Function.Basic

/-!
# The metadata databases

`fsdbbase.cc`, `fstypes.cc`, `fsdb0.h`, `fsdb.cc`, `fsro.cc`: a directory entry
is one record of a key-value store. Its key is the parent's two numbers in big
endian, the inode number shifted to make room for a type byte, followed by the
name; its value is the encoded `Stat`. A server reads from its writable db and
then from a chain of read-only ones, and takes the first answer that is not
`NotFound`.

A key holds 56 bits of the parent's inode number: `entryKey` is injective on
the directories whose number fits.

The reads of a server are in terms of `view`, the map that a chain of dbs shows: the record
of the first db that has one. `dbGet_result` says what `DbGet` returns in these terms, and
nothing after this module looks into a db.
-/

namespace DeltaFs

/-! ## Keys

A key is the prefix of the directory, which has 16 bytes, and the name. In the prefix the inode
number shares a word with the type of the key, which takes its top byte; this is where numbers
from `2 ^ 56` on are cut off. For directories that fit, the key determines the directory and the
name. -/

/-- `htobe64`, in memory. -/
def encodeBig64 (v : UInt64) : Slice := (encodeFixed64 v).reverse

/-- `be64toh`, from memory. -/
def decodeBig64 (b : Slice) : UInt64 := decodeFixed64 b.reverse

@[simp] theorem length_encodeBig64 (v : UInt64) : (encodeBig64 v).length = 8 := by
  simp [encodeBig64]

@[simp] theorem decodeBig64_encodeBig64 (v : UInt64) : decodeBig64 (encodeBig64 v) = v := by
  simp [decodeBig64, encodeBig64]

/-- `kDirEntType`. -/
def kDirEntType : UInt64 := 1

/-- `PackPrefix`. -/
def packPrefix (dno ino t : UInt64) : Slice :=
  encodeBig64 dno ++ encodeBig64 ((ino <<< 8) ||| (t &&& 0xff))

@[simp] theorem length_packPrefix (dno ino t : UInt64) : (packPrefix dno ino t).length = 16 := by
  simp [packPrefix]

/-- The `Key` of an entry: the prefix of its directory, and its name. -/
def entryKey (id : DirId) (name : Slice) : Slice := packPrefix id.dno id.ino kDirEntType ++ name

/-- `Key::dnode`. -/
def keyDnode (rep : Slice) : UInt64 := decodeBig64 (rep.take 8)

/-- `Key::inode`. -/
def keyInode (rep : Slice) : UInt64 := decodeBig64 ((rep.drop 8).take 8) >>> 8

/-- Directories whose inode number fits a key. -/
def DirId.Fits (id : DirId) : Prop := id.ino.toNat < 2 ^ 56

instance (id : DirId) : Decidable id.Fits := Nat.decLt _ _

theorem keyDnode_packPrefix (dno ino t : UInt64) (p : Slice) :
    keyDnode (packPrefix dno ino t ++ p) = dno := by
  rw [keyDnode, packPrefix, List.append_assoc, List.take_left' (length_encodeBig64 dno),
    decodeBig64_encodeBig64]

/-- The type byte of a prefix is shifted out again. -/
theorem shiftLeft_or_shiftRight {ino : UInt64} (h : ino.toNat < 2 ^ 56) (t : UInt64) :
    ((ino <<< 8) ||| (t &&& 0xff)) >>> 8 = ino := by
  have hlow : t.toNat &&& 255 < 2 ^ 8 := Nat.and_lt_two_pow _ (by decide)
  have hino : 2 ^ 8 * ino.toNat < 2 ^ 64 := by omega
  apply UInt64.toNat_inj.mp
  rw [UInt64.toNat_shiftRight, UInt64.toNat_or, UInt64.toNat_shiftLeft, UInt64.toNat_and,
    show (8 : UInt64).toNat % 64 = 8 from rfl, show (0xff : UInt64).toNat = 255 from rfl,
    Nat.shiftLeft_eq, Nat.mul_comm, Nat.mod_eq_of_lt hino, Nat.shiftRight_eq_div_pow,
    ← Nat.two_pow_add_eq_or_of_lt hlow]
  omega

theorem keyInode_packPrefix {ino : UInt64} (h : ino.toNat < 2 ^ 56) (dno t : UInt64) (p : Slice) :
    keyInode (packPrefix dno ino t ++ p) = ino := by
  rw [keyInode, packPrefix, List.append_assoc, List.drop_left' (length_encodeBig64 dno),
    List.take_left' (length_encodeBig64 _), decodeBig64_encodeBig64, shiftLeft_or_shiftRight h]

/-- **Keys separate entries**, of directories whose number fits. The key has 16 bytes for
the directory, always, so the rest of it is the name, whatever bytes that has. -/
theorem entryKey_inj {id id' : DirId} {name name' : Slice} (h : id.Fits) (h' : id'.Fits)
    (heq : entryKey id name = entryKey id' name') : id = id' ∧ name = name' := by
  obtain ⟨-, hname⟩ := List.append_inj heq (by simp)
  have hdno := congrArg keyDnode heq
  have hino := congrArg keyInode heq
  rw [entryKey, entryKey, keyDnode_packPrefix, keyDnode_packPrefix] at hdno
  rw [entryKey, entryKey, keyInode_packPrefix h, keyInode_packPrefix h'] at hino
  cases id
  cases id'
  cases hdno
  cases hino
  exact ⟨rfl, hname⟩

/-! ## Records

A stat is nine varints. Reading stops at the first that does not parse, and the fields before it
have been set by then: the source decodes them in groups, and what each group leaves in the
caller's stat is part of the model, since callers read it. -/

/-- `Stat::EncodeTo`. -/
def Stat.encodeTo (stat : Stat) : Slice :=
  encodeVarint64 stat.dnodeNo ++ encodeVarint64 stat.inodeNo ++ encodeVarint64 stat.fileSize ++
    encodeVarint32 stat.fileMode ++ encodeVarint32 stat.zerothServer ++
    encodeVarint32 stat.userId ++ encodeVarint32 stat.groupId ++
    encodeVarint64 stat.modifyTime ++ encodeVarint64 stat.changeTime

/-- `Stat::DecodeFrom`: the record and the rest of the input. -/
def Stat.decodeFrom (input : Slice) : Option (Stat × Slice) := do
  let (dno, input) ← getVarint64 input
  let (ino, input) ← getVarint64 input
  let (size, input) ← getVarint64 input
  let (mode, input) ← getVarint32 input
  let (zserver, input) ← getVarint32 input
  let (uid, input) ← getVarint32 input
  let (gid, input) ← getVarint32 input
  let (mtime, input) ← getVarint64 input
  let (ctime, input) ← getVarint64 input
  some (⟨dno, ino, size, mode, zserver, uid, gid, mtime, ctime⟩, input)

/-- The fields `Stat::DecodeFrom` sets together, after the first one: the inode
number, the size and the mode. -/
def Stat.decodeInode (input : Slice) : Option ((UInt64 × UInt64 × UInt32) × Slice) := do
  let (ino, input) ← getVarint64 input
  let (size, input) ← getVarint64 input
  let (mode, input) ← getVarint32 input
  some ((ino, size, mode), input)

/-- What `Stat::DecodeFrom` leaves in a stat when it fails: the groups of fields
it has come to are set, and the others are not. -/
def Stat.decodePart (stat : Stat) (input : Slice) : Stat :=
  match getVarint64 input with
  | none => stat
  | some (dno, input) =>
    match decodeInode input with
    | none => { stat with dnodeNo := dno }
    | some ((ino, size, mode), input) =>
      match getVarint32 input with
      | none => { stat with dnodeNo := dno, inodeNo := ino, fileSize := size, fileMode := mode }
      | some (zserver, _) =>
        { stat with
          dnodeNo := dno
          inodeNo := ino
          fileSize := size
          fileMode := mode
          zerothServer := zserver }

/-- **Reading back a record.** What follows the record is left over. The fields are
varints, one after the other, and each is read back as it was written, up to the end of
its last byte. -/
theorem Stat.decodeFrom_encodeTo (stat : Stat) (p : Slice) :
    Stat.decodeFrom (stat.encodeTo ++ p) = some (stat, p) := by
  simp only [Stat.decodeFrom, Stat.encodeTo, List.append_assoc, getVarint64_encodeVarint64,
    getVarint32_encodeVarint32, Option.bind_eq_bind, Option.bind_some]

/-! ## One db

A store is a map from keys to values, and each call may fail instead, with the outcome given
from outside. A failed `Put` leaves the store as it is. -/

/-- The contents of a key-value store. -/
abbrev Db : Type := Slice → Option Slice

/-- `FilesystemDb::Get` and `FilesystemReadonlyDb::Get`: the store fails with a
message, or answers. `stat` is what the output parameter holds. -/
def Db.get (db : Db) (id : DirId) (name : Slice) (fault : Option Slice) (stat : Stat) :
    Status × Stat :=
  match fault with
  | some msg => (.err .ioError msg, stat)
  | none =>
    match db (entryKey id name) with
    | none => (.err .notFound [], stat)
    | some value =>
      match Stat.decodeFrom value with
      | none => (.err .corruption [], stat.decodePart value)
      | some (stat, _) => (.ok, stat)

/-- `FilesystemDb::Put`: the store fails with a message, or holds the record. -/
def Db.put (db : Db) (id : DirId) (name : Slice) (stat : Stat) (fault : Option Slice) :
    Status × Db :=
  match fault with
  | some msg => (.err .ioError msg, db)
  | none => (.ok, Function.update db (entryKey id name) (some stat.encodeTo))

/-- `FilesystemDb::Delete`: the store fails with a message, or holds no record
for the entry any more. -/
def Db.delete (db : Db) (id : DirId) (name : Slice) (fault : Option Slice) : Status × Db :=
  match fault with
  | some msg => (.err .ioError msg, db)
  | none => (.ok, Function.update db (entryKey id name) none)

/-! ## The chain

Reads go through the writable db and the read-only ones, in order. `firstMatch` is what they
find, and `view` the same as a stat. The lemmas are stated for any way the reads may fail, so
they serve in runs with faults and without. -/

/-- The loop of `DbGet`: ask one db after the other while the answer is
`NotFound`. The reads of the `i`th db fail as `faults i` says. -/
def getFirst (id : DirId) (name : Slice) (faults : Nat → Option Slice) :
    Nat → List Db → Status × Stat → Status × Stat
  | _, [], r => r
  | i, db :: dbs, (_, stat) =>
    let r := db.get id name (faults i) stat
    if r.1.isNotFound then getFirst id name faults (i + 1) dbs r else r

/-- `Filesystem::DbGet`, on the writable db, if there is one, and the read-only
dbs. -/
def dbGet (dbs : List Db) (id : DirId) (name : Slice) (faults : Nat → Option Slice) (stat : Stat) :
    Status × Stat :=
  getFirst id name faults 0 dbs (.ok, stat)

/-- The record the chain holds under a key: that of the first db with one. -/
def firstMatch (dbs : List Db) (key : Slice) : Option Slice := dbs.findSome? fun db => db key

/-- The entry the chain holds: its record, decoded. -/
def view (dbs : List Db) (id : DirId) (name : Slice) : Option Stat :=
  (firstMatch dbs (entryKey id name)).bind fun value => (Stat.decodeFrom value).map Prod.fst

@[simp] theorem firstMatch_cons (db : Db) (dbs : List Db) (key : Slice) :
    firstMatch (db :: dbs) key = (db key).or (firstMatch dbs key) := by
  rcases h : db key with _ | v
  · simp [firstMatch, h]
  · simp [firstMatch, h]

/-- The first db decides when it has a record. -/
theorem firstMatch_of_head {db : Db} {dbs : List Db} {key value : Slice}
    (h : firstMatch [db] key = some value) : firstMatch (db :: dbs) key = some value := by
  have hdb : db key = some value := by simpa [firstMatch] using h
  rw [firstMatch_cons, hdb, Option.some_or]

/-- How a read of the chain ends, the reads of the `k`th db failing as `faults k` says. -/
inductive GetResult (dbs : List Db) (id : DirId) (name : Slice) (faults : Nat → Option Slice) :
    Status × Stat → Prop where
  /-- the first record, decoded -/
  | found {stat : Stat} : view dbs id name = some stat → GetResult dbs id name faults (.ok, stat)
  /-- no db has a record -/
  | notFound {stat : Stat} : firstMatch dbs (entryKey id name) = none →
      GetResult dbs id name faults (.err .notFound [], stat)
  /-- the first record cannot be decoded -/
  | corruption {value : Slice} {stat : Stat} : firstMatch dbs (entryKey id name) = some value →
      Stat.decodeFrom value = none → GetResult dbs id name faults (.err .corruption [], stat)
  /-- a db failed -/
  | ioError {k : Nat} {msg : Slice} {stat : Stat} : k < dbs.length → faults k = some msg →
      GetResult dbs id name faults (.err .ioError msg, stat)

/-- A read of one db. -/
theorem Db.get_result (db : Db) (id : DirId) (name : Slice) (fault : Option Slice) (stat : Stat) :
    GetResult [db] id name (fun _ => fault) (db.get id name fault stat) := by
  have hfirst : firstMatch [db] (entryKey id name) = db (entryKey id name) := by
    rw [firstMatch_cons]
    exact Option.or_none
  rcases fault with _ | msg
  swap
  · exact .ioError (k := 0) Nat.one_pos rfl
  simp only [Db.get]
  split
  · rename_i hdb
    exact .notFound (hfirst.trans hdb)
  rename_i value hdb
  split
  · rename_i hdec
    exact .corruption (hfirst.trans hdb) hdec
  · rename_i stat' p hdec
    refine .found ?_
    rw [view, hfirst, hdb, Option.bind_some, hdec, Option.map_some]

/-- The loop, entered on the rest of the chain. -/
theorem getFirst_result (id : DirId) (name : Slice) (faults : Nat → Option Slice) (dbs : List Db) :
    ∀ (i : Nat) (r : Status × Stat), (dbs = [] → r.1 = .err .notFound []) →
      GetResult dbs id name (fun k => faults (i + k)) (getFirst id name faults i dbs r) := by
  induction dbs with
  | nil =>
    intro i r hr
    obtain ⟨s, stat⟩ := r
    obtain rfl : s = .err .notFound [] := hr rfl
    exact .notFound rfl
  | cons db dbs ih =>
    rintro i ⟨s, stat⟩ -
    have hone := db.get_result id name (faults i) stat
    rw [getFirst]
    generalize db.get id name (faults i) stat = r at hone
    cases hone with
    | found h =>
      obtain ⟨value, hvalue, hdec⟩ := Option.bind_eq_some_iff.mp h
      refine .found ?_
      rw [view, firstMatch_of_head hvalue, Option.bind_some, hdec]
    | notFound h =>
      -- this db has no record: the rest of the chain decides
      have hfirst : firstMatch (db :: dbs) (entryKey id name) =
          firstMatch dbs (entryKey id name) := by
        have hdb : db (entryKey id name) = none := by simpa [firstMatch] using h
        rw [firstMatch_cons, hdb, Option.none_or]
      have hview : view (db :: dbs) id name = view dbs id name := by
        rw [view, view, hfirst]
      rename_i stat'
      have hrest := ih (i + 1) (.err .notFound [], stat') fun _ => rfl
      simp only [Status.isNotFound, if_true]
      generalize getFirst id name faults (i + 1) dbs (.err .notFound [], stat') = r at hrest
      cases hrest with
      | found h => exact .found (hview.trans h)
      | notFound h => exact .notFound (hfirst.trans h)
      | corruption h hdec => exact .corruption (hfirst.trans h) hdec
      | @ioError k msg stat' hk hmsg =>
        have hnext : faults (i + (k + 1)) = some msg := by
          rw [← hmsg, Nat.add_comm k 1, Nat.add_assoc]
        exact .ioError (k := k + 1) (Nat.succ_lt_succ hk) hnext
    | corruption h hdec => exact .corruption (firstMatch_of_head h) hdec
    | ioError hk hmsg => exact .ioError (k := 0) (Nat.succ_pos _) hmsg

/-- **`DbGet` is a first-match read**, when some db is attached. Everything the server
model needs of the dbs is in the three cases: found, not found anywhere, or an error on
the way. -/
theorem dbGet_result {dbs : List Db} (h : dbs ≠ []) (id : DirId) (name : Slice)
    (faults : Nat → Option Slice) (stat : Stat) :
    GetResult dbs id name faults (dbGet dbs id name faults stat) := by
  have hr := getFirst_result id name faults dbs 0 (.ok, stat) fun hnil => absurd hnil h
  rw [dbGet]
  simpa only [Nat.zero_add] using hr

/-- After a successful put the chain holds the record, and every other record
as before. -/
theorem firstMatch_put (db : Db) (dbs : List Db) (key key' value : Slice) :
    firstMatch (Function.update db key (some value) :: dbs) key' =
      if key' = key then some value else firstMatch (db :: dbs) key' := by
  rw [firstMatch_cons, firstMatch_cons]
  split
  · rename_i h
    rw [h, Function.update_self, Option.some_or]
  · rename_i h
    rw [Function.update_of_ne h]

/-- The entries after a successful put. -/
theorem view_put (db : Db) (dbs : List Db) (id id' : DirId) (name name' : Slice) (stat : Stat) :
    view (Function.update db (entryKey id name) (some stat.encodeTo) :: dbs) id' name' =
      if entryKey id' name' = entryKey id name then some stat else view (db :: dbs) id' name' := by
  have hdec := stat.decodeFrom_encodeTo []
  rw [List.append_nil] at hdec
  rw [view, firstMatch_put]
  split
  · rw [Option.bind_some, hdec, Option.map_some]
  · rfl

end DeltaFs
