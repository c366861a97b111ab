import DeltaFs.Types
import Mathlib.Data.Nat.Bitwise

/-!
# The directory index

`gigaplus.cc`: a directory is split into partitions, numbered so that clearing
the highest bit of a partition's index gives its parent. A bitmap holds the
partitions there are and a radix the number of bits of their indices; a name's
hash picks a partition at that radix, and if it does not exist the nearest
ancestor that does. A server is chosen from the partition and the directory's
zeroth server.

All components build the index of a directory the same way: from `PickupServer`
of its id and a number of servers, all of whose partitions are set.
-/

namespace DeltaFs

/-- The two hash functions of `xxhash`. -/
structure XXHash where
  /-- data and seed -/
  xxhash32 : Slice → UInt32 → UInt32
  /-- data and seed -/
  xxhash64 : Slice → UInt64 → UInt64

/-! ## Partition indices

The number of a partition is read from its lowest bit up. Its highest bit says when it was made:
the parent is the same number without that bit. The hash of a name gives as many bits as the
index has at present, so that a name moves only when the partition it is in is split. -/

/-- `ToLog2`, for a positive value. -/
def toLog2 (value : Nat) : Nat := Nat.log2 value

/-- `ToRadix`: the number of bits necessary to hold an index. -/
def toRadix (index : Nat) : Nat := if index = 0 then 0 else 1 + toLog2 index

/-- `ToParentIndex`. -/
def toParentIndex (index : Nat) : Nat := if index = 0 then 0 else index - 1 <<< toLog2 index

theorem lt_two_pow_toRadix (index : Nat) : index < 2 ^ toRadix index := by
  rw [toRadix]
  split
  · rename_i h
    rw [h]
    exact Nat.two_pow_pos 0
  · rw [Nat.add_comm]
    exact Nat.lt_log2_self

theorem toRadix_le {index r : Nat} (h : index < 2 ^ r) : toRadix index ≤ r := by
  rw [toRadix]
  split
  · exact Nat.zero_le r
  · rename_i hne
    rw [Nat.add_comm]
    exact (Nat.log2_lt hne).mpr h

theorem toRadix_mono {i j : Nat} (h : i ≤ j) : toRadix i ≤ toRadix j :=
  toRadix_le (lt_of_le_of_lt h (lt_two_pow_toRadix j))

/-- `Reverse`: the bits of a byte in reverse order. -/
def reverse (byte : UInt8) : UInt8 :=
  ((((byte.toUInt64 * 0x80200802) &&& 0x0884422110) * 0x0101010101) >>> 32).toUInt8

/-- `GIGAHash`: eight bytes. -/
def gigaHash (xx : XXHash) (b : Slice) : Slice :=
  encodeFixed64 (xx.xxhash64 b 0 - 17241709254077376921)

/-- `ComputeIndexFromHash`: the first `n` bits of the hash, `n ≤ 16`. -/
def computeIndexFromHash (hash : Slice) (n : Nat) : Nat :=
  let nbytes := n / 8
  let result := ((List.range nbytes).map fun idx =>
    (reverse (hash.getD idx 0)).toNat <<< (idx * 8)).sum
  let nbits := n % 8
  if nbits > 0 then
    result + ((reverse (hash.getD nbytes 0)).toNat &&& (1 <<< nbits - 1)) <<< (nbytes * 8)
  else result

/-! ## The in-memory representation

`Rep` is the radix, the zeroth server and the bitmap, with the capacity in bytes that the bitmap
has room for. Growing changes the capacity only, so the lemmas about bits and radix see through
it. The functions here are those without assertions, which agree with those that have them where
none fails. -/

/-- `DirIndex::Rep`. The bitmap is the number whose bits it holds. -/
structure Rep where
  zerothServer : UInt16
  radix : Nat
  bitmap : Nat
  /-- bytes allocated for the bitmap -/
  bitmapCapacity : Nat
  deriving DecidableEq

namespace Rep

/-- `bitmap_size()`, in bytes. -/
def bitmapSize (d : Rep) : Nat := (1 <<< d.radix + 7) / 8

/-- `bit()`. -/
def bit (d : Rep) (index : Nat) : Bool :=
  if index < d.bitmapSize * 8 then d.bitmap.testBit index else false

/-- `ScaleUp`. -/
def scaleUp (d : Rep) (factor : Nat) : Rep :=
  if factor > 1 then { d with bitmapCapacity := d.bitmapCapacity * factor } else d

/-- The loop of `ScaleToSize`: the factor, a power of two, that lifts the
capacity to at least `capacity`. -/
def scaleFactor (capacity : Nat) : Nat → Nat → Nat → Nat
  | 0, _, factor => factor
  | fuel + 1, current, factor =>
    if current < capacity then scaleFactor capacity fuel (current <<< 1) (factor <<< 1) else factor

/-- `ScaleToSize`, `Reserve`. A positive capacity doubles past `capacity` in
fewer than `capacity` rounds. -/
def scaleToSize (d : Rep) (capacity : Nat) : Rep :=
  d.scaleUp (scaleFactor capacity capacity d.bitmapCapacity 1)

/-- `TurnOnBit`. -/
def turnOnBit (d : Rep) (index : Nat) : Rep :=
  let d := if index ≥ d.bitmapCapacity * 8 then d.scaleUp 2 else d
  let r := toRadix index
  let d := if d.radix < r then { d with radix := r } else d
  { d with bitmap := d.bitmap ||| 1 <<< index }

/-- The state before the constructor turns on bit 0: sixteen bytes of zeros. -/
def zeroed (zserver : UInt16) : Rep where
  zerothServer := zserver
  radix := 0
  bitmap := 0
  bitmapCapacity := (1 <<< 7) / 8

/-- The constructor. -/
def new (zserver : UInt16) : Rep := (zeroed zserver).turnOnBit 0

/-- The loop of `SetAll`, up to index `n`. -/
def turnOnBits (d : Rep) (n : Nat) : Rep := (List.range n).foldl turnOnBit d

@[simp] theorem scaleUp_zerothServer (d : Rep) (f : Nat) :
    (d.scaleUp f).zerothServer = d.zerothServer := by
  rw [scaleUp]
  split <;> rfl

@[simp] theorem scaleUp_radix (d : Rep) (f : Nat) : (d.scaleUp f).radix = d.radix := by
  rw [scaleUp]
  split <;> rfl

@[simp] theorem scaleUp_bitmap (d : Rep) (f : Nat) : (d.scaleUp f).bitmap = d.bitmap := by
  rw [scaleUp]
  split <;> rfl

@[simp] theorem scaleToSize_radix (d : Rep) (c : Nat) : (d.scaleToSize c).radix = d.radix :=
  scaleUp_radix ..

@[simp] theorem scaleToSize_bitmap (d : Rep) (c : Nat) : (d.scaleToSize c).bitmap = d.bitmap :=
  scaleUp_bitmap ..

@[simp] theorem turnOnBit_zerothServer (d : Rep) (i : Nat) :
    (d.turnOnBit i).zerothServer = d.zerothServer := by
  simp only [turnOnBit]
  split <;> split <;> simp

theorem turnOnBit_radix (d : Rep) (i : Nat) : (d.turnOnBit i).radix = max d.radix (toRadix i) := by
  simp only [turnOnBit]
  split <;> split <;> simp_all <;> omega

@[simp] theorem turnOnBit_bitmap (d : Rep) (i : Nat) :
    (d.turnOnBit i).bitmap = d.bitmap ||| 1 <<< i := by
  simp only [turnOnBit]
  split <;> split <;> simp

/-- Turning on a bit adds exactly that bit. -/
theorem testBit_turnOnBit (d : Rep) (i j : Nat) :
    (d.turnOnBit i).bitmap.testBit j = true ↔ j = i ∨ d.bitmap.testBit j = true := by
  rw [turnOnBit_bitmap, Nat.testBit_or, Nat.shiftLeft_eq, Nat.one_mul, Nat.testBit_two_pow,
    Bool.or_eq_true, decide_eq_true_eq]
  exact or_comm.trans (or_congr eq_comm Iff.rfl)

/-- An index below `2 ^ radix` lies inside the bitmap. -/
theorem lt_bitmapSize {d : Rep} {i : Nat} (h : i < 2 ^ d.radix) : i < d.bitmapSize * 8 := by
  rw [bitmapSize, Nat.shiftLeft_eq, Nat.one_mul]
  omega

theorem bit_zero (d : Rep) : d.bit 0 = d.bitmap.testBit 0 :=
  if_pos (lt_bitmapSize (Nat.two_pow_pos d.radix))

theorem turnOnBits_succ (d : Rep) (n : Nat) :
    d.turnOnBits (n + 1) = (d.turnOnBits n).turnOnBit n := by
  rw [turnOnBits, List.range_succ, List.foldl_append]
  rfl

/-- The loop turns on the bits below its bound, and no other. -/
theorem testBit_turnOnBits (d : Rep) (n j : Nat) :
    (d.turnOnBits n).bitmap.testBit j = true ↔ j < n ∨ d.bitmap.testBit j = true := by
  induction n with
  | zero =>
    have hstart : d.turnOnBits 0 = d := rfl
    simp [hstart]
  | succ n ih =>
    rw [turnOnBits_succ, testBit_turnOnBit, ih, ← or_assoc]
    exact or_congr (by omega) Iff.rfl

theorem testBit_new (zserver : UInt16) (j : Nat) :
    (new zserver).bitmap.testBit j = true ↔ j = 0 := by
  rw [new, testBit_turnOnBit]
  simp [zeroed]

end Rep

/-! ## The index of a directory

What is built when a directory is first used: an index of which all partitions are turned on.
Then a server is selected from a name in three steps, the hash, the partition and the server of
the partition, which is the zeroth server plus the index, modulo the number of servers. -/

/-- `DirIndex`, with its options. The zeroth partition always exists. -/
structure DirIndex where
  /-- `num_servers` -/
  numServers : Nat
  /-- `num_virtual_servers` -/
  numVirtualServers : Nat
  rep : Rep
  zeroth : rep.bit 0 = true
  deriving DecidableEq

namespace DirIndex

/-- The constructor; `zserver` is cut to 16 bits. -/
def new (zserver : Int32) (numVirtualServers numServers : Nat) : DirIndex where
  numServers := numServers
  numVirtualServers := numVirtualServers
  rep := Rep.new zserver.toUInt32.toUInt16
  zeroth := by
    rw [Rep.bit_zero]
    exact (Rep.testBit_new _ 0).mpr rfl

/-- `SetAll`: every partition exists. -/
def setAll (d : DirIndex) : DirIndex where
  numServers := d.numServers
  numVirtualServers := d.numVirtualServers
  rep := (d.rep.scaleToSize d.numVirtualServers).turnOnBits d.numVirtualServers
  zeroth := by
    have hz := d.zeroth
    rw [Rep.bit_zero] at hz ⊢
    rw [Rep.testBit_turnOnBits, Rep.scaleToSize_bitmap]
    exact .inr hz

/-- The loop of `HashToIndex`: climb to the nearest partition that exists. The
fuel is the index: parents decrease, and the loop always ends at index 0. -/
def climb (d : DirIndex) : Nat → Nat → Nat
  | 0, i => i
  | fuel + 1, i => if d.rep.bit i then i else climb d fuel (toParentIndex i)

/-- `HashToIndex`. -/
def hashToIndex (d : DirIndex) (hash : Slice) : Nat :=
  let i := computeIndexFromHash hash d.rep.radix
  d.climb i i

/-- `GetIndex`. -/
def getIndex (d : DirIndex) (xx : XXHash) (name : Slice) : Nat := d.hashToIndex (gigaHash xx name)

/-- `MapIndexToServer`. -/
def mapIndexToServer (index : Nat) (zerothServer : UInt16) (numServers : Nat) : Nat :=
  (index + zerothServer.toNat) % numServers

/-- `GetServerForIndex`. -/
def getServerForIndex (d : DirIndex) (index : Nat) : Nat :=
  mapIndexToServer index d.rep.zerothServer d.numServers

/-- `SelectServer`. -/
def selectServer (d : DirIndex) (xx : XXHash) (name : Slice) : Nat :=
  d.getServerForIndex (d.getIndex xx name)

/-- `RandomServer`. -/
def randomServer (xx : XXHash) (dir : Slice) (seed : Int32) : Int32 :=
  (xx.xxhash32 dir seed.toUInt32).toInt32

/-- **The server of a name is one of the servers.** -/
theorem selectServer_lt (d : DirIndex) (xx : XXHash) (name : Slice) (hn : 0 < d.numServers) :
    d.selectServer xx name < d.numServers := Nat.mod_lt _ hn

end DirIndex

/-- `Filesystem::PickupServer`: the zeroth server of a directory. -/
def pickupServer (xx : XXHash) (id : DirId) : UInt32 :=
  (DirIndex.randomServer xx id.key 0).toUInt32

/-- The index a server, a client and the compactor build of a directory. -/
def fetchIndex (xx : XXHash) (id : DirId) (vsrvs nsrvs : Nat) : DirIndex :=
  (DirIndex.new (pickupServer xx id).toInt32 vsrvs nsrvs).setAll

end DeltaFs
