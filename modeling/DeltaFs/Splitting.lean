import DeltaFs.Ancestry
import DeltaFs.Assertions

/-!
# Splitting a directory

`gigaplus.cc`: a partition of a directory is split by setting the bit of its next
child, and the names whose hash ends in the index of the child move there.

The functions are those with assertions, `none` if one fails. `Sound` is what an
index keeps: with a partition its parent, a radix that is that of the highest
partition, and room for the bitmap. A name then belongs to the nearest ancestor of
its hash (`Sound.owner`), and a split is a new member of a set in a tree.
-/

namespace DeltaFs

open Ancestry

namespace Checked

/-! ## Splits

The functions of `gigaplus.cc` that split a partition, with their assertions. The next child of
a partition is the first one that is not there yet; a partition with no child left cannot be
split any more, and `IsSplittable` says so before it is tried. -/

/-- `ToChildIndex`. -/
def toChildIndex (index radix : Nat) : Option Nat :=
  (check (index < kMaxPartitions / 2)).bind fun _ =>
    (check (radix < kMaxRadix)).map fun _ => index + 1 <<< radix

/-- The loop of `IsSplittable`, for `n` virtual servers. The fuel is what `r` lacks
to `kMaxRadix`. -/
def isSplittableFrom (d : Rep) (n index : Nat) : Nat → Nat → Option Bool
  | 0, _ => some false
  | fuel + 1, r => (toChildIndex index r).bind fun i => (bit d i).bind fun b =>
    if b then
      (toRadix i).bind fun r' => (check (r + 1 = r')).bind fun _ =>
        isSplittableFrom d n index fuel (r + 1)
    else some (decide (i < n))

/-- `IsSplittable`. -/
def isSplittable (d : Rep) (n index : Nat) : Option Bool :=
  (bit d index).bind fun b =>
    if b then (toRadix index).bind fun r => isSplittableFrom d n index (kMaxRadix - r) r
    else some false

/-- The loop of `NewIndexForSplitting`: `none` also if it does not end before an
assertion fails. -/
def newIndexFrom (d : Rep) (index : Nat) : Nat → Nat → Nat → Option Nat
  | 0, _, _ => none
  | fuel + 1, i, r => (bit d i).bind fun b =>
    if b then (toChildIndex index r).bind fun i => newIndexFrom d index fuel i (r + 1) else some i

/-- `NewIndexForSplitting`. -/
def newIndexForSplitting (d : Rep) (n index : Nat) : Option Nat :=
  (isSplittable d n index).bind fun ok => (check (ok = true)).bind fun _ =>
    (toRadix index).bind fun r => (newIndexFrom d index (kMaxRadix + 1 - r + 1) index r).bind fun i =>
      (check (i ≠ index ∧ i < n)).map fun _ => i

/-- `Set`. -/
def set (d : Rep) (n index : Nat) : Option Rep :=
  (check (index < n)).bind fun _ => turnOnBit d index

/-- `ToBeMigrated`. -/
def toBeMigrated (index : Nat) (hash : Slice) : Option Bool :=
  (toRadix index).bind fun r => (computeIndexFromHash hash r).map fun i => decide (i = index)

/-! ## Indices as a tree

The numbers of `gigaplus.cc` as those of `Ancestry`: the parent is the index without its highest
bit, and the index of a hash for fewer bits is an ancestor of the one for more. The hash is read
from its first byte on with the bits of each byte reversed, so its first bits are the low ones. -/

section

variable {d d' : Rep} {c i k r n : Nat}

theorem toRadix_eq (i : Nat) : DeltaFs.toRadix i = i.size :=
  Nat.le_antisymm (toRadix_le i.lt_size_self) (Nat.size_le.mpr (lt_two_pow_toRadix i))

theorem toParentIndex_eq (i : Nat) : DeltaFs.toParentIndex i = parent i := by
  rw [DeltaFs.toParentIndex, toLog2]
  split
  · rename_i h
    rw [h]
    rfl
  · rename_i h
    have hsize : i.size = i.log2 + 1 := by
      rw [← toRadix_eq, DeltaFs.toRadix, if_neg h, toLog2, Nat.add_comm]
    have hle : 2 ^ i.log2 ≤ i := Nat.log2_self_le h
    have hlt : i < 2 ^ (i.log2 + 1) := hsize ▸ i.lt_size_self
    rw [Nat.pow_succ] at hlt
    rw [parent, hsize, Nat.add_sub_cancel, Nat.shiftLeft_eq, Nat.one_mul, Nat.mod_eq_sub_mod hle,
      Nat.mod_eq_of_lt (by omega)]

/-- The number whose first bits `ComputeIndexFromHash` takes. -/
def hashBits (hash : Slice) : Nat := DeltaFs.computeIndexFromHash hash kMaxRadix

/-- **The index of a hash for fewer bits** is the first of them. So the partitions a
hash has belonged to are found by cutting bits off, which is what looking for the parent
does. -/
theorem computeIndexFromHash_eq (hash : Slice) (hn : n ≤ 16) :
    DeltaFs.computeIndexFromHash hash n = hashBits hash % 2 ^ n := by
  obtain ⟨a, ha⟩ : ∃ a, a = reverse (hash.getD 0 0) := ⟨_, rfl⟩
  obtain ⟨b, hb⟩ : ∃ b, b = reverse (hash.getD 1 0) := ⟨_, rfl⟩
  have halt := a.toNat_lt
  have hblt := b.toNat_lt
  have hrange : List.range (16 / 8) = [0, 1] := rfl
  have hall : hashBits hash = a.toNat + b.toNat * 2 ^ 8 := by
    simp only [hashBits, kMaxRadix, DeltaFs.computeIndexFromHash, hrange, List.map_cons, List.map_nil,
      List.sum_cons, List.sum_nil, Nat.zero_mul, Nat.add_zero, Nat.one_mul, ← ha, ← hb,
      Nat.shiftLeft_eq, Nat.pow_zero, Nat.mul_one]
    rfl
  rw [hall]
  rcases (by omega : n < 8 ∨ (8 ≤ n ∧ n < 16) ∨ n = 16) with hlt | ⟨hge, hlt⟩ | rfl
  · have hdiv : n / 8 = 0 := Nat.div_eq_of_lt hlt
    obtain ⟨c, hc⟩ : 2 ^ n ∣ b.toNat * 2 ^ 8 :=
      (Nat.pow_dvd_pow 2 hlt.le).trans (Nat.dvd_mul_left ..)
    simp only [DeltaFs.computeIndexFromHash, hdiv, List.range_zero, List.map_nil, List.sum_nil,
      Nat.mod_eq_of_lt hlt, Nat.zero_mul, Nat.zero_add, ← ha, Nat.shiftLeft_eq, Nat.one_mul,
      Nat.and_two_pow_sub_one_eq_mod, Nat.pow_zero, Nat.mul_one]
    rw [hc, Nat.add_mul_mod_self_left]
    split
    · rfl
    · rename_i hpos
      obtain rfl : n = 0 := by omega
      rw [Nat.pow_zero, Nat.mod_one]
  · obtain ⟨s, rfl⟩ := Nat.exists_eq_add_of_le hge
    have hs : s < 8 := by omega
    have hdiv : (8 + s) / 8 = 1 := by omega
    have hmod : (8 + s) % 8 = s := by omega
    have hsum : (a.toNat + b.toNat * 2 ^ 8) % 2 ^ (8 + s) = a.toNat + b.toNat % 2 ^ s * 2 ^ 8 := by
      rw [Nat.pow_add, Nat.mod_mul, Nat.add_mul_mod_self_right, Nat.mod_eq_of_lt halt,
        Nat.add_mul_div_right _ _ (by decide), Nat.div_eq_of_lt halt, Nat.zero_add, Nat.mul_comm]
    rw [hsum]
    simp only [DeltaFs.computeIndexFromHash, hdiv, hmod, List.range_one, List.map_cons, List.map_nil,
      List.sum_cons, List.sum_nil, Nat.zero_mul, Nat.add_zero, Nat.one_mul, ← ha, ← hb,
      Nat.shiftLeft_eq, Nat.and_two_pow_sub_one_eq_mod, Nat.pow_zero, Nat.mul_one]
    split
    · rfl
    · rename_i hpos
      obtain rfl : s = 0 := by omega
      rw [Nat.pow_zero, Nat.mod_one, Nat.zero_mul, Nat.add_zero]
  · have hlt : a.toNat + b.toNat * 2 ^ 8 < 2 ^ 16 := by omega
    rw [Nat.mod_eq_of_lt hlt, ← hall]
    rfl

/-- A hash is migrated to the partitions that are its ancestors. -/
theorem toBeMigrated_eq (hash : Slice) (hi : i < kMaxPartitions) :
    toBeMigrated i hash = some (decide (Ancestor i (hashBits hash))) := by
  have hrad : DeltaFs.toRadix i ≤ kMaxRadix := toRadix_le hi
  have hlt : DeltaFs.computeIndexFromHash hash (DeltaFs.toRadix i) < kMaxPartitions :=
    (computeIndexFromHash_lt hash hrad).trans_le (Nat.pow_le_pow_right (by decide) hrad)
  rw [toBeMigrated, toRadix, check_of hi, Option.map_some, Option.bind_some, computeIndexFromHash,
    check_of hrad, Option.bind_some]
  dsimp only
  rw [check_of hlt, Option.map_some, Option.map_some, computeIndexFromHash_eq hash hrad, toRadix_eq]
  rfl

/-! ## Sound indices

An index is closed under parents, has room for its bits, and its radix is that of its highest
partition. This is all an index of a directory needs to work with, whoever made it and in
whatever order its bits were set. -/

/-- There is a partition `i`. -/
def Has (d : Rep) (i : Nat) : Prop := d.bitmap.testBit i = true

/-- What all indices of a directory have in common. -/
structure Sound (d : Rep) : Prop where
  zero : Has d 0
  closed : Closed (Has d)
  lt : ∀ i, Has d i → i < kMaxPartitions
  size_le : ∀ i, Has d i → i.size ≤ d.radix
  /-- the radix is that of the highest partition -/
  highest : ∃ i, Has d i ∧ i.size = d.radix
  /-- the bytes for the bitmap are doubled until there are enough -/
  capacity : ∃ k ≤ 9, d.bitmapCapacity = 16 * 2 ^ k
  room : d.bitmapSize ≤ d.bitmapCapacity

theorem Sound.radix_le (h : Sound d) : d.radix ≤ kMaxRadix := by
  obtain ⟨i, hi, hsize⟩ := h.highest
  rw [← hsize, ← toRadix_eq]
  exact toRadix_le (h.lt i hi)

theorem Sound.lt_two_pow (h : Sound d) (hi : Has d i) : i < 2 ^ d.radix :=
  i.lt_size_self.trans_le (Nat.pow_le_pow_right (by decide) (h.size_le i hi))

theorem Sound.bit_eq (h : Sound d) (i : Nat) : d.bit i = d.bitmap.testBit i := by
  rw [Rep.bit]
  split
  · rfl
  · rename_i hout
    refine (Bool.eq_false_iff.mpr fun hi => hout ?_).symm
    exact Rep.lt_bitmapSize (h.lt_two_pow hi)

theorem Sound.bit_checked (h : Sound d) (hi : i < kMaxPartitions) :
    bit d i = some (d.bitmap.testBit i) := by
  rw [bit, check_of hi, Option.map_some, h.bit_eq]

/-- The loop of `HashToIndex` ends at the nearest ancestor. -/
theorem climb_owner (h : Sound d) : ∀ {fuel i j : Nat}, i ≤ fuel → climb d fuel i = some j →
    Owner (Has d) i j := by
  intro fuel
  induction fuel with
  | zero =>
    intro i j hi hj
    obtain rfl := Nat.le_zero.mp hi
    cases hj
    exact .self h.zero
  | succ fuel ih =>
    intro i j hi hj
    simp only [climb, bit, toParentIndex, Option.bind_eq_some_iff, Option.map_eq_some_iff] at hj
    obtain ⟨b, ⟨-, -, hb⟩, hj⟩ := hj
    rw [h.bit_eq] at hb
    split at hj
    · rename_i hbit
      cases hj
      exact .self (hb.trans hbit)
    · rename_i hbit
      have hno : ¬Has d i := fun hi => hbit (hb.symm.trans hi)
      simp only [Option.bind_eq_some_iff, Option.map_eq_some_iff] at hj
      obtain ⟨_, ⟨-, -, rfl⟩, hj⟩ := hj
      rw [toParentIndex_eq] at hj
      have hi0 : i ≠ 0 := fun h0 => hno (h0 ▸ h.zero)
      exact .of_parent hno (ih (by have := parent_lt hi0; omega) hj)

/-- No assertion fails in it. -/
theorem climb_isSome (h : Sound d) : ∀ {fuel i : Nat}, i ≤ fuel → i < kMaxPartitions →
    ∃ j, climb d fuel i = some j := by
  intro fuel
  induction fuel with
  | zero =>
    intro i hi _
    exact ⟨i, rfl⟩
  | succ fuel ih =>
    intro i hi hlt
    rw [climb, h.bit_checked hlt, Option.bind_some]
    split
    · exact ⟨i, rfl⟩
    · rename_i hbit
      have hi0 : i ≠ 0 := fun h0 => hbit (h0 ▸ h.zero)
      have hpar := parent_lt hi0
      rw [toParentIndex, check_of hlt, Option.map_some, Option.bind_some, toParentIndex_eq]
      exact ih (by omega) (by omega)

/-- **A name belongs to the nearest ancestor of its hash.** `HashToIndex` starts from the
index at the full radix, which is an ancestor of the hash, and climbs to parents until one
is there. -/
theorem Sound.owner (h : Sound d) {hash : Slice} {j : Nat} (hj : hashToIndex d n hash = some j) :
    Owner (Has d) (hashBits hash) j := by
  simp only [hashToIndex, computeIndexFromHash, Option.bind_eq_some_iff, Option.map_eq_some_iff] at hj
  obtain ⟨-, -, -, -, i, ⟨-, -, -, -, rfl⟩, -, -, hclimb⟩ := hj
  have ho := climb_owner h le_rfl hclimb
  rw [computeIndexFromHash_eq hash h.radix_le] at ho
  exact ho.of_mod h.size_le

/-- With a power of two of partitions no assertion fails. -/
theorem Sound.hashToIndex_isSome (h : Sound d) {m : Nat} (hm : m ≤ 16) (hlt : ∀ i, Has d i → i < 2 ^ m)
    (hash : Slice) : ∃ j, hashToIndex d (2 ^ m) hash = some j := by
  have hrad : d.radix ≤ m := by
    obtain ⟨i, hi, hsize⟩ := h.highest
    rw [← hsize]
    exact Nat.size_le.mpr (hlt i hi)
  have hidx := computeIndexFromHash_lt hash h.radix_le
  have hidx' := hidx.trans_le (Nat.pow_le_pow_right (by decide) hrad)
  have hmax : 2 ^ m ≤ kMaxPartitions := Nat.pow_le_pow_right (by decide) hm
  obtain ⟨j, hj⟩ := climb_isSome h (le_refl (DeltaFs.computeIndexFromHash hash d.radix))
    (hidx'.trans_le hmax)
  refine ⟨j, ?_⟩
  have hzero : d.bitmap.testBit 0 = true := h.zero
  rw [hashToIndex, h.bit_checked (by decide), Option.bind_some, check_of hzero, Option.bind_some,
    computeIndexFromHash, check_of h.radix_le, Option.bind_some]
  dsimp only
  rw [check_of (hidx'.trans_le hmax), Option.map_some, Option.bind_some, check_of hidx',
    Option.bind_some, hj]

/-! ## The highest partition

`HighestBit` scans the bytes from the end. That it agrees with the radix is asserted after every
change of the index, and follows from the invariant. -/

theorem highestByte_spec (hz : byteAt d 0 ≠ 0) : ∀ i, byteAt d (highestByte d i) ≠ 0 ∧
    highestByte d i ≤ i ∧ ∀ j, highestByte d i < j → j ≤ i → byteAt d j = 0 := by
  intro i
  induction i with
  | zero => exact ⟨hz, Nat.le_refl 0, fun j hj hj' => absurd hj' (Nat.not_le_of_lt hj)⟩
  | succ i ih =>
    obtain ⟨hne, hle, habove⟩ := ih
    rw [highestByte]
    split
    · rename_i hzero
      refine ⟨hne, Nat.le_succ_of_le hle, fun j hj hj' => ?_⟩
      rcases Nat.le_succ_iff.mp hj' with hj' | rfl
      · exact habove j hj hj'
      · exact hzero
    · rename_i hzero
      exact ⟨hzero, Nat.le_refl _, fun j hj hj' => absurd hj' (Nat.not_le_of_lt hj)⟩

theorem highestOff_spec (byte : Nat) : ∀ off, (∃ o ≤ off, byte.testBit o = true) →
    byte.testBit (highestOff byte off) = true ∧ highestOff byte off ≤ off ∧
      ∀ o, highestOff byte off < o → o ≤ off → byte.testBit o = false := by
  intro off
  induction off with
  | zero =>
    rintro ⟨o, ho, hbit⟩
    obtain rfl := Nat.le_zero.mp ho
    exact ⟨hbit, Nat.le_refl 0, fun o ho ho' => absurd ho' (Nat.not_le_of_lt ho)⟩
  | succ off ih =>
    rintro ⟨o, ho, hbit⟩
    rw [highestOff]
    split
    · rename_i htop
      exact ⟨htop, Nat.le_refl _, fun o ho ho' => absurd ho' (Nat.not_le_of_lt ho)⟩
    · rename_i htop
      have hle : o ≤ off := by
        rcases Nat.le_succ_iff.mp ho with ho | rfl
        · exact ho
        · exact absurd hbit htop
      obtain ⟨hset, hle', habove⟩ := ih ⟨o, hle, hbit⟩
      refine ⟨hset, Nat.le_succ_of_le hle', fun o ho ho' => ?_⟩
      rcases Nat.le_succ_iff.mp ho' with ho' | rfl
      · exact habove o ho ho'
      · exact Bool.eq_false_iff.mpr htop

/-- **`HighestBit` returns the highest bit**, if the bits are in the bitmap. It looks for
the last byte that is not zero, and in it for the last bit. -/
theorem highestBit_spec (hzero : Has d 0) (hin : ∀ i, Has d i → i < d.bitmapSize * 8)
    (hroom : d.bitmapSize ≤ d.bitmapCapacity) :
    ∃ i, highestBit d = some i ∧ Has d i ∧ ∀ j, Has d j → j ≤ i := by
  have hpos : 0 < d.bitmapSize := by
    have := hin 0 hzero
    omega
  have hbyte : byteAt d 0 ≠ 0 := by
    intro h
    have hbit := testBit_byteAt d 0 0
    rw [h, Nat.zero_testBit, Nat.mul_zero, Nat.zero_add, hzero] at hbit
    cases hbit
  obtain ⟨hne, hle, habove⟩ := highestByte_spec hbyte (d.bitmapSize - 1)
  generalize hb : highestByte d (d.bitmapSize - 1) = b at hne hle habove
  obtain ⟨hset, hoff, hover⟩ := highestOff_spec (byteAt d b) 7 (by
    obtain ⟨o, ho⟩ := Nat.exists_testBit_of_ne_zero hne
    have ho' := ho
    rw [testBit_byteAt, Bool.and_eq_true, decide_eq_true_eq] at ho'
    exact ⟨o, by omega, ho⟩)
  generalize ho : highestOff (byteAt d b) 7 = o at hset hoff hover
  rw [testBit_byteAt, Bool.and_eq_true, decide_eq_true_eq] at hset
  refine ⟨o + b * 8, ?_, ?_, fun j hj => ?_⟩
  · have hbit : bit d 0 = some true := by
      rw [bit, check_of (by decide), Option.map_some, Rep.bit_zero]
      exact congrArg some hzero
    rw [highestBit, check_of (by omega), Option.bind_some, hbit, Option.bind_some, check_of rfl,
      Option.map_some]
    dsimp only
    rw [hb, ho]
  · rw [Nat.add_comm, Nat.mul_comm]
    exact hset.2
  · by_contra hlt
    have hjbit : (byteAt d (j / 8)).testBit (j % 8) = true := by
      rw [testBit_byteAt, Nat.div_add_mod, Bool.and_eq_true, decide_eq_true_eq]
      exact ⟨Nat.mod_lt _ (by decide), hj⟩
    rcases Nat.lt_trichotomy (j / 8) b with hlow | rfl | hhigh
    · omega
    · rw [hover (j % 8) (by omega) (by omega)] at hjbit
      cases hjbit
    · have hjin := hin j hj
      rw [habove (j / 8) hhigh (by omega), Nat.zero_testBit] at hjbit
      cases hjbit

/-- The last assertion of `TurnOnBit` and `Merge`. -/
theorem Sound.checkRadix (h : Sound d) : checkRadix d = some d := by
  obtain ⟨i, hi, hset, htop⟩ := highestBit_spec h.zero
    (fun i hi => Rep.lt_bitmapSize (h.lt_two_pow hi)) h.room
  obtain ⟨j, hj, hsize⟩ := h.highest
  have heq : d.radix = DeltaFs.toRadix i := by
    rw [toRadix_eq, ← hsize]
    exact Nat.le_antisymm (Nat.size_le_size (htop j hj)) (hsize ▸ h.size_le i hset)
  rw [Checked.checkRadix, hi, Option.bind_some, toRadix, check_of (h.lt i hset), Option.map_some,
    Option.bind_some, check_of heq, Option.map_some]

/-! ## The next child

What turning on the bit of the next child does: the capacity may double, the radix grows by one
at most, and the set of partitions grows by one. The child before it is there already, or it is
the first one, so it is never beyond twice the capacity there is. -/

theorem turnOnBit_capacity (d : Rep) (i : Nat) : (d.turnOnBit i).bitmapCapacity =
    if i ≥ d.bitmapCapacity * 8 then d.bitmapCapacity * 2 else d.bitmapCapacity := by
  simp only [Rep.turnOnBit]
  split
  · split
    · rfl
    · rfl
  · split
    · rfl
    · rfl

/-! ### The bit of a child

A child `c` of a partition is at most one bit longer than the radix, so its bit is in the
bitmap or in the part by which `ScaleUp` doubles it. -/

/-- The bitmap has room for twice as many bits as there are, or gets it. -/
theorem Sound.capacity_turnOnBit (h : Sound d) (hsize : c.size = r + 1) (hr : r < 16)
    (hrad : r ≤ d.radix) : c < 2 * d.bitmapCapacity * 8 ∧
      ∃ k ≤ 9, (d.turnOnBit c).bitmapCapacity = 16 * 2 ^ k ∧ c < (d.turnOnBit c).bitmapCapacity * 8 := by
  obtain ⟨k, hk, hcap⟩ := h.capacity
  have hclt : c < 2 ^ (r + 1) := hsize ▸ c.lt_size_self
  have hpow16 : 2 ^ (r + 1) ≤ 2 ^ 16 := Nat.pow_le_pow_right (by decide) hr
  have hradcap : 2 ^ d.radix ≤ 8 * d.bitmapCapacity := by
    have hroom := h.room
    rw [Rep.bitmapSize, Nat.shiftLeft_eq, Nat.one_mul] at hroom
    omega
  have hclt2 : c < 2 * d.bitmapCapacity * 8 := by
    have hle : 2 ^ (r + 1) ≤ 2 ^ (d.radix + 1) := Nat.pow_le_pow_right (by decide) (by omega)
    rw [Nat.pow_succ 2 d.radix] at hle
    omega
  refine ⟨hclt2, ?_⟩
  rw [turnOnBit_capacity]
  split
  · rename_i hge
    have hk8 : k < 9 := by
      have hlt : 128 * 2 ^ k < 128 * 2 ^ 9 := by omega
      exact (Nat.pow_lt_pow_iff_right (by decide : 1 < 2)).mp (Nat.lt_of_mul_lt_mul_left hlt)
    exact ⟨k + 1, hk8, by rw [hcap, Nat.pow_succ, Nat.mul_assoc], by omega⟩
  · exact ⟨k, hk, hcap, by omega⟩

theorem radix_turnOnBit_of_size (d : Rep) (hsize : c.size = r + 1) :
    (d.turnOnBit c).radix = max d.radix (r + 1) := by
  rw [Rep.turnOnBit_radix, toRadix_eq, hsize]

/-- The bits of the new radix are in the bitmap. -/
theorem Sound.room_turnOnBit (h : Sound d) (hsize : c.size = r + 1) (hr : r < 16)
    (hrad : r ≤ d.radix) : (d.turnOnBit c).bitmapSize ≤ (d.turnOnBit c).bitmapCapacity := by
  obtain ⟨-, k, -, hcap, hroom⟩ := h.capacity_turnOnBit hsize hr hrad
  have hbits : 2 ^ (d.turnOnBit c).radix ≤ 8 * (d.turnOnBit c).bitmapCapacity := by
    rw [radix_turnOnBit_of_size d hsize]
    rcases Nat.le_total (r + 1) d.radix with hle | hle
    · -- the radix has not changed
      have hlow : d.bitmapCapacity ≤ (d.turnOnBit c).bitmapCapacity := by
        rw [turnOnBit_capacity]
        split
        · omega
        · exact Nat.le_refl _
      have hradcap := h.room
      rw [Rep.bitmapSize, Nat.shiftLeft_eq, Nat.one_mul] at hradcap
      rw [Nat.max_eq_left hle]
      omega
    · have hpow : 8 * (d.turnOnBit c).bitmapCapacity = 2 ^ (k + 7) := by
        rw [hcap, Nat.pow_add]
        omega
      have hrk : r < k + 7 := by
        have hcge : 2 ^ r ≤ c := Nat.lt_size.mp (by omega)
        have hlt : 2 ^ r < 2 ^ (k + 7) := by omega
        exact (Nat.pow_lt_pow_iff_right (by decide : 1 < 2)).mp hlt
      rw [Nat.max_eq_right hle, hpow]
      exact Nat.pow_le_pow_right (by decide) hrk
  have hsixteen : 16 ≤ (d.turnOnBit c).bitmapCapacity := by
    have := Nat.two_pow_pos k
    omega
  rw [Rep.bitmapSize, Nat.shiftLeft_eq, Nat.one_mul]
  omega

/-- With the bit the index is sound again. -/
theorem Sound.insert (h : Sound d) (hsize : c.size = r + 1) (hr : r < 16) (hrad : r ≤ d.radix)
    (hpar : Has d (parent c)) : Sound (d.turnOnBit c) := by
  obtain ⟨-, k, hk, hcap, -⟩ := h.capacity_turnOnBit hsize hr hrad
  have hradix := radix_turnOnBit_of_size d hsize
  have hhas : ∀ j, Has (d.turnOnBit c) j ↔ j = c ∨ Has d j := fun j => Rep.testBit_turnOnBit d c j
  have hmax : c < kMaxPartitions :=
    c.lt_size_self.trans_le (hsize ▸ Nat.pow_le_pow_right (by decide) hr)
  constructor
  · exact (hhas 0).mpr (.inr h.zero)
  · intro j hj
    exact (hhas _).mpr (h.closed.insert hpar j ((hhas j).mp hj))
  · intro j hj
    rcases (hhas j).mp hj with rfl | hj
    · exact hmax
    · exact h.lt j hj
  · intro j hj
    rw [hradix]
    rcases (hhas j).mp hj with rfl | hj
    · rw [hsize]
      exact Nat.le_max_right ..
    · exact (h.size_le j hj).trans (Nat.le_max_left ..)
  · rw [hradix]
    by_cases hle : r + 1 ≤ d.radix
    · obtain ⟨j, hj, hjsize⟩ := h.highest
      exact ⟨j, (hhas j).mpr (.inr hj), by omega⟩
    · exact ⟨c, (hhas c).mpr (.inl rfl), by omega⟩
  · exact ⟨k, hk, hcap⟩
  · exact h.room_turnOnBit hsize hr hrad

/-- The first part of `TurnOnBit` fails no assertion, and what is left to do after it makes
the index that has the bit. -/
theorem Sound.makeRoom (h : Sound d) (hsize : c.size = r + 1) (hr : r < 16) (hrad : r ≤ d.radix) :
    ∃ d₁, Checked.makeRoom d c = some d₁ ∧ d₁.radix = d.radix ∧
      d₁.bitmapCapacity = (d.turnOnBit c).bitmapCapacity ∧
      setBit (if d₁.radix < DeltaFs.toRadix c then { d₁ with radix := DeltaFs.toRadix c } else d₁) c =
        d.turnOnBit c := by
  obtain ⟨hlt, k, hk, hcap, -⟩ := h.capacity_turnOnBit hsize hr hrad
  by_cases hge : c ≥ d.bitmapCapacity * 8
  · refine ⟨d.scaleUp 2, ?_, rfl, ?_, ?_⟩
    · have hfits : (d.scaleUp 2).bitmapCapacity ≤ kMaxPartitions / 8 := by
        have heq : (d.scaleUp 2).bitmapCapacity = d.bitmapCapacity * 2 := rfl
        rw [turnOnBit_capacity, if_pos hge] at hcap
        have hle : 16 * 2 ^ k ≤ 16 * 2 ^ 9 :=
          Nat.mul_le_mul_left 16 (Nat.pow_le_pow_right (by decide) hk)
        have hval : kMaxPartitions / 8 = 16 * 2 ^ 9 := by decide
        omega
      rw [Checked.makeRoom, if_pos hge, check_of hlt, Option.bind_some, scaleUp, if_pos (by decide),
        reset, check_of hfits, Option.map_some]
    · rw [turnOnBit_capacity, if_pos hge]
      rfl
    · simp only [setBit, Rep.turnOnBit, if_pos hge]
  · refine ⟨d, by rw [Checked.makeRoom, if_neg hge], rfl, by rw [turnOnBit_capacity, if_neg hge], ?_⟩
    simp only [setBit, Rep.turnOnBit, if_neg hge]

/-- The second part raises the radix by one at most. -/
theorem raiseRadix_of_size (hsize : c.size = r + 1) (hrad : r ≤ d.radix) :
    raiseRadix d (DeltaFs.toRadix c) =
      some (if d.radix < DeltaFs.toRadix c then { d with radix := DeltaFs.toRadix c } else d) := by
  rw [raiseRadix]
  split
  · rename_i hlt
    rw [toRadix_eq, hsize] at hlt
    rw [toRadix_eq, hsize, Nat.add_sub_cancel, check_of (by omega), Option.map_some]
  · rfl

/-- **Setting the bit of a child** of a partition, one bit longer than the others at
most, fails no assertion: there is room for the bit or the bitmap is doubled, the radix
is raised by one at most, and it is that of the highest bit afterwards. -/
theorem Sound.turnOnBit (h : Sound d) (hi : Has d i) (hir : i < 2 ^ r) (hr : r < 16)
    (hrad : r ≤ d.radix) :
    turnOnBit d (i + 2 ^ r) = some (d.turnOnBit (i + 2 ^ r)) ∧ Sound (d.turnOnBit (i + 2 ^ r)) := by
  obtain ⟨c, hc⟩ : ∃ c, c = i + 2 ^ r := ⟨_, rfl⟩
  have hsize : c.size = r + 1 := hc ▸ size_child hir
  have hpar : Has d (parent c) := by
    rw [hc, parent_child hir]
    exact hi
  rw [← hc]
  have hsound : Sound (d.turnOnBit c) := h.insert hsize hr hrad hpar
  have hmax : c < kMaxPartitions :=
    c.lt_size_self.trans_le (hsize ▸ Nat.pow_le_pow_right (by decide) hr)
  refine ⟨?_, hsound⟩
  obtain ⟨-, k, -, -, hroom⟩ := h.capacity_turnOnBit hsize hr hrad
  obtain ⟨d₁, hmake, hrad₁, hcap₁, hset⟩ := h.makeRoom hsize hr hrad
  have hbyte : c / 8 < (if d₁.radix < DeltaFs.toRadix c then
      { d₁ with radix := DeltaFs.toRadix c } else d₁).bitmapCapacity := by
    have hsame : (if d₁.radix < DeltaFs.toRadix c then { d₁ with radix := DeltaFs.toRadix c }
        else d₁).bitmapCapacity = d₁.bitmapCapacity := by
      split
      · rfl
      · rfl
    rw [hsame, hcap₁]
    omega
  rw [Checked.turnOnBit, check_of hmax, Option.bind_some, hmake, Option.bind_some, toRadix,
    check_of hmax, Option.map_some, Option.bind_some, raiseRadix_of_size hsize (hrad₁ ▸ hrad),
    Option.bind_some, check_of hbyte, Option.bind_some, hset, hsound.checkRadix]

/-- A new index has one partition. -/
theorem newRep_sound (zserver : UInt16) :
    newRep zserver = some (Rep.new zserver) ∧ Sound (Rep.new zserver) ∧
      ∀ i, Has (Rep.new zserver) i ↔ i = 0 := by
  obtain ⟨hnew, hfilled, hcap⟩ := newRep_spec zserver
  have hhas : ∀ i, Has (Rep.new zserver) i ↔ i = 0 := fun i => Rep.testBit_new zserver i
  have hradix : (Rep.new zserver).radix = 0 := hfilled.radix
  refine ⟨hnew, ⟨(hhas 0).mpr rfl, ?_, ?_, ?_, ⟨0, (hhas 0).mpr rfl, hradix.symm⟩,
    ⟨0, Nat.zero_le 9, hcap⟩, ?_⟩, hhas⟩
  · intro i hi
    rw [(hhas i).mp hi]
    exact (hhas _).mpr rfl
  · intro i hi
    rw [(hhas i).mp hi]
    decide
  · intro i hi
    rw [(hhas i).mp hi]
    exact Nat.zero_le _
  · rw [Rep.bitmapSize, hradix, hcap]
    decide

/-- The child `c` of `i` is the next: those between them are there. -/
structure Next (d : Rep) (i r : Nat) : Prop where
  radix_le : DeltaFs.toRadix i ≤ r
  lt : r < 16
  free : ¬Has d (i + 2 ^ r)
  taken : ∀ l, DeltaFs.toRadix i ≤ l → l < r → Has d (i + 2 ^ l)

theorem lt_of_toRadix_le (h : DeltaFs.toRadix i ≤ r) : i < 2 ^ r :=
  (lt_two_pow_toRadix i).trans_le (Nat.pow_le_pow_right (by decide) h)

theorem toChildIndex_eq (hir : i < 2 ^ r) (hr : r < 16) :
    toChildIndex i r = some (i + 2 ^ r) ∧ i + 2 ^ r < kMaxPartitions ∧
      DeltaFs.toRadix (i + 2 ^ r) = r + 1 := by
  have hpow : 2 ^ r ≤ 2 ^ 15 := Nat.pow_le_pow_right (by decide) (by omega)
  have hhalf : kMaxPartitions / 2 = 2 ^ 15 := rfl
  have hmax : kMaxPartitions = 2 * 2 ^ 15 := rfl
  have hrad : kMaxRadix = 16 := rfl
  refine ⟨?_, by omega, ?_⟩
  · rw [toChildIndex, check_of (by omega), Option.bind_some, check_of (by omega), Option.map_some,
      Nat.shiftLeft_eq, Nat.one_mul]
  · rw [toRadix_eq, size_child hir]

/-- The next child needs one bit more at most than there are. -/
theorem Sound.next_radix (h : Sound d) (hi : Has d i) (hn : Next d i r) : r ≤ d.radix := by
  rcases Nat.eq_or_lt_of_le hn.radix_le with heq | hlt
  · rw [← heq, toRadix_eq]
    exact h.size_le i hi
  · have hlast := h.size_le _ (hn.taken (r - 1) (by omega) (by omega))
    rw [size_child (lt_of_toRadix_le (by omega))] at hlast
    omega

/-- The loop of `IsSplittable` tells whether there is a next child. -/
theorem isSplittableFrom_spec (h : Sound d) : ∀ {fuel r : Nat}, r + fuel = 16 →
    DeltaFs.toRadix i ≤ r → (∀ l, DeltaFs.toRadix i ≤ l → l < r → Has d (i + 2 ^ l)) →
    ∃ ok, isSplittableFrom d n i fuel r = some ok ∧
      (ok = true ↔ ∃ r, Next d i r ∧ i + 2 ^ r < n) := by
  intro fuel
  induction fuel with
  | zero =>
    intro r hfuel hle htaken
    refine ⟨false, rfl, iff_of_false Bool.false_ne_true ?_⟩
    rintro ⟨s, hs, -⟩
    exact hs.free (htaken s hs.radix_le (by have := hs.lt; omega))
  | succ fuel ih =>
    intro r hfuel hle htaken
    obtain ⟨hchild, hmax, hsize⟩ := toChildIndex_eq (lt_of_toRadix_le hle) (by omega)
    rw [isSplittableFrom, hchild, Option.bind_some, h.bit_checked hmax, Option.bind_some]
    split
    · rename_i hbit
      rw [toRadix, check_of hmax, Option.map_some, Option.bind_some, check_of hsize.symm,
        Option.bind_some]
      refine ih (by omega) (by omega) fun l hl hlr => ?_
      rcases Nat.lt_succ_iff_lt_or_eq.mp hlr with hlr | rfl
      · exact htaken l hl hlr
      · exact hbit
    · rename_i hbit
      refine ⟨_, rfl, ?_⟩
      rw [decide_eq_true_eq]
      constructor
      · intro hlt
        exact ⟨r, ⟨hle, by omega, hbit, htaken⟩, hlt⟩
      · rintro ⟨s, hs, hlt⟩
        rcases Nat.lt_trichotomy s r with hsr | rfl | hsr
        · exact absurd (htaken s hs.radix_le hsr) hs.free
        · exact hlt
        · exact absurd (hs.taken r hle hsr) hbit

/-- **A partition that is there is splittable if it has a next child** among the
virtual servers. -/
theorem Sound.isSplittable (h : Sound d) (hi : i < kMaxPartitions) :
    ∃ ok, isSplittable d n i = some ok ∧
      (ok = true ↔ Has d i ∧ ∃ r, Next d i r ∧ i + 2 ^ r < n) := by
  rw [Checked.isSplittable, h.bit_checked hi, Option.bind_some]
  split
  · rename_i hbit
    have hrad : DeltaFs.toRadix i ≤ kMaxRadix := toRadix_le hi
    obtain ⟨ok, heq, hok⟩ := isSplittableFrom_spec (n := n) h
      (Nat.add_sub_of_le hrad) le_rfl fun l hl hlr => absurd hlr (Nat.not_lt_of_le hl)
    rw [toRadix, check_of hi, Option.map_some, Option.bind_some]
    exact ⟨ok, heq, hok.trans (and_iff_right hbit).symm⟩
  · rename_i hbit
    exact ⟨false, rfl, iff_of_false Bool.false_ne_true fun hhas => hbit hhas.1⟩

/-- The loop of `NewIndexForSplitting` ends at the next child. -/
theorem newIndexFrom_spec (h : Sound d) (hn : Next d i r) : ∀ {fuel j s : Nat},
    DeltaFs.toRadix i ≤ s → s ≤ r → r - s + 2 ≤ fuel → Has d j →
    newIndexFrom d i fuel j s = some (i + 2 ^ r) := by
  intro fuel
  induction fuel with
  | zero =>
    intro j s _ _ hfuel
    omega
  | succ fuel ih =>
    intro j s hle hsr hfuel hj
    have hrlt := hn.lt
    have hbit : d.bitmap.testBit j = true := hj
    obtain ⟨hchild, hmax, -⟩ := toChildIndex_eq (lt_of_toRadix_le hle) (by omega)
    rw [newIndexFrom, h.bit_checked (h.lt j hj), Option.bind_some, if_pos hbit, hchild,
      Option.bind_some]
    rcases Nat.eq_or_lt_of_le hsr with rfl | hlt
    · obtain ⟨fuel, rfl⟩ : ∃ l, fuel = l + 1 := ⟨fuel - 1, by omega⟩
      have hfree : ¬d.bitmap.testBit (i + 2 ^ s) = true := hn.free
      rw [newIndexFrom, h.bit_checked hmax, Option.bind_some, if_neg hfree]
    · exact ih (by omega) (by omega) (by omega) (hn.taken s hle hlt)

/-- **The index that is new is that of the next child**, and no assertion fails when
its bit is set. -/
theorem Sound.newIndexForSplitting (h : Sound d)
    (hok : Checked.isSplittable d n i = some true) :
    ∃ r, Next d i r ∧ Has d i ∧ newIndexForSplitting d n i = some (i + 2 ^ r) ∧
      set d n (i + 2 ^ r) = some (d.turnOnBit (i + 2 ^ r)) ∧ Sound (d.turnOnBit (i + 2 ^ r)) := by
  have hi : i < kMaxPartitions := by
    by_contra hge
    rw [Checked.isSplittable, bit, check_eq_none hge] at hok
    cases hok
  obtain ⟨ok, heq, hiff⟩ := h.isSplittable (n := n) hi
  rw [hok] at heq
  obtain ⟨hhas, r, hnext, hlt⟩ := hiff.mp (Option.some.inj heq).symm
  have hrad : DeltaFs.toRadix i ≤ kMaxRadix := toRadix_le hi
  have hloop : newIndexFrom d i (kMaxRadix + 1 - DeltaFs.toRadix i + 1) i (DeltaFs.toRadix i) =
      some (i + 2 ^ r) := by
    have hlt16 := hnext.lt
    have hval : kMaxRadix = 16 := rfl
    exact newIndexFrom_spec h hnext le_rfl hnext.radix_le (by omega) hhas
  have hne : i + 2 ^ r ≠ i ∧ i + 2 ^ r < n := by
    have := Nat.two_pow_pos r
    exact ⟨by omega, hlt⟩
  obtain ⟨hset, hsound⟩ := h.turnOnBit hhas (lt_of_toRadix_le hnext.radix_le) hnext.lt
    (h.next_radix hhas hnext)
  refine ⟨r, hnext, hhas, ?_, ?_, hsound⟩
  · rw [Checked.newIndexForSplitting, hok, Option.bind_some, check_of rfl, Option.bind_some, toRadix,
      check_of hi, Option.map_some, Option.bind_some, hloop, Option.bind_some, check_of hne,
      Option.map_some]
  · rw [set, check_of hlt, Option.bind_some, hset]

/-- **A split moves the names that are to be migrated, all from the partition that is
split, and no others.** -/
theorem Sound.owner_split (h : Sound d) (hi : Has d i) (hn : Next d i r) {hash j : Nat}
    (hj : Owner (Has d) hash j) :
    Owner (Has (d.turnOnBit (i + 2 ^ r))) hash (if Ancestor (i + 2 ^ r) hash then i + 2 ^ r else j) ∧
      (Ancestor (i + 2 ^ r) hash → j = i) := by
  have hpar : parent (i + 2 ^ r) = i := parent_child (lt_of_toRadix_le hn.radix_le)
  refine ⟨(hj.insert h.closed hn.free).congr fun l => (Rep.testBit_turnOnBit d _ l).symm, ?_⟩
  intro hch
  exact (hj.eq_parent h.closed hn.free (hpar.symm ▸ hi) hch).trans hpar

end

end Checked

end DeltaFs
