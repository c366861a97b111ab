import DeltaFs.DirIndex

/-!
# The assertions of the directory index

The functions of `gigaplus.cc` that build an index and select a server with it, as
they are when assertions are on: `none` if one fails. Where none does they compute
what the functions without them do (`selectServer_eq`).

An index has one bit a partition, and room for it is made in bytes. The partitions
of a hash are numbered with as many bits as the highest one needs, which are more
than there are partitions unless there is a power of two of them.
`assertions_hold_iff` says for how many servers neither matters.

The proof goes through the functions in the order they call each other, and each has a
lemma that says when it returns and what (`scaleToSize_spec`, `turnOnBit_spec`,
`fetchDir_spec`). What is left is a matter of the last index that a hash can have with a
given number of bits, and there is a hash that has it (`ones`).
-/

namespace DeltaFs

namespace Checked

/-- `assert`. -/
def check (p : Prop) [Decidable p] : Option Unit := if p then some () else none

/-- `kMaxRadix`. -/
def kMaxRadix : Nat := 16

/-- `kMaxPartitions`. -/
def kMaxPartitions : Nat := 1 <<< kMaxRadix

/-! ## Indices

These are stateless: the number of bits an index has, the index it was split from, and the first
bits of a hash read as an index. Their assertions keep an index below 65536, and the number of
bits that are read of a hash at 16 or less. -/

/-- `ToRadix`. -/
def toRadix (index : Nat) : Option Nat :=
  (check (index < kMaxPartitions)).map fun _ => DeltaFs.toRadix index

/-- `ToParentIndex`. -/
def toParentIndex (index : Nat) : Option Nat :=
  (check (index < kMaxPartitions)).map fun _ => DeltaFs.toParentIndex index

/-- `ComputeIndexFromHash`. -/
def computeIndexFromHash (hash : Slice) (n : Nat) : Option Nat :=
  (check (n ≤ kMaxRadix)).bind fun _ =>
    let result := DeltaFs.computeIndexFromHash hash n
    (check (result < kMaxPartitions)).map fun _ => result

/-! ## The representation

The functions of `DirIndex` in the order of the source, each with the assertions it makes and
with the loops it runs. `TurnOnBit` is given in its four parts, since each one has a lemma of
its own below. The constructor turns the first bit on, and `SetAll` one bit after the other, so
all other bits of an index that a client or a server builds are set in this order. -/

/-- `bit()`. -/
def bit (d : Rep) (index : Nat) : Option Bool :=
  (check (index < kMaxPartitions)).map fun _ => d.bit index

/-- `Reset`, with the capacity that is new. -/
def reset (d : Rep) : Option Rep :=
  (check (d.bitmapCapacity ≤ kMaxPartitions / 8)).map fun _ => d

/-- `ScaleUp`. -/
def scaleUp (d : Rep) (factor : Nat) : Option Rep :=
  if factor > 1 then reset (d.scaleUp factor) else some d

/-- `ScaleToSize`, `Reserve`. -/
def scaleToSize (d : Rep) (capacity : Nat) : Option Rep :=
  scaleUp d (Rep.scaleFactor capacity capacity d.bitmapCapacity 1)

/-- `bitmap_[i]`. -/
def byteAt (d : Rep) (i : Nat) : Nat := (d.bitmap >>> (8 * i)) % 2 ^ 8

/-- The first loop of `HighestBit`, from byte `i` down. Bit 0 is set, so it ends. -/
def highestByte (d : Rep) : Nat → Nat
  | 0 => 0
  | i + 1 => if byteAt d (i + 1) = 0 then highestByte d i else i + 1

/-- The second loop, over the bits of a byte. -/
def highestOff (byte : Nat) : Nat → Nat
  | 0 => 0
  | off + 1 => if byte.testBit (off + 1) then off + 1 else highestOff byte off

/-- `HighestBit`. -/
def highestBit (d : Rep) : Option Nat :=
  let i := d.bitmapSize - 1
  (check (i < d.bitmapCapacity)).bind fun _ => (bit d 0).bind fun b =>
    (check (b = true)).map fun _ =>
      let i := highestByte d i
      highestOff (byteAt d i) 7 + i * 8

/-- The first part of `TurnOnBit`: there is room for the bit. -/
def makeRoom (d : Rep) (index : Nat) : Option Rep :=
  if index ≥ d.bitmapCapacity * 8 then
    (check (index < 2 * d.bitmapCapacity * 8)).bind fun _ => scaleUp d 2
  else some d

/-- The second part: the radix is that of the bit at least. -/
def raiseRadix (d : Rep) (r : Nat) : Option Rep :=
  if d.radix < r then (check (d.radix = r - 1)).map fun _ => { d with radix := r } else some d

/-- The third part: the bit is set. -/
def setBit (d : Rep) (index : Nat) : Rep := { d with bitmap := d.bitmap ||| 1 <<< index }

/-- The last part: the radix is that of the highest bit. -/
def checkRadix (d : Rep) : Option Rep :=
  (highestBit d).bind fun h => (toRadix h).bind fun r => (check (d.radix = r)).map fun _ => d

/-- `TurnOnBit`. -/
def turnOnBit (d : Rep) (index : Nat) : Option Rep :=
  (check (index < kMaxPartitions)).bind fun _ => (makeRoom d index).bind fun d =>
    (toRadix index).bind fun r => (raiseRadix d r).bind fun d =>
      (check (index / 8 < d.bitmapCapacity)).bind fun _ => checkRadix (setBit d index)

/-- The constructor. -/
def newRep (zserver : UInt16) : Option Rep :=
  (reset (Rep.zeroed zserver)).bind fun d => turnOnBit d 0

/-- The loop of `SetAll`, up to index `n`. -/
def turnOnBits (d : Rep) : Nat → Option Rep
  | 0 => some d
  | n + 1 => (turnOnBits d n).bind fun d => turnOnBit d n

/-- `SetAll`, of `n` partitions. -/
def setAll (d : Rep) (n : Nat) : Option Rep := (scaleToSize d n).bind fun d => turnOnBits d n

/-- The loop of `HashToIndex`. -/
def climb (d : Rep) : Nat → Nat → Option Nat
  | 0, i => some i
  | fuel + 1, i => (bit d i).bind fun b =>
    if b then some i else (toParentIndex i).bind fun i => climb d fuel i

/-- `HashToIndex`, of `n` partitions. -/
def hashToIndex (d : Rep) (n : Nat) (hash : Slice) : Option Nat :=
  (bit d 0).bind fun b => (check (b = true)).bind fun _ =>
    (computeIndexFromHash hash d.radix).bind fun i => (check (i < n)).bind fun _ => climb d i i

/-- The index a server, a client and the compactor build of a directory. -/
def fetchDir (xx : XXHash) (id : DirId) (n : Nat) : Option Rep :=
  (newRep (pickupServer xx id).toInt32.toUInt32.toUInt16).bind fun d => setAll d n

/-- `SelectServer`, with that index. -/
def selectServer (xx : XXHash) (id : DirId) (n : Nat) (name : Slice) : Option Nat :=
  (fetchDir xx id n).bind fun d =>
    (hashToIndex d n (gigaHash xx name)).map fun i =>
      DirIndex.mapIndexToServer i d.zerothServer n

/-! ## Room

The capacity of a bitmap is doubled until it is enough, and 8192 bytes are the limit the
assertions set. `scaleToSize_spec` and `scaleToSize_eq_none` are the two sides: up to the limit
room is made, beyond it the assertion fails. -/

section

variable {d : Rep} {i k n : Nat}

theorem check_of {p : Prop} [Decidable p] (h : p) : check p = some () := if_pos h

theorem check_eq_none {p : Prop} [Decidable p] (h : ¬ p) : check p = none := if_neg h

/-- The loop of `ScaleToSize` ends at the first capacity that is enough. -/
theorem scaleFactor_spec {c b : Nat} (fuel : Nat) : ∀ j, c ≤ b * 2 ^ (j + fuel) →
    ∃ k, Rep.scaleFactor c fuel (b * 2 ^ j) (2 ^ j) = 2 ^ k ∧ c ≤ b * 2 ^ k ∧
      (k = j ∨ ∃ l, k = l + 1 ∧ b * 2 ^ l < c) := by
  induction fuel with
  | zero =>
    intro j hj
    exact ⟨j, rfl, hj, .inl rfl⟩
  | succ fuel ih =>
    intro j hj
    rw [Rep.scaleFactor]
    split
    · rename_i hlt
      have hnext : (b * 2 ^ j) <<< 1 = b * 2 ^ (j + 1) ∧ 2 ^ j <<< 1 = 2 ^ (j + 1) := by
        rw [Nat.shiftLeft_eq, Nat.shiftLeft_eq, Nat.pow_one, Nat.pow_succ, Nat.mul_assoc]
        exact ⟨rfl, rfl⟩
      obtain ⟨k, hk, hle, hlast⟩ := ih (j + 1) (by rwa [Nat.add_right_comm, Nat.add_assoc])
      rw [hnext.1, hnext.2]
      refine ⟨k, hk, hle, .inr ?_⟩
      rcases hlast with rfl | hlast
      · exact ⟨j, rfl, hlt⟩
      · exact hlast
    · rename_i hle
      exact ⟨j, rfl, Nat.le_of_not_lt hle, .inl rfl⟩

/-- **Room for `n` bytes is made if `n` is not more than there may be.** The loop doubles
the factor until there are enough bytes, and 8192 are the most there may be; 8193 take
16384. -/
theorem scaleToSize_spec (hcap : d.bitmapCapacity = 16) (hn : n ≤ 8192) :
    scaleToSize d n = some (d.scaleToSize n) ∧ n ≤ (d.scaleToSize n).bitmapCapacity := by
  obtain ⟨k, hk, hle, hlast⟩ := scaleFactor_spec n 0 (b := 16) (c := n)
    (by rw [Nat.zero_add]; exact (Nat.lt_two_pow_self).le.trans (Nat.le_mul_of_pos_left _ (by decide)))
  rw [Nat.pow_zero, Nat.mul_one] at hk
  have hk9 : k ≤ 9 := by
    rcases hlast with rfl | ⟨l, rfl, hl⟩
    · exact Nat.zero_le 9
    · have hl9 : 2 ^ l < 2 ^ 9 := by omega
      exact (Nat.pow_lt_pow_iff_right (by decide)).1 hl9
  have hcap' : (d.scaleUp (2 ^ k)).bitmapCapacity = 16 * 2 ^ k := by
    rw [Rep.scaleUp]
    split
    · rw [hcap]
    · have hone : 2 ^ k = 1 := by
        have := Nat.two_pow_pos k
        omega
      rw [hcap, hone]
  have hmax : 2 ^ k ≤ 2 ^ 9 := Nat.pow_le_pow_right (by decide) hk9
  rw [scaleToSize, Rep.scaleToSize, hcap, hk, hcap', scaleUp]
  refine ⟨?_, hle⟩
  split
  · rw [reset, check_of (by rw [hcap']; exact Nat.mul_le_mul_left 16 hmax), Option.map_some]
  · rw [Rep.scaleUp, if_neg (by assumption)]

/-- More bytes than that are not. -/
theorem scaleToSize_eq_none (hcap : d.bitmapCapacity = 16) (hn : 8192 < n) :
    scaleToSize d n = none := by
  obtain ⟨k, hk, hle, -⟩ := scaleFactor_spec n 0 (b := 16) (c := n)
    (by rw [Nat.zero_add]; exact (Nat.lt_two_pow_self).le.trans (Nat.le_mul_of_pos_left _ (by decide)))
  rw [Nat.pow_zero, Nat.mul_one] at hk
  have hfactor : 1 < 2 ^ k := by omega
  have hbig : ¬ (d.scaleUp (2 ^ k)).bitmapCapacity ≤ kMaxPartitions / 8 := by
    have hmax : kMaxPartitions / 8 = 8192 := by decide
    have hcap' : (d.scaleUp (2 ^ k)).bitmapCapacity = 16 * 2 ^ k := by
      rw [Rep.scaleUp, if_pos hfactor, ← hcap]
    rw [hcap', hmax]
    omega
  rw [scaleToSize, hcap, hk, scaleUp, if_pos hfactor, reset, check_eq_none hbig, Option.map_none]

end

/-! ## Bits

`SetAll` turns the bits on from the lowest to the highest, so at any time the bits that are set
are the first `k`, which is what `Filled` says. The highest bit is then known, and with it the
radix: this is what the assertion at the end of `TurnOnBit` compares it with. -/

/-- The first `k` bits are set, and the radix is that of the last of them. -/
structure Filled (d : Rep) (k : Nat) : Prop where
  radix : d.radix = DeltaFs.toRadix (k - 1)
  bits : ∀ j, d.bitmap.testBit j = true ↔ j < k

section

variable {d : Rep} {i k n : Nat}

theorem testBit_byteAt (d : Rep) (i off : Nat) :
    (byteAt d i).testBit off = (decide (off < 8) && d.bitmap.testBit (8 * i + off)) := by
  rw [byteAt, Nat.testBit_mod_two_pow, Nat.testBit_shiftRight]

/-- A byte of zeros is beyond the last bit. -/
theorem byteAt_eq_zero (h : Filled d k) : byteAt d i = 0 ↔ k ≤ 8 * i := by
  constructor
  · intro hzero
    by_contra hlt
    have hbit : (byteAt d i).testBit 0 = true := by
      rw [testBit_byteAt, (h.bits _).2 (by omega)]
      rfl
    rw [hzero, Nat.zero_testBit] at hbit
    cases hbit
  · intro hle
    apply Nat.zero_of_testBit_eq_false
    intro off
    rw [testBit_byteAt, Bool.and_eq_false_iff]
    refine .inr (Bool.eq_false_iff.2 fun hbit => ?_)
    have := (h.bits _).1 hbit
    omega

theorem highestByte_eq (h : Filled d k) (hk : 0 < k) : ∀ i, (k - 1) / 8 ≤ i →
    highestByte d i = (k - 1) / 8 := by
  intro i
  induction i with
  | zero => intro hle; exact (Nat.le_zero.1 hle).symm
  | succ i ih =>
    intro hle
    rw [highestByte]
    split
    · rename_i hzero
      have := (byteAt_eq_zero h).1 hzero
      exact ih (by omega)
    · rename_i hne
      have hlt := mt (byteAt_eq_zero h).2 hne
      omega

theorem highestOff_eq (h : Filled d k) (hk : 0 < k) : ∀ off, off < 8 → (k - 1) % 8 ≤ off →
    highestOff (byteAt d ((k - 1) / 8)) off = (k - 1) % 8 := by
  intro off
  induction off with
  | zero => intro _ hle; exact (Nat.le_zero.1 hle).symm
  | succ off ih =>
    intro hoff hle
    rw [highestOff]
    have hbits := h.bits (8 * ((k - 1) / 8) + (off + 1))
    split
    · rename_i hbit
      rw [testBit_byteAt, Bool.and_eq_true] at hbit
      have := hbits.1 hbit.2
      omega
    · rename_i hbit
      refine ih (by omega) (Nat.le_of_lt_succ (lt_of_le_of_ne hle fun heq => hbit ?_))
      rw [testBit_byteAt, Bool.and_eq_true, decide_eq_true_eq]
      exact ⟨hoff, hbits.2 (by omega)⟩

/-- The bitmap is not larger than the room for its bits. -/
theorem bitmapSize_le (h : Filled d k) : d.bitmapSize ≤ max 1 k := by
  have hpow : 2 ^ d.radix ≤ max 1 (2 * (k - 1)) := by
    rw [h.radix, DeltaFs.toRadix]
    split
    · omega
    · rename_i hne
      have := Nat.log2_self_le hne
      rw [Nat.pow_add, toLog2]
      omega
  rw [Rep.bitmapSize, Nat.shiftLeft_eq, Nat.one_mul]
  omega

theorem bit_of_lt (h : Filled d k) (hi : i < k) : d.bit i = true := by
  have hrad : DeltaFs.toRadix i ≤ d.radix := by
    rw [h.radix]
    exact toRadix_mono (by omega)
  have hlt : i < 2 ^ d.radix :=
    (lt_two_pow_toRadix i).trans_le (Nat.pow_le_pow_right (by decide) hrad)
  rw [Rep.bit, if_pos (Rep.lt_bitmapSize hlt), h.bits]
  exact hi

/-- **The highest bit is the last.** The bits that are set are those below `k`, so the
search from the top stops at the one before `k`, in whatever byte that is. -/
theorem highestBit_eq (h : Filled d k) (hk : 0 < k) (hcap : max 1 k ≤ d.bitmapCapacity) :
    highestBit d = some (k - 1) := by
  have hsize := bitmapSize_le h
  have hpos : 0 < d.bitmapSize := by
    have := Rep.lt_bitmapSize (d := d) (i := 0) (Nat.two_pow_pos _)
    omega
  have hlast : k - 1 < d.bitmapSize * 8 := by
    apply Rep.lt_bitmapSize
    rw [h.radix]
    exact lt_two_pow_toRadix _
  have hroom : d.bitmapSize - 1 < d.bitmapCapacity := by omega
  have hzero : bit d 0 = some true := by
    rw [bit, check_of (by decide), Option.map_some, bit_of_lt h hk]
  rw [highestBit, check_of hroom, Option.bind_some, hzero, Option.bind_some, check_of rfl,
    Option.map_some, highestByte_eq h hk _ (by omega)]
  dsimp only
  rw [highestOff_eq h hk 7 (by decide) (by omega), Nat.mod_add_div']

/-- The next index needs one bit more at most. -/
theorem toRadix_next (hi : i ≤ k) (hlt : DeltaFs.toRadix (k - 1) < DeltaFs.toRadix i) :
    DeltaFs.toRadix (k - 1) = DeltaFs.toRadix i - 1 := by
  have hnext : DeltaFs.toRadix (k - 1 + 1) ≤ DeltaFs.toRadix (k - 1) + 1 := by
    have hpow := lt_two_pow_toRadix (k - 1)
    apply toRadix_le
    rw [Nat.pow_succ]
    omega
  have hmono : DeltaFs.toRadix i ≤ DeltaFs.toRadix (k - 1 + 1) := toRadix_mono (by omega)
  omega

/-- **Turning on a bit next to the others** fails no assertion. `SetAll` turns the bits
on in order, so each of them finds the radix at the bits of the one before, and makes it
larger by one at most. -/
theorem turnOnBit_spec (hrad : d.radix = DeltaFs.toRadix (k - 1))
    (hbits : ∀ j, d.bitmap.testBit j = true ↔ j < k) (hi : i ≤ k) (hmax : max k (i + 1) ≤ kMaxPartitions)
    (hcap : max k (i + 1) ≤ d.bitmapCapacity) :
    turnOnBit d i = some (d.turnOnBit i) ∧ Filled (d.turnOnBit i) (max k (i + 1)) ∧
      (d.turnOnBit i).bitmapCapacity = d.bitmapCapacity := by
  have hroom : ¬ i ≥ d.bitmapCapacity * 8 := by omega
  have hcap' : (d.turnOnBit i).bitmapCapacity = d.bitmapCapacity := by
    simp only [Rep.turnOnBit, if_neg hroom]
    split <;> rfl
  have hfilled : Filled (d.turnOnBit i) (max k (i + 1)) := by
    constructor
    · have hmono : DeltaFs.toRadix (max k (i + 1) - 1) =
          max (DeltaFs.toRadix (k - 1)) (DeltaFs.toRadix i) := by
        rcases Nat.lt_or_ge i k with hlt | hge
        · rw [Nat.max_eq_left hlt, Nat.max_eq_left (toRadix_mono (by omega))]
        · rw [Nat.max_eq_right (by omega), Nat.add_sub_cancel, Nat.max_eq_right (toRadix_mono (by omega))]
      rw [Rep.turnOnBit_radix, hrad, hmono]
    · intro j
      rw [Rep.testBit_turnOnBit, hbits]
      omega
  refine ⟨?_, hfilled, hcap'⟩
  -- the radix is raised by one bit at most
  have hraise : ∃ d', raiseRadix d (DeltaFs.toRadix i) = some d' ∧ setBit d' i = d.turnOnBit i ∧
      d'.bitmapCapacity = d.bitmapCapacity := by
    by_cases hlt : d.radix < DeltaFs.toRadix i
    · refine ⟨{ d with radix := DeltaFs.toRadix i }, ?_, ?_, rfl⟩
      · rw [hrad] at hlt
        rw [raiseRadix, if_pos (by rwa [hrad]), check_of (by rw [hrad]; exact toRadix_next hi hlt),
          Option.map_some]
      · simp only [setBit, Rep.turnOnBit, if_neg hroom, if_pos hlt]
    · refine ⟨d, by rw [raiseRadix, if_neg hlt], ?_, rfl⟩
      simp only [setBit, Rep.turnOnBit, if_neg hroom, if_neg hlt]
  obtain ⟨d', hraise, hset, hsame⟩ := hraise
  have hhigh := highestBit_eq hfilled (by omega) (by rw [hcap']; omega)
  have hradix : toRadix (max k (i + 1) - 1) = some (d.turnOnBit i).radix := by
    rw [toRadix, check_of (by omega), Option.map_some, hfilled.radix]
  rw [turnOnBit, check_of (by omega), Option.bind_some, makeRoom, if_neg hroom, Option.bind_some,
    toRadix, check_of (by omega), Option.map_some, Option.bind_some, hraise, Option.bind_some,
    check_of (by omega), Option.bind_some, hset, checkRadix, hhigh, Option.bind_some, hradix,
    Option.bind_some, check_of rfl, Option.map_some]

/-- The constructor fails no assertion. -/
theorem newRep_spec (zserver : UInt16) :
    newRep zserver = some (Rep.new zserver) ∧ Filled (Rep.new zserver) 1 ∧
      (Rep.new zserver).bitmapCapacity = 16 := by
  have hbits : ∀ j, (Rep.zeroed zserver).bitmap.testBit j = true ↔ j < 0 := by
    intro j
    rw [Rep.zeroed, Nat.zero_testBit]
    exact iff_of_false Bool.false_ne_true (Nat.not_lt_zero j)
  have hcap : (Rep.zeroed zserver).bitmapCapacity = 16 := rfl
  obtain ⟨hturn, hfilled, hcap'⟩ := turnOnBit_spec (d := Rep.zeroed zserver) (k := 0) (i := 0) rfl hbits
    (Nat.le_refl 0) (by decide) (by rw [hcap]; decide)
  refine ⟨?_, hfilled, hcap'.trans hcap⟩
  rw [newRep, reset, check_of (by rw [hcap]; decide), Option.map_some, Option.bind_some, hturn,
    Rep.new]

/-- The loop of `SetAll` fails none, when there is room. -/
theorem turnOnBits_spec (h : Filled d 1) (hn : n ≤ kMaxPartitions)
    (hcap : max 1 n ≤ d.bitmapCapacity) :
    turnOnBits d n = some (d.turnOnBits n) ∧ Filled (d.turnOnBits n) (max 1 n) ∧
      (d.turnOnBits n).bitmapCapacity = d.bitmapCapacity := by
  induction n with
  | zero => exact ⟨rfl, h, rfl⟩
  | succ n ih =>
    obtain ⟨hloop, hfilled, hsame⟩ := ih (by omega) (by omega)
    have hk : max (max 1 n) (n + 1) = max 1 (n + 1) := by omega
    have hmax : max 1 (n + 1) ≤ kMaxPartitions := Nat.max_le.2 ⟨by decide, hn⟩
    obtain ⟨hturn, hfilled', hsame'⟩ := turnOnBit_spec hfilled.radix hfilled.bits
      (Nat.le_max_right 1 n) (by rwa [hk]) (by rwa [hk, hsame])
    rw [hk] at hfilled'
    rw [turnOnBits, hloop, Option.bind_some, Rep.turnOnBits_succ]
    exact ⟨hturn, hfilled', hsame'.trans hsame⟩

/-- **An index can be built for up to 8192 servers.** All its bits are set, so the radix is
that of the last one. -/
theorem fetchDir_spec (xx : XXHash) (id : DirId) (hn : 0 < n) (hmax : n ≤ 8192) :
    fetchDir xx id n = some (fetchIndex xx id n n).rep ∧ Filled (fetchIndex xx id n n).rep n := by
  obtain ⟨hnew, hfilled, hcap⟩ := newRep_spec (pickupServer xx id).toInt32.toUInt32.toUInt16
  obtain ⟨hscale, hroom⟩ := scaleToSize_spec hcap hmax
  have hstart : Filled ((Rep.new (pickupServer xx id).toInt32.toUInt32.toUInt16).scaleToSize n) 1 := by
    constructor
    · rw [Rep.scaleToSize_radix, hfilled.radix]
    · rw [Rep.scaleToSize_bitmap]
      exact hfilled.bits
  have hone : max 1 n = n := by omega
  obtain ⟨hloop, hdone, -⟩ := turnOnBits_spec hstart
    (hmax.trans (by decide)) (by rwa [hone])
  rw [hone] at hdone
  exact ⟨by rw [fetchDir, hnew, Option.bind_some, setAll, hscale, Option.bind_some, hloop]; rfl, hdone⟩

/-- For more an assertion of `Reset` fails. -/
theorem fetchDir_eq_none (xx : XXHash) (id : DirId) (hn : 8192 < n) : fetchDir xx id n = none := by
  obtain ⟨hnew, -, hcap⟩ := newRep_spec (pickupServer xx id).toInt32.toUInt32.toUInt16
  rw [fetchDir, hnew, Option.bind_some, setAll, scaleToSize_eq_none hcap hn, Option.bind_none]

end

/-! ## Hashes

`ComputeIndexFromHash` takes the bits of a hash from the first byte on. Whatever the hash is,
the index has no more bits than asked for. It may have all of them: a hash of ones gives the
last index, and this is what decides for which numbers of servers an assertion can fail. -/

section

variable {n : Nat}

/-- The bits of a byte from the first on. -/
theorem low_bits_lt (b : UInt8) (s : Nat) : (b.toNat &&& (1 <<< s - 1)) < 2 ^ s := by
  rw [Nat.shiftLeft_eq, Nat.one_mul, Nat.and_two_pow_sub_one_eq_mod]
  exact Nat.mod_lt _ (Nat.two_pow_pos s)

/-- **The index of a hash has as many bits as it is asked for.** Whole bytes of the hash
come first and then the bits that are left over, so two bytes do for the largest radix. -/
theorem computeIndexFromHash_lt (hash : Slice) {r : Nat} (hr : r ≤ 16) :
    DeltaFs.computeIndexFromHash hash r < 2 ^ r := by
  obtain ⟨a, ha⟩ : ∃ a, a = reverse (hash.getD 0 0) := ⟨_, rfl⟩
  obtain ⟨b, hb⟩ : ∃ b, b = reverse (hash.getD 1 0) := ⟨_, rfl⟩
  have halt := a.toNat_lt
  have hblt := b.toNat_lt
  rcases (by omega : r < 8 ∨ (8 ≤ r ∧ r < 16) ∨ r = 16) with hlt | ⟨hge, hlt⟩ | rfl
  · have hdiv : r / 8 = 0 := Nat.div_eq_of_lt hlt
    have hlow := low_bits_lt a r
    simp only [DeltaFs.computeIndexFromHash, hdiv, List.range_zero, List.map_nil, List.sum_nil,
      Nat.mod_eq_of_lt hlt, Nat.zero_mul, Nat.shiftLeft_zero, Nat.zero_add, ← ha]
    split
    · exact hlow
    · exact Nat.two_pow_pos r
  · obtain ⟨s, rfl⟩ := Nat.exists_eq_add_of_le hge
    have hs : s < 8 := by omega
    have hdiv : (8 + s) / 8 = 1 := by omega
    have hmod : (8 + s) % 8 = s := by omega
    have hlow := low_bits_lt b s
    simp only [DeltaFs.computeIndexFromHash, hdiv, hmod, List.range_one, List.map_cons, List.map_nil,
      List.sum_cons, List.sum_nil, Nat.zero_mul, Nat.shiftLeft_zero, Nat.add_zero, Nat.one_mul, ← ha,
      ← hb]
    rw [Nat.pow_add, Nat.shiftLeft_eq]
    split
    · omega
    · have := Nat.two_pow_pos s
      omega
  · have hdiv : 16 / 8 = 2 := rfl
    have hrange : List.range 2 = [0, 1] := rfl
    simp only [DeltaFs.computeIndexFromHash, hdiv, hrange, List.map_cons, List.map_nil,
      List.sum_cons, List.sum_nil, Nat.zero_mul, Nat.add_zero, Nat.one_mul, ← ha, ← hb,
      Nat.shiftLeft_eq]
    split
    · rename_i hpos
      exact absurd hpos (by decide)
    · omega

/-- A hash of ones has the last index. -/
theorem computeIndexFromHash_ones {r : Nat} (hr : r ≤ 16) :
    DeltaFs.computeIndexFromHash (encodeFixed64 0xffffffffffffffff) r = 2 ^ r - 1 := by
  have hall : ∀ r < 17, DeltaFs.computeIndexFromHash (encodeFixed64 0xffffffffffffffff) r = 2 ^ r - 1 := by
    decide
  exact hall r (by omega)

/-- The hash functions that hash every name to ones. -/
def ones : XXHash where
  xxhash32 _ _ := 0
  xxhash64 _ _ := 17241709254077376920

theorem gigaHash_ones (name : Slice) : gigaHash ones name = encodeFixed64 0xffffffffffffffff := by
  have hdiff : (17241709254077376920 : UInt64) - 17241709254077376921 = 0xffffffffffffffff := by decide
  rw [gigaHash, ones, hdiff]

end

/-! ## Selecting a server

From the index of a hash the walk goes to the parent until it gets to a partition that exists.
With as many partitions as there are indices of that many bits it stays where it is. With fewer,
an index may be too large from the start, and `HashToIndex` asserts that it is not. So
everything depends on whether the number of servers is a power of two. -/

section

variable {xx : XXHash} {id : DirId} {n : Nat} {name : Slice}

/-- The walk to a partition that exists is the same. -/
theorem climb_eq {d : DirIndex} : ∀ {fuel i j : Nat}, climb d.rep fuel i = some j →
    d.climb fuel i = j := by
  intro fuel
  induction fuel with
  | zero =>
    intro i j h
    exact Option.some.inj h
  | succ fuel ih =>
    intro i j h
    simp only [climb, bit, toParentIndex, check] at h
    rw [DirIndex.climb]
    split at h
    · rw [Option.map_some, Option.bind_some] at h
      split at h
      · rename_i hbit
        rw [if_pos hbit]
        exact Option.some.inj h
      · rename_i hbit
        rw [Option.map_some, Option.bind_some] at h
        rw [if_neg hbit]
        exact ih h
    · cases h

/-- **What is selected is what is selected without assertions.** So the two models of
the index agree wherever this one does not stop. -/
theorem selectServer_eq {i : Nat} (hn : 0 < n) (h : selectServer xx id n name = some i) :
    (fetchIndex xx id n n).selectServer xx name = i := by
  rcases Nat.lt_or_ge 8192 n with hbig | hmax
  · rw [selectServer, fetchDir_eq_none xx id hbig] at h
    cases h
  · rw [selectServer, (fetchDir_spec xx id hn hmax).1, Option.bind_some, Option.map_eq_some_iff] at h
    obtain ⟨j, hj, rfl⟩ := h
    simp only [hashToIndex, computeIndexFromHash, Option.bind_eq_some_iff, Option.map_eq_some_iff] at hj
    obtain ⟨-, -, -, -, i, ⟨-, -, -, -, rfl⟩, -, -, hclimb⟩ := hj
    rw [DirIndex.selectServer, DirIndex.getIndex, DirIndex.hashToIndex,
      climb_eq hclimb]
    rfl

/-- The selection succeeds for indices of partitions that exist. -/
theorem selectServer_of_lt (hn : 0 < n) (hmax : n ≤ 8192)
    (hlt : DeltaFs.computeIndexFromHash (gigaHash xx name) (DeltaFs.toRadix (n - 1)) < n) :
    (selectServer xx id n name).isSome = true := by
  obtain ⟨hfetch, hfilled⟩ := fetchDir_spec xx id hn hmax
  have hbits : ∀ i < n, bit (fetchIndex xx id n n).rep i = some true := by
    intro i hi
    have hpart : i < kMaxPartitions := (hi.trans_le hmax).trans (by decide)
    rw [bit, check_of hpart, Option.map_some, bit_of_lt hfilled hi]
  have hrad : DeltaFs.toRadix (n - 1) ≤ kMaxRadix := toRadix_le (by rw [kMaxRadix]; omega)
  have hpart := (hlt.trans_le hmax).trans (by decide : 8192 < kMaxPartitions)
  have hclimb : ∀ i < n, climb (fetchIndex xx id n n).rep i i = some i := by
    intro i hi
    cases i with
    | zero => rfl
    | succ i => rw [climb, hbits _ hi, Option.bind_some, if_pos rfl]
  rw [selectServer, hfetch, Option.bind_some, hashToIndex, hbits 0 hn, Option.bind_some, check_of rfl,
    Option.bind_some, hfilled.radix, computeIndexFromHash, check_of hrad, Option.bind_some]
  dsimp only
  rw [check_of hpart, Option.map_some, Option.bind_some, check_of hlt, Option.bind_some,
    hclimb _ hlt, Option.map_some]
  rfl

/-- It fails for others. -/
theorem selectServer_of_le (hn : 0 < n) (hmax : n ≤ 8192)
    (hle : n ≤ DeltaFs.computeIndexFromHash (gigaHash xx name) (DeltaFs.toRadix (n - 1))) :
    selectServer xx id n name = none := by
  obtain ⟨hfetch, hfilled⟩ := fetchDir_spec xx id hn hmax
  rw [selectServer, hfetch, Option.bind_some, Option.map_eq_none_iff, Option.eq_none_iff_forall_ne_some]
  intro i hi
  simp only [hashToIndex, computeIndexFromHash, check, Option.bind_eq_some_iff,
    Option.map_eq_some_iff, Option.ite_none_right_eq_some] at hi
  obtain ⟨-, -, -, -, j, ⟨-, -, -, -, rfl⟩, -, ⟨hlt, -⟩, -⟩ := hi
  rw [hfilled.radix] at hlt
  omega

/-- **No assertion ever fails exactly for powers of two up to 8192.**

`SetAll` of `n` partitions raises the radix to the bits of `n - 1`, so a hash has an index
below `n` for sure only if `n` is a power of two; otherwise some hash has the index with
all of these bits set, which is not below `n`. The bound comes from `ScaleToSize`, which
makes room for a byte a partition where a bit would do, and asserts that 8192 are enough. -/
theorem assertions_hold_iff (hn : 1 ≤ n) (hmax : n ≤ 65536) :
    (∀ xx id name, (selectServer xx id n name).isSome = true) ↔ n ≤ 8192 ∧ ∃ k, n = 2 ^ k := by
  constructor
  · intro h
    have hroom : n ≤ 8192 := by
      by_contra hbig
      have hsome := h ones ⟨0, 0⟩ []
      rw [selectServer, fetchDir_eq_none ones ⟨0, 0⟩ (Nat.lt_of_not_le hbig)] at hsome
      cases hsome
    refine ⟨hroom, DeltaFs.toRadix (n - 1), ?_⟩
    -- the last index of that many bits must be below
    have hrad : DeltaFs.toRadix (n - 1) ≤ 16 := toRadix_le (by omega)
    have hlast := computeIndexFromHash_ones hrad
    have hlow := lt_two_pow_toRadix (n - 1)
    by_contra hne
    have hsome := h ones ⟨0, 0⟩ []
    rw [selectServer_of_le hn hroom (by rw [gigaHash_ones, hlast]; omega)] at hsome
    cases hsome
  · rintro ⟨hroom, k, rfl⟩ xx id name
    have hpos := Nat.two_pow_pos k
    have hrad : DeltaFs.toRadix (2 ^ k - 1) ≤ k := toRadix_le (by omega)
    have hk : k ≤ 13 := (Nat.pow_le_pow_iff_right (by decide : 1 < 2)).1 hroom
    have hlt := computeIndexFromHash_lt (gigaHash xx name)
      (by omega : DeltaFs.toRadix (2 ^ k - 1) ≤ 16)
    exact selectServer_of_lt hpos hroom (hlt.trans_le (Nat.pow_le_pow_right (by decide) hrad))

/-- Four servers. -/
theorem assertions_hold_iff_four :
    (∀ xx id name, (selectServer xx id 4 name).isSome = true) ↔ 4 ≤ 8192 ∧ ∃ k, 4 = 2 ^ k :=
  assertions_hold_iff (by decide) (by decide)

/-- With three servers the fourth index is not below their number. -/
theorem three_fails : ¬ ∀ n, 1 ≤ n → n ≤ 65536 →
    ∀ xx id name, (selectServer xx id n name).isSome = true := by
  intro h
  have hsome := h 3 (by decide) (by decide) ones ⟨0, 0⟩ (str "a")
  exact absurd hsome (by decide)

end

end Checked

end DeltaFs
