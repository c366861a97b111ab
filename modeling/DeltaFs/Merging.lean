import DeltaFs.Splitting
import DeltaFs.Transition

/-!
# Merging the indices of a directory

`gigaplus.cc`: all who serve or use a directory have an index of it of their own. One
learns of the partitions of another by merging what the other has encoded, which may
be old, come more than once, or never.

`Copies.system` has these indices and what has been encoded of them; any of them may
be split at any time. In every run no assertion fails and no encoding is refused
(`copies_never_fail`), a split moves the names that are to be migrated
(`split_migrates`), and indices that merge each other agree (`merge_agrees`).
-/

namespace DeltaFs

open Ancestry

/-! ## Encodings and merges in the code

The functions as they are, with their assertions: `none` is one that fails. A merge takes its
right-hand side through a `View`, which is either another index or the bytes it was encoded to. -/

/-- `EncodeFixed16`. -/
def encodeFixed16 (v : UInt16) : Slice := fixedBytes 2 v.toNat

/-- `DecodeFixed16`. -/
def decodeFixed16 (b : Slice) : UInt16 := UInt16.ofNat (fixedValue b)

namespace Checked

/-- `kHeadSize`. -/
def kHeadSize : Nat := 4

/-- `ToSlice`: the header and the bytes of the bitmap. -/
def toSlice (d : Rep) : Option Slice :=
  (check (d.bitmapSize ≤ d.bitmapCapacity)).map fun _ =>
    encodeFixed16 d.zerothServer ++ encodeFixed16 (UInt16.ofNat d.radix) ++
      (List.range d.bitmapSize).map fun i => UInt8.ofNat (byteAt d i)

/-- `byte()`. -/
def byte (d : Rep) (index : Nat) : Nat := if index < d.bitmapSize then byteAt d index else 0

/-- `DirIndex::View`. -/
structure View where
  zerothServer : UInt16
  radix : Nat
  bitmap : Slice

namespace View

/-- The view of an input that has a header. -/
def ofInput (input : Slice) : View :=
  ⟨decodeFixed16 (input.take 2), (decodeFixed16 ((input.drop 2).take 2)).toNat, input.drop kHeadSize⟩

/-- `bit()`. -/
def bit (v : View) (index : Nat) : Bool :=
  if index = 0 ∧ v.bitmap = [] then true
  else if index < v.bitmap.length * 8 then
    (v.bitmap.getD (index / 8) 0).toNat.testBit (index % 8)
  else false

/-- `byte()`. -/
def byte (v : View) (index : Nat) : Nat :=
  if index = 0 ∧ v.bitmap = [] then 1
  else if index < v.bitmap.length then (v.bitmap.getD index 0).toNat
  else 0

/-- The first loop of `HighestBit`. -/
def highestByte (v : View) : Nat → Nat
  | 0 => 0
  | i + 1 => if v.bitmap.getD (i + 1) 0 = 0 then highestByte v i else i + 1

/-- `HighestBit`. Bit 0 is known to be set. -/
def highestBit (v : View) : Nat :=
  if v.bitmap = [] then 0
  else
    let i := v.highestByte (v.bitmap.length - 1)
    highestOff (v.bitmap.getD i 0).toNat 7 + i * 8

end View

/-- `ParseDirIndex`: the view, if the input is accepted. -/
def parseDirIndex (input : Slice) (paranoidChecks : Bool) : Option (Option View) :=
  if input.length < kHeadSize then some none
  else
    let view := View.ofInput input
    -- the shift of an `int` by more is undefined
    (check (view.radix < 31)).bind fun _ =>
      if view.bitmap.length < (1 <<< view.radix + 7) / 8 then some none
      else if view.bit 0 = false then some none
      else if paranoidChecks then
        (toRadix view.highestBit).map fun r => if view.radix ≠ r then none else some view
      else some (some view)

/-- The loop of `DoMerge`, over the first `n` bytes. -/
def orBytes (bitmap : Nat) (byte : Nat → Nat) : Nat → Nat
  | 0 => bitmap
  | n + 1 => orBytes bitmap byte n ||| byte n <<< (8 * n)

/-- `DoMerge`, with a view or an index that has these fields. The last assertion is
that of `byte()`. -/
def doMerge (d : Rep) (zerothServer : UInt16) (bitmapSize radix : Nat) (byte : Nat → Nat) :
    Option Rep :=
  (check (d.zerothServer = zerothServer)).bind fun _ =>
    let newCapacity := max d.bitmapSize bitmapSize
    (scaleToSize d newCapacity).bind fun d =>
      let d := { d with radix := max d.radix radix }
      (check (newCapacity ≥ d.bitmapSize)).bind fun _ =>
        (check (newCapacity ≤ kMaxPartitions / 8)).map fun _ =>
          { d with bitmap := orBytes d.bitmap byte newCapacity }

/-- `Merge`, with a view. -/
def mergeView (d : Rep) (v : View) : Option Rep :=
  (doMerge d v.zerothServer v.bitmap.length v.radix v.byte).bind checkRadix

/-- `Merge`, with another index. -/
def merge (d other : Rep) : Option Rep :=
  (doMerge d other.zerothServer other.bitmapSize other.radix (byte other)).bind checkRadix

/-- `TEST_Reset`: returns whether the input has been accepted. -/
def testReset (paranoidChecks : Bool) (d : Option Rep) (other : Slice) : Option (Option Rep × Bool) :=
  (parseDirIndex other paranoidChecks).bind fun
    | none => some (d, false)
    | some view => (newRep view.zerothServer).bind fun r => (mergeView r view).map fun r => (some r, true)

/-- `Update`, with what has been encoded. -/
def update (paranoidChecks : Bool) (d : Option Rep) (other : Slice) : Option (Option Rep × Bool) :=
  match d with
  | none => testReset paranoidChecks none other
  | some r => (parseDirIndex other paranoidChecks).bind fun
    | none => some (some r, false)
    | some view =>
      if r.zerothServer ≠ view.zerothServer then some (some r, false)
      else (mergeView r view).map fun r => (some r, true)

/-- `Update`, with another index. -/
def updateFrom (d : Option Rep) (other : Rep) : Option Rep :=
  match d with
  | none => (newRep other.zerothServer).bind fun r => merge r other
  | some r => merge r other

/-! ## Merges

`DoMerge` joins two bitmaps byte by byte, once the smaller has been given as many bytes as the
larger. The union of two sets that are closed under parents is closed again, and its highest
partition is the higher of the two, so the assertion about the radix holds. -/

section

variable {d e : Rep} {i j n : Nat}

theorem testBit_orBytes (b : Nat) {f : Nat → Nat} (hf : ∀ i, f i < 2 ^ 8) (n j : Nat) :
    (orBytes b f n).testBit j = (b.testBit j || decide (j / 8 < n) && (f (j / 8)).testBit (j % 8)) := by
  induction n with
  | zero => simp [orBytes]
  | succ n ih =>
    rw [orBytes, Nat.testBit_or, ih, Nat.testBit_shiftLeft, Bool.or_assoc]
    congr 1
    rcases Nat.lt_trichotomy (j / 8) n with hlt | rfl | hgt
    · have hlow : ¬8 * n ≤ j := by omega
      simp [hlt, hlow, Nat.lt_succ_of_lt hlt]
    · have hge : 8 * (j / 8) ≤ j := Nat.mul_div_le j 8
      have hmod : j - 8 * (j / 8) = j % 8 := by omega
      simp [hge, hmod]
    · have hout : (f n).testBit (j - 8 * n) = false := by
        apply Nat.testBit_lt_two_pow
        exact (hf n).trans_le (Nat.pow_le_pow_right (by decide) (by omega))
      have hno : ¬j / 8 < n ∧ ¬j / 8 < n + 1 := by omega
      simp [hout, hno]

theorem byte_lt (d : Rep) (i : Nat) : byte d i < 2 ^ 8 := by
  rw [byte]
  split
  · exact Nat.mod_lt _ (by decide)
  · decide

theorem Sound.lt_bitmapSize (h : Sound d) (hi : Has d i) : i < d.bitmapSize * 8 :=
  Rep.lt_bitmapSize (h.lt_two_pow hi)

/-- The bytes hold all the bits. -/
theorem Sound.testBit_byte (h : Sound d) (i : Nat) :
    (decide (i / 8 < d.bitmapSize) && (byte d (i / 8)).testBit (i % 8)) = d.bitmap.testBit i := by
  have hmod : i % 8 < 8 := Nat.mod_lt _ (by decide)
  by_cases hin : i / 8 < d.bitmapSize
  · rw [byte, if_pos hin, testBit_byteAt, Nat.div_add_mod, decide_eq_true hin, decide_eq_true hmod,
      Bool.true_and, Bool.true_and]
  · rw [decide_eq_false hin, Bool.false_and]
    refine (Bool.eq_false_iff.mpr fun hi => hin ?_).symm
    have := h.lt_bitmapSize hi
    omega

/-- There are bytes enough for any radix. -/
theorem Sound.bitmapSize_le (h : Sound d) : d.bitmapSize ≤ 8192 := by
  have hpow : 2 ^ d.radix ≤ 2 ^ 16 := Nat.pow_le_pow_right (by decide) h.radix_le
  rw [Rep.bitmapSize, Nat.shiftLeft_eq, Nat.one_mul]
  omega

/-- Room for as many bytes as there may be is made by doubling. -/
theorem Sound.scaleToSize (h : Sound d) (hn : n ≤ 8192) :
    ∃ c, scaleToSize d n = some { d with bitmapCapacity := c } ∧ n ≤ c ∧ d.bitmapCapacity ≤ c ∧
      ∃ k ≤ 9, c = 16 * 2 ^ k := by
  obtain ⟨k, hk, hcap⟩ := h.capacity
  have hpos : 0 < d.bitmapCapacity := by
    have := Nat.two_pow_pos k
    omega
  obtain ⟨l, hl, hle, hlast⟩ := scaleFactor_spec n 0 (b := d.bitmapCapacity) (c := n)
    (by rw [Nat.zero_add]; exact (Nat.lt_two_pow_self).le.trans (Nat.le_mul_of_pos_left _ hpos))
  rw [Nat.pow_zero, Nat.mul_one] at hl
  have hsum : d.bitmapCapacity * 2 ^ l = 16 * 2 ^ (k + l) := by rw [hcap, Nat.pow_add, Nat.mul_assoc]
  have hmax : k + l ≤ 9 := by
    rcases hlast with rfl | ⟨m, rfl, hm⟩
    · exact hk
    · rw [hcap, Nat.mul_assoc, ← Nat.pow_add] at hm
      have hlt : 2 ^ (k + m) < 2 ^ 9 := by omega
      have := (Nat.pow_lt_pow_iff_right (by decide : 1 < 2)).mp hlt
      omega
  have hfits : 16 * 2 ^ (k + l) ≤ 16 * 2 ^ 9 :=
    Nat.mul_le_mul_left 16 (Nat.pow_le_pow_right (by decide) hmax)
  refine ⟨d.bitmapCapacity * 2 ^ l, ?_, hle, Nat.le_mul_of_pos_right _ (Nat.two_pow_pos l), k + l, hmax,
    hsum⟩
  rw [Checked.scaleToSize, hl, scaleUp]
  split
  · rename_i hone
    have heq : d.scaleUp (2 ^ l) = { d with bitmapCapacity := d.bitmapCapacity * 2 ^ l } := if_pos hone
    rw [reset, heq, check_of (hsum ▸ hfits), Option.map_some]
  · have hone : 2 ^ l = 1 := by
      have := Nat.two_pow_pos l
      omega
    rw [hone, Nat.mul_one]

/-- **A merge adds the partitions of the other index**, and fails no assertion. The bitmaps
are joined bit by bit, once both have room for the larger one, and the radix is the larger
of the two. -/
theorem Sound.merge (hd : Sound d) (he : Sound e) (hz : d.zerothServer = e.zerothServer) :
    ∃ d', merge d e = some d' ∧ Sound d' ∧ d'.zerothServer = d.zerothServer ∧
      ∀ i, Has d' i ↔ Has d i ∨ Has e i := by
  have hdsize := hd.bitmapSize_le
  have hesize := he.bitmapSize_le
  obtain ⟨n, hn⟩ : ∃ n, n = max d.bitmapSize e.bitmapSize := ⟨_, rfl⟩
  have hmax : n ≤ 8192 := by omega
  obtain ⟨c, hscale, hroom, -, hpow⟩ := hd.scaleToSize hmax
  -- the result, named before `DoMerge` is unfolded: its bits first, then that it is
  -- sound, then that the code computes it
  obtain ⟨d', hd'⟩ : ∃ d' : Rep, d' = ⟨d.zerothServer, max d.radix e.radix,
    orBytes d.bitmap (byte e) n, c⟩ := ⟨_, rfl⟩
  have hradix : d'.radix = max d.radix e.radix := by rw [hd']
  have hsize : d'.bitmapSize ≤ n := by
    rw [hn, Rep.bitmapSize, Rep.bitmapSize, Rep.bitmapSize, hradix]
    rcases Nat.le_total d.radix e.radix with hle | hle
    · rw [Nat.max_eq_right hle]
      exact Nat.le_max_right ..
    · rw [Nat.max_eq_left hle]
      exact Nat.le_max_left ..
  have hhas : ∀ i, Has d' i ↔ Has d i ∨ Has e i := by
    intro i
    have hbit := he.testBit_byte i
    rw [Has, Has, Has, hd', testBit_orBytes _ (byte_lt e), Bool.or_eq_true, ← hbit]
    refine or_congr Iff.rfl ?_
    rw [Bool.and_eq_true, Bool.and_eq_true, decide_eq_true_eq, decide_eq_true_eq]
    constructor
    · rintro ⟨-, hb⟩
      refine ⟨?_, hb⟩
      -- past its own end `e` reads as zeroes
      by_contra hout
      rw [byte, if_neg hout, Nat.zero_testBit] at hb
      cases hb
    · rintro ⟨hin, hb⟩
      exact ⟨by omega, hb⟩
  have hsound : Sound d' := by
    constructor
    · exact (hhas 0).mpr (.inl hd.zero)
    · intro i hi
      exact (hhas _).mpr (hd.closed.union he.closed i ((hhas i).mp hi))
    · intro i hi
      exact ((hhas i).mp hi).elim (hd.lt i) (he.lt i)
    · intro i hi
      rw [hradix]
      rcases (hhas i).mp hi with hi | hi
      · exact (hd.size_le i hi).trans (Nat.le_max_left ..)
      · exact (he.size_le i hi).trans (Nat.le_max_right ..)
    · rw [hradix]
      rcases Nat.le_total d.radix e.radix with hle | hle
      · obtain ⟨i, hi, heq⟩ := he.highest
        exact ⟨i, (hhas i).mpr (.inr hi), heq.trans (Nat.max_eq_right hle).symm⟩
      · obtain ⟨i, hi, heq⟩ := hd.highest
        exact ⟨i, (hhas i).mpr (.inl hi), heq.trans (Nat.max_eq_left hle).symm⟩
    · rw [hd']
      exact hpow
    · rw [hd'] at hsize ⊢
      exact hsize.trans hroom
  refine ⟨d', ?_, hsound, by rw [hd'], hhas⟩
  have hfits : n ≤ kMaxPartitions / 8 := hmax
  -- the two assertions left are about the size of the merged bitmap
  have hdo : doMerge d e.zerothServer e.bitmapSize e.radix (byte e) = some d' := by
    rw [doMerge, check_of hz, Option.bind_some]
    dsimp only
    rw [← hn, hscale, Option.bind_some]
    dsimp only
    have hsize' : n ≥ Rep.bitmapSize ⟨d.zerothServer, max d.radix e.radix, d.bitmap, c⟩ := by
      rw [hd'] at hsize
      exact hsize
    rw [check_of hsize', Option.bind_some, check_of hfits, Option.map_some, hd']
  rw [Checked.merge, hdo, Option.bind_some, hsound.checkRadix]

/-! ## Encodings

An index is sent as its header and the bytes of its bitmap. Reading it back checks that there
are bytes enough for the radix and, with paranoid checks, that the radix is that of the highest
bit; what has been encoded from a sound index passes both. The view has no bitmap of its own, so
each of its functions is compared with the one of the index. -/

theorem decodeFixed16_encodeFixed16 (v : UInt16) : decodeFixed16 (encodeFixed16 v) = v := by
  have hv : v.toNat < 256 ^ 2 := v.toNat_lt
  rw [decodeFixed16, encodeFixed16, fixedValue_fixedBytes, Nat.mod_eq_of_lt hv, UInt16.ofNat_toNat]

/-- What `ParseDirIndex` makes of an encoded index. -/
def viewOf (d : Rep) : View :=
  ⟨d.zerothServer, d.radix, (List.range d.bitmapSize).map fun i => UInt8.ofNat (byteAt d i)⟩

theorem toNat_byteAt (d : Rep) (i : Nat) : (UInt8.ofNat (byteAt d i)).toNat = byteAt d i :=
  UInt8.toNat_ofNat_of_lt' (Nat.mod_lt _ (by decide))

theorem viewOf_getD (hi : i < d.bitmapSize) :
    (viewOf d).bitmap.getD i 0 = UInt8.ofNat (byteAt d i) := by
  have hlen : i < (viewOf d).bitmap.length := by
    rw [viewOf, List.length_map, List.length_range]
    exact hi
  rw [List.getD_eq_getElem _ _ hlen]
  simp only [viewOf, List.getElem_map, List.getElem_range]

theorem viewOf_length (d : Rep) : (viewOf d).bitmap.length = d.bitmapSize := by
  rw [viewOf, List.length_map, List.length_range]

theorem Sound.bitmapSize_pos (h : Sound d) : 0 < d.bitmapSize := by
  have := h.lt_bitmapSize h.zero
  omega

theorem Sound.viewOf_ne_nil (h : Sound d) : (viewOf d).bitmap ≠ [] := by
  intro hnil
  have hlen := viewOf_length d
  rw [hnil] at hlen
  exact absurd h.bitmapSize_pos (Nat.not_lt_of_le hlen.symm.le)

/-- The bytes of the view are those of the index. -/
theorem Sound.viewOf_byte (h : Sound d) : (viewOf d).byte = byte d := by
  funext i
  rw [View.byte, if_neg fun hnil => h.viewOf_ne_nil hnil.2, viewOf_length, byte]
  split
  · rename_i hin
    rw [viewOf_getD hin, toNat_byteAt]
  · rfl

theorem viewOf_highestByte (hi : i < d.bitmapSize) :
    (viewOf d).highestByte i = highestByte d i := by
  induction i with
  | zero => rfl
  | succ i ih =>
    have hzero : UInt8.ofNat (byteAt d (i + 1)) = 0 ↔ byteAt d (i + 1) = 0 := by
      rw [← UInt8.toNat_inj, toNat_byteAt]
      rfl
    rw [View.highestByte, highestByte, viewOf_getD hi]
    split
    · rename_i hb
      rw [if_pos (hzero.mp hb)]
      exact ih (by omega)
    · rename_i hb
      rw [if_neg fun h0 => hb (hzero.mpr h0)]

/-- So is its highest bit. -/
theorem Sound.viewOf_highestBit (h : Sound d) : highestBit d = some (viewOf d).highestBit := by
  have hpos := h.bitmapSize_pos
  have hroom := h.room
  have hzero : d.bitmap.testBit 0 = true := h.zero
  have hbyte : byteAt d 0 ≠ 0 := by
    intro h0
    have hbit := testBit_byteAt d 0 0
    rw [h0, Nat.zero_testBit, Nat.mul_zero, Nat.zero_add, hzero] at hbit
    cases hbit
  have hle := (highestByte_spec hbyte (d.bitmapSize - 1)).2.1
  rw [highestBit, check_of (by omega), Option.bind_some, h.bit_checked (by decide), hzero,
    Option.bind_some, check_of rfl, Option.map_some, View.highestBit, if_neg h.viewOf_ne_nil,
    viewOf_length, viewOf_highestByte (by omega)]
  dsimp only
  rw [viewOf_getD (by omega), toNat_byteAt]

/-- **What has been encoded is accepted**, even with paranoid checks. The header has the
radix, from which the reader computes how many bytes there must be; and the highest bit
of the bytes gives the radix again. -/
theorem Sound.parseDirIndex_toSlice (h : Sound d) (checks : Bool) :
    ∃ image, toSlice d = some image ∧ parseDirIndex image checks = some (some (viewOf d)) := by
  obtain ⟨a, ha⟩ : ∃ a, a = encodeFixed16 d.zerothServer := ⟨_, rfl⟩
  obtain ⟨b, hb⟩ : ∃ b, b = encodeFixed16 (UInt16.ofNat d.radix) := ⟨_, rfl⟩
  have halen : a.length = 2 := by rw [ha, encodeFixed16, length_fixedBytes]
  have hblen : b.length = 2 := by rw [hb, encodeFixed16, length_fixedBytes]
  have hradix : d.radix ≤ 16 := h.radix_le
  have hview : View.ofInput (a ++ b ++ (viewOf d).bitmap) = viewOf d := by
    have hone : (a ++ b ++ (viewOf d).bitmap).take 2 = a := by
      rw [List.append_assoc, ← halen, List.take_left]
    have htwo : ((a ++ b ++ (viewOf d).bitmap).drop 2).take 2 = b := by
      rw [List.append_assoc, ← halen, List.drop_left, halen, ← hblen, List.take_left]
    have hrest : (a ++ b ++ (viewOf d).bitmap).drop kHeadSize = (viewOf d).bitmap := by
      have hlen : kHeadSize = (a ++ b).length := by rw [List.length_append, halen, hblen]; rfl
      rw [hlen, List.drop_left]
    have hword : d.radix < 2 ^ 16 := by omega
    rw [View.ofInput, hone, htwo, hrest, ha, hb, decodeFixed16_encodeFixed16,
      decodeFixed16_encodeFixed16, UInt16.toNat_ofNat_of_lt' hword]
    rfl
  refine ⟨a ++ b ++ (viewOf d).bitmap, ?_, ?_⟩
  · rw [toSlice, check_of h.room, Option.map_some, ha, hb]
    rfl
  · have hhead : ¬(a ++ b ++ (viewOf d).bitmap).length < kHeadSize := by
      rw [List.length_append, List.length_append, halen, hblen]
      exact Nat.not_lt_of_le (Nat.le_add_right ..)
    have hsmall : (viewOf d).radix < 31 := by
      have hval : (viewOf d).radix = d.radix := rfl
      omega
    have hlong : ¬(viewOf d).bitmap.length < (1 <<< (viewOf d).radix + 7) / 8 := by
      rw [viewOf_length]
      exact Nat.lt_irrefl _
    have hbit : ¬(viewOf d).bit 0 = false := by
      have hin : 0 < (viewOf d).bitmap.length * 8 := by
        rw [viewOf_length]
        have := h.bitmapSize_pos
        omega
      rw [View.bit, if_neg fun hnil => h.viewOf_ne_nil hnil.2, if_pos hin,
        viewOf_getD h.bitmapSize_pos, toNat_byteAt, testBit_byteAt]
      exact ne_of_eq_of_ne h.zero (by decide)
    have hhighest : toRadix (viewOf d).highestBit = some (viewOf d).radix := by
      have hcheck := h.checkRadix
      rw [Checked.checkRadix, h.viewOf_highestBit, Option.bind_some, Option.bind_eq_some_iff] at hcheck
      obtain ⟨r, hr, hcheck⟩ := hcheck
      rw [hr]
      by_cases heq : d.radix = r
      · exact congrArg some heq.symm
      · rw [check_eq_none heq] at hcheck
        cases hcheck
    rw [parseDirIndex, if_neg hhead]
    dsimp only
    rw [hview, check_of hsmall, Option.bind_some, if_neg hlong, if_neg hbit, hhighest,
      Option.map_some, if_neg (not_not_intro rfl)]
    exact ite_self _

/-- Merging what has been encoded is merging the index. -/
theorem Sound.mergeView_viewOf (he : Sound e) : mergeView d (viewOf e) = Checked.merge d e := by
  rw [mergeView, Checked.merge, he.viewOf_byte, viewOf_length]
  rfl

/-- **`Update` with what has been encoded** adds the partitions of that index. Updating an
index that is not there yet makes a copy of the other. -/
theorem Sound.update (he : Sound e) (checks : Bool) {image : Slice} (himage : toSlice e = some image) :
    (∀ {d}, Sound d → d.zerothServer = e.zerothServer →
      ∃ d', Checked.update checks (some d) image = some (some d', true) ∧ Sound d' ∧
        d'.zerothServer = d.zerothServer ∧ ∀ i, Has d' i ↔ Has d i ∨ Has e i) ∧
    ∃ d', Checked.update checks none image = some (some d', true) ∧ Sound d' ∧
      d'.zerothServer = e.zerothServer ∧ ∀ i, Has d' i ↔ Has e i := by
  obtain ⟨image', himage', hparse⟩ := he.parseDirIndex_toSlice checks
  obtain rfl : image' = image := Option.some.inj (himage'.symm.trans himage)
  have hzero : (viewOf e).zerothServer = e.zerothServer := rfl
  constructor
  · intro d hd hz
    obtain ⟨d', hmerge, hsound, hz', hhas⟩ := hd.merge he hz
    refine ⟨d', ?_, hsound, hz', hhas⟩
    have hsame : ¬d.zerothServer ≠ (viewOf e).zerothServer := not_not_intro hz
    rw [Checked.update, hparse, Option.bind_some]
    dsimp only
    rw [if_neg hsame, he.mergeView_viewOf, hmerge, Option.map_some]
  · obtain ⟨hnew, hsound₀, hhas₀⟩ := newRep_sound e.zerothServer
    have hz₀ : (Rep.new e.zerothServer).zerothServer = e.zerothServer := Rep.turnOnBit_zerothServer _ _
    obtain ⟨d', hmerge, hsound, hz', hhas⟩ := hsound₀.merge he hz₀
    refine ⟨d', ?_, hsound, hz'.trans hz₀, fun i => ?_⟩
    · rw [Checked.update, testReset, hparse, Option.bind_some]
      dsimp only
      rw [hzero, hnew, Option.bind_some, he.mergeView_viewOf, hmerge, Option.map_some]
    · rw [hhas, hhas₀]
      exact or_iff_right_of_imp fun h0 => h0 ▸ he.zero

/-- `Update` with another index does the same. -/
theorem Sound.updateFrom (he : Sound e) :
    (∀ {d}, Sound d → d.zerothServer = e.zerothServer →
      ∃ d', Checked.updateFrom (some d) e = some d' ∧ Sound d' ∧
        d'.zerothServer = d.zerothServer ∧ ∀ i, Has d' i ↔ Has d i ∨ Has e i) ∧
    ∃ d', Checked.updateFrom none e = some d' ∧ Sound d' ∧
      d'.zerothServer = e.zerothServer ∧ ∀ i, Has d' i ↔ Has e i := by
  refine ⟨fun hd hz => hd.merge he hz, ?_⟩
  obtain ⟨hnew, hsound₀, hhas₀⟩ := newRep_sound e.zerothServer
  have hz₀ : (Rep.new e.zerothServer).zerothServer = e.zerothServer := Rep.turnOnBit_zerothServer _ _
  obtain ⟨d', hmerge, hsound, hz', hhas⟩ := hsound₀.merge he hz₀
  refine ⟨d', ?_, hsound, hz'.trans hz₀, fun i => ?_⟩
  · rw [Checked.updateFrom, hnew, Option.bind_some, hmerge]
  · rw [hhas, hhas₀]
    exact or_iff_right_of_imp fun h0 => h0 ▸ he.zero

/-- Indices with the same partitions are encoded the same. -/
theorem Sound.toSlice_congr (hd : Sound d) (he : Sound e) (hz : d.zerothServer = e.zerothServer)
    (hhas : ∀ i, Has d i ↔ Has e i) : toSlice d = toSlice e := by
  have hbits : d.bitmap = e.bitmap :=
    Nat.eq_of_testBit_eq fun i => Bool.eq_iff_iff.mpr (hhas i)
  have hradix : d.radix = e.radix := by
    obtain ⟨i, hi, hsize⟩ := hd.highest
    obtain ⟨j, hj, hsize'⟩ := he.highest
    exact Nat.le_antisymm (hsize ▸ he.size_le i ((hhas i).mp hi))
      (hsize' ▸ hd.size_le j ((hhas j).mpr hj))
  have hsize : d.bitmapSize = e.bitmapSize := by rw [Rep.bitmapSize, Rep.bitmapSize, hradix]
  have hbytes : byteAt d = byteAt e := by
    funext i
    rw [byteAt, byteAt, hbits]
  rw [toSlice, toSlice, check_of hd.room, check_of he.room, Option.map_some, Option.map_some, hz,
    hradix, hsize, hbytes]

end

end Checked

/-! ## The copies of an index

Any number of owners of one directory, each with a copy of the index that it splits, sends and
updates. What all copies have in common is the directory: their partitions are among those that
have been split off by anybody. Two sets of such partitions have a union of the same kind, so no
merge can fail, in whatever order encodings arrive, and however old they are. -/

/-- The indices there are of a directory, each with its owner, and what has been
encoded of them so far. -/
structure Copies where
  copies : Nat → Option Rep
  images : List Slice

namespace Copies

open Checked

/-- What an owner may do next. -/
inductive Op where
  /-- a new index -/
  | create (p : Nat)
  /-- the partition is split, if it can be -/
  | split (p i : Nat)
  /-- `Encode` -/
  | encode (p : Nat)
  /-- `Update`, with something that has been encoded -/
  | update (p k : Nat)
  /-- `Update`, with the index of another owner -/
  | updateFrom (p q : Nat)
  /-- `HashToIndex` -/
  | hash (p : Nat) (hash : Slice)

inductive Event where
  /-- an assertion fails -/
  | failed
  /-- `Update` refuses its input -/
  | refused
  /-- a partition is split -/
  | split (i child : Nat)
  /-- the partition of a hash is found -/
  | found (p : Nat) (hash : Slice) (i : Nat)
  deriving DecidableEq

/-- `Set(NewIndexForSplitting(i))`, if `IsSplittable(i)`; with the index that is new. -/
def splitIndex (n : Nat) (d : Rep) (i : Nat) : Option (Rep × Option Nat) :=
  (isSplittable d n i).bind fun ok =>
    if ok then (newIndexForSplitting d n i).bind fun c =>
      (Checked.set d n c).map fun d => (d, some c)
    else some (d, none)

/-- After an assertion has failed nothing has changed. -/
def attempt {α : Type} (s : Copies) (r : Option α) (f : α → Copies × List Event) :
    Copies × List Event :=
  match r with
  | none => (s, [.failed])
  | some a => f a

/-- The owner has a new version of its index. -/
def put (s : Copies) (p : Nat) (d : Option Rep) : Copies :=
  { s with copies := Function.update s.copies p d }

/-- One step, for `n` virtual servers. An owner that has no index yet can create one
or update it. -/
def step (zserver : UInt16) (n : Nat) (checks : Bool) (s : Copies) : Op → Option (Copies × List Event)
  | .create p => some (s.attempt (newRep zserver) fun d => (s.put p (some d), []))
  | .split p i => (s.copies p).map fun d => s.attempt (splitIndex n d i) fun (d, c) =>
      (s.put p (some d), c.toList.map (.split i))
  | .encode p => (s.copies p).map fun d => s.attempt (toSlice d) fun image =>
      ({ s with images := s.images ++ [image] }, [])
  | .update p k => s.images[k]?.map fun image =>
      s.attempt (Checked.update checks (s.copies p) image) fun (d, ok) =>
        (s.put p d, if ok then [] else [.refused])
  | .updateFrom p q => (s.copies q).map fun e =>
      s.attempt (Checked.updateFrom (s.copies p) e) fun d => (s.put p (some d), [])
  | .hash p hash => (s.copies p).map fun d => s.attempt (hashToIndex d n hash) fun i =>
      (s, [.found p hash i])

/-- All owners start without an index. -/
def system (zserver : UInt16) (n : Nat) (checks : Bool) : TransitionSystem Copies Op Event where
  init s := s = ⟨fun _ => none, []⟩
  step := step zserver n checks

/-! ### What is known of a copy

A copy knows partitions that were made, and it knows the parent of each one it knows. `Known`
grows with the run, so an encoding that was made long ago is still one of the run's. -/

/-- An index of the directory: all its partitions have been split off. -/
structure Known (zserver : UInt16) (n : Nat) (tr : List Event) (d : Rep) : Prop where
  sound : Sound d
  zeroth : d.zerothServer = zserver
  lt : ∀ i, Has d i → i < n
  split : ∀ i, Has d i → i = 0 ∨ .split (parent i) i ∈ tr

/-- What holds in all runs. -/
structure Inv (zserver : UInt16) (n : Nat) (tr : List Event) (s : Copies) : Prop where
  copies : ∀ p d, s.copies p = some d → Known zserver n tr d
  images : ∀ image ∈ s.images, ∃ d, toSlice d = some image ∧ Known zserver n tr d
  failed : .failed ∉ tr
  refused : .refused ∉ tr

variable {zserver : UInt16} {n m : Nat} {checks : Bool} {tr es : List Event} {s s' : Copies}
  {d e : Rep} {i p q : Nat}

theorem put_self (s : Copies) (p : Nat) (d : Option Rep) : (s.put p d).copies p = d :=
  Function.update_self ..

theorem put_of_ne (hq : q ≠ p) {d : Option Rep} : (s.put p d).copies q = s.copies q :=
  Function.update_of_ne hq ..

theorem Known.mono (h : Known zserver n tr d) : Known zserver n (tr ++ es) d where
  sound := h.sound
  zeroth := h.zeroth
  lt := h.lt
  split i hi := (h.split i hi).imp_right (List.mem_append_left es)

/-- Whose partitions are those of two others. -/
theorem Known.union (hd : Known zserver n tr d) (he : Known zserver n tr e) {d' : Rep}
    (hsound : Sound d') (hz : d'.zerothServer = zserver) (hhas : ∀ i, Has d' i → Has d i ∨ Has e i) :
    Known zserver n tr d' where
  sound := hsound
  zeroth := hz
  lt i hi := (hhas i hi).elim (hd.lt i) (he.lt i)
  split i hi := (hhas i hi).elim (hd.split i) (he.split i)

theorem new_known (hn : 0 < n) : newRep zserver = some (Rep.new zserver) ∧
    Known zserver n tr (Rep.new zserver) := by
  obtain ⟨hnew, hsound, hhas⟩ := newRep_sound zserver
  refine ⟨hnew, hsound, Rep.turnOnBit_zerothServer _ _, fun i hi => ?_, fun i hi => ?_⟩
  · rw [(hhas i).mp hi]
    exact hn
  · exact .inl ((hhas i).mp hi)

/-- The index changes of one owner keep the invariant. -/
theorem Inv.put (h : Inv zserver n tr s) (hd : Known zserver n (tr ++ es) d)
    (hes : ∀ e ∈ es, ∃ i c, e = .split i c) : Inv zserver n (tr ++ es) (s.put p (some d)) := by
  constructor
  · intro q e he
    by_cases hq : q = p
    · rw [hq, put_self] at he
      exact Option.some.inj he ▸ hd
    · rw [put_of_ne hq] at he
      exact (h.copies q e he).mono
  · intro image himage
    obtain ⟨e, he, hknown⟩ := h.images image himage
    exact ⟨e, he, hknown.mono⟩
  · rw [List.mem_append, not_or]
    refine ⟨h.failed, fun hmem => ?_⟩
    obtain ⟨i, c, heq⟩ := hes _ hmem
    cases heq
  · rw [List.mem_append, not_or]
    refine ⟨h.refused, fun hmem => ?_⟩
    obtain ⟨i, c, heq⟩ := hes _ hmem
    cases heq

/-- A split fails no assertion. -/
theorem Known.splitIndex (h : Known zserver n tr d) (hi : i < kMaxPartitions) :
    (splitIndex n d i = some (d, none) ∧ isSplittable d n i = some false) ∨
    ∃ r, Next d i r ∧ Has d i ∧ i + 2 ^ r < n ∧ newIndexForSplitting d n i = some (i + 2 ^ r) ∧
      Checked.set d n (i + 2 ^ r) = some (d.turnOnBit (i + 2 ^ r)) ∧
      splitIndex n d i = some (d.turnOnBit (i + 2 ^ r), some (i + 2 ^ r)) ∧
      Known zserver n (tr ++ [.split i (i + 2 ^ r)]) (d.turnOnBit (i + 2 ^ r)) := by
  obtain ⟨ok, hok, -⟩ := h.sound.isSplittable (n := n) hi
  cases ok with
  | false =>
    refine .inl ⟨?_, hok⟩
    rw [Copies.splitIndex, hok, Option.bind_some, if_neg Bool.false_ne_true]
  | true =>
    obtain ⟨r, hnext, hhas, hnew, hset, hsound⟩ := h.sound.newIndexForSplitting hok
    have hlt : i + 2 ^ r < n := by
      rw [Checked.set, Option.bind_eq_some_iff] at hset
      obtain ⟨_, hcheck, -⟩ := hset
      by_contra hge
      rw [check_eq_none hge] at hcheck
      cases hcheck
    have hpar : parent (i + 2 ^ r) = i := parent_child (lt_of_toRadix_le hnext.radix_le)
    refine .inr ⟨r, hnext, hhas, hlt, hnew, hset, ?_, hsound, ?_, fun j hj => ?_, fun j hj => ?_⟩
    · rw [Copies.splitIndex, hok, Option.bind_some, if_pos rfl, hnew, Option.bind_some, hset,
        Option.map_some]
    · rw [Rep.turnOnBit_zerothServer, h.zeroth]
    · rcases (Rep.testBit_turnOnBit d _ j).mp hj with rfl | hj
      · exact hlt
      · exact h.lt j hj
    · rcases (Rep.testBit_turnOnBit d _ j).mp hj with rfl | hj
      · rw [hpar]
        exact .inr (List.mem_append_right tr List.mem_cons_self)
      · exact (h.split j hj).imp_right (List.mem_append_left _)

/-- What an owner asks for. -/
def Fits (n : Nat) : Op → Prop
  | .split _ i => i < n
  | _ => True

instance : DecidablePred (Fits n)
  | .split _ i => inferInstanceAs (Decidable (i < n))
  | .create _ | .encode _ | .update _ _ | .updateFrom _ _ | .hash _ _ => isTrue trivial

theorem Inv.append (h : Inv zserver n tr s) {p : Nat} {hash : Slice} :
    Inv zserver n (tr ++ [.found p hash i]) s where
  copies q e he := (h.copies q e he).mono
  images image himage := (h.images image himage).imp fun _ he => ⟨he.1, he.2.mono⟩
  failed hmem := (List.mem_append.mp hmem).elim h.failed fun hmem =>
    absurd (List.mem_singleton.mp hmem) (by simp)
  refused hmem := (List.mem_append.mp hmem).elim h.refused fun hmem =>
    absurd (List.mem_singleton.mp hmem) (by simp)

/-- **Every step keeps the invariant.** A copy becomes new, or splits, or is joined with
what another was at some time; all of these are known, so the result is. -/
theorem Inv.step (hm : m ≤ 16) {k : Op} (hk : Fits (2 ^ m) k) (h : Inv zserver (2 ^ m) tr s)
    (hs : Copies.step zserver (2 ^ m) checks s k = some (s', es)) :
    Inv zserver (2 ^ m) (tr ++ es) s' := by
  have hmax : 2 ^ m ≤ kMaxPartitions := Nat.pow_le_pow_right (by decide) hm
  have hnil : ∀ e ∈ ([] : List Event), ∃ i c, e = .split i c := fun e he => absurd he List.not_mem_nil
  cases k with
  | create p =>
    have hboth : newRep zserver = some (Rep.new zserver) ∧
        Known zserver (2 ^ m) (tr ++ []) (Rep.new zserver) := new_known (Nat.two_pow_pos m)
    obtain ⟨hnew, hknown⟩ := hboth
    rw [Copies.step, hnew] at hs
    obtain ⟨rfl, rfl⟩ := Prod.mk.inj (Option.some.inj hs)
    exact h.put hknown hnil
  | split p i =>
    rw [Copies.step, Option.map_eq_some_iff] at hs
    obtain ⟨d, hd, hs⟩ := hs
    have hknown := h.copies p d hd
    -- a split that cannot be made leaves the copy alone; otherwise the new parent and
    -- child are an edge of the run
    rcases hknown.splitIndex (hk.trans_le hmax) with ⟨hsplit, -⟩ | ⟨r, -, -, -, -, -, hsplit, hnew⟩
    · rw [hsplit] at hs
      obtain ⟨rfl, rfl⟩ := Prod.mk.inj hs
      exact h.put hknown.mono hnil
    · rw [hsplit] at hs
      obtain ⟨rfl, rfl⟩ := Prod.mk.inj hs
      exact h.put hnew fun e he => ⟨i, i + 2 ^ r, List.mem_singleton.mp he⟩
  | encode p =>
    rw [Copies.step, Option.map_eq_some_iff] at hs
    obtain ⟨d, hd, hs⟩ := hs
    have hknown := h.copies p d hd
    obtain ⟨image, himage, -⟩ := hknown.sound.parseDirIndex_toSlice checks
    -- the image sent is that of a copy known to come from the run
    rw [himage] at hs
    obtain ⟨rfl, rfl⟩ := Prod.mk.inj hs
    rw [List.append_nil]
    refine ⟨h.copies, fun image' himage' => ?_, h.failed, h.refused⟩
    rcases List.mem_append.mp himage' with himage' | himage'
    · exact h.images image' himage'
    · rw [List.mem_singleton.mp himage']
      exact ⟨d, himage, hknown⟩
  | update p k =>
    rw [Copies.step, Option.map_eq_some_iff] at hs
    obtain ⟨image, himage, hs⟩ := hs
    obtain ⟨e, he, hknown⟩ := h.images image (List.mem_of_getElem? himage)
    obtain ⟨hsome, hnone⟩ := hknown.sound.update checks he
    -- the first image a process gets is its copy; a later one is merged into it
    cases hp : s.copies p with
    | none =>
      obtain ⟨d', hupd, hsound, hz, hhas⟩ := hnone
      rw [hp, hupd] at hs
      obtain ⟨rfl, rfl⟩ := Prod.mk.inj hs
      exact h.put (hknown.union hknown hsound (hz.trans hknown.zeroth) fun i hi =>
        .inl ((hhas i).mp hi)).mono hnil
    | some d =>
      have hown := h.copies p d hp
      obtain ⟨d', hupd, hsound, hz, hhas⟩ := hsome hown.sound (hown.zeroth.trans hknown.zeroth.symm)
      rw [hp, hupd] at hs
      obtain ⟨rfl, rfl⟩ := Prod.mk.inj hs
      exact h.put (hown.union hknown hsound (hz.trans hown.zeroth) fun i hi => (hhas i).mp hi).mono hnil
  | updateFrom p q =>
    rw [Copies.step, Option.map_eq_some_iff] at hs
    obtain ⟨e, he, hs⟩ := hs
    have hknown := h.copies q e he
    obtain ⟨hsome, hnone⟩ := hknown.sound.updateFrom
    -- as above, with the other copy in the place of its image
    cases hp : s.copies p with
    | none =>
      obtain ⟨d', hupd, hsound, hz, hhas⟩ := hnone
      rw [hp, hupd] at hs
      obtain ⟨rfl, rfl⟩ := Prod.mk.inj hs
      exact h.put (hknown.union hknown hsound (hz.trans hknown.zeroth) fun i hi =>
        .inl ((hhas i).mp hi)).mono hnil
    | some d =>
      have hown := h.copies p d hp
      obtain ⟨d', hupd, hsound, hz, hhas⟩ := hsome hown.sound (hown.zeroth.trans hknown.zeroth.symm)
      rw [hp, hupd] at hs
      obtain ⟨rfl, rfl⟩ := Prod.mk.inj hs
      exact h.put (hown.union hknown hsound (hz.trans hown.zeroth) fun i hi => (hhas i).mp hi).mono hnil
  | hash p hash =>
    rw [Copies.step, Option.map_eq_some_iff] at hs
    obtain ⟨d, hd, hs⟩ := hs
    have hknown := h.copies p d hd
    obtain ⟨i, hi⟩ := hknown.sound.hashToIndex_isSome hm hknown.lt hash
    rw [hi] at hs
    obtain ⟨rfl, rfl⟩ := Prod.mk.inj hs
    exact h.append

/-- A run with two partitions at most, taken step by step. -/
theorem run_of_exec (ks : List Op)
    (h : (system 3 2 true).exec (fun _ k => decide (Fits 2 k)) ⟨fun _ => none, []⟩ ks = some (s, es)) :
    (system 3 (2 ^ 1) true).Run (fun _ k => Fits (2 ^ 1) k) es s := by
  have hr := TransitionSystem.Run.exec (C := fun _ k => Fits 2 k) (fun _ _ => of_decide_eq_true)
    (.init rfl) h
  rwa [List.nil_append] at hr

/-- What holds in every run. -/
theorem Inv.run (hm : m ≤ 16)
    (hr : (system zserver (2 ^ m) checks).Run (fun _ k => Fits (2 ^ m) k) tr s) :
    Inv zserver (2 ^ m) tr s := by
  refine hr.invariant (I := fun tr s => Inv zserver (2 ^ m) tr s) ?_ ?_
  · rintro s rfl
    exact ⟨fun p d hd => absurd hd (by simp), fun image himage => absurd himage (by simp),
      List.not_mem_nil, List.not_mem_nil⟩
  · intro tr s k s' es _ hI hk hs
    exact hI.step hm hk hs

/-! ### Runs

The three guarantees of a run, each with a run of a few steps that it applies to. -/

/-- **No assertion fails and nothing that has been encoded is refused**, in any run;
every partition there is has been split off its parent.

A copy of an index is only ever changed by its server or replaced by what another copy has
encoded, so `Inv` can speak of all copies at once: each of them is sound and knows no
partition that has not been made. Encodings are in the invariant as well, since they may
arrive at any later time. -/
theorem copies_never_fail (hm : m ≤ 16)
    (hr : (system zserver (2 ^ m) checks).Run (fun _ k => Fits (2 ^ m) k) tr s) :
    .failed ∉ tr ∧ .refused ∉ tr ∧
      ∀ p d, s.copies p = some d → Has d 0 ∧ ∀ i, Has d i → i ≠ 0 →
        Has d (DeltaFs.toParentIndex i) ∧ .split (DeltaFs.toParentIndex i) i ∈ tr := by
  have hI := Inv.run hm hr
  refine ⟨hI.failed, hI.refused, fun p d hd => ?_⟩
  have hknown := hI.copies p d hd
  refine ⟨hknown.sound.zero, fun i hi hne => ?_⟩
  rw [toParentIndex_eq]
  exact ⟨hknown.sound.closed i hi, (hknown.split i hi).resolve_left hne⟩

/-- A second index learns of a split, and finds the new partition. -/
theorem copies_never_fail_two : ∃ tr s,
    (system 3 (2 ^ 1) true).Run (fun _ k => Fits (2 ^ 1) k) tr s ∧
    tr = [.split 0 1, .found 1 (encodeFixed64 0xffffffffffffffff) 1] ∧
    (.failed ∉ tr ∧ .refused ∉ tr ∧
      ∀ p d, s.copies p = some d → Has d 0 ∧ ∀ i, Has d i → i ≠ 0 →
        Has d (DeltaFs.toParentIndex i) ∧ .split (DeltaFs.toParentIndex i) i ∈ tr) := by
  have hran : ((system 3 2 true).exec (fun _ k => decide (Fits 2 k)) ⟨fun _ => none, []⟩
      [.create 0, .split 0 0, .encode 0, .update 1 0,
        .hash 1 (encodeFixed64 0xffffffffffffffff)]).map Prod.snd =
      some [.split 0 1, .found 1 (encodeFixed64 0xffffffffffffffff) 1] := by decide +kernel
  obtain ⟨⟨s, es⟩, hexec, rfl⟩ := Option.map_eq_some_iff.mp hran
  have hr := run_of_exec _ hexec
  exact ⟨_, s, hr, rfl, copies_never_fail (by decide) hr⟩

/-- **A split moves the names that are to be migrated**, all from the partition that
is split, and no others.

A hash belongs to the last of its ancestors that is there (`Owner`). A new partition becomes
the owner of what is beneath it, and this was its parent's, since there is nothing in
between (`Owner.eq_parent`). `ToBeMigrated` tells the same from the bits of the hash. -/
theorem split_migrates (hm : m ≤ 16)
    (hr : (system zserver (2 ^ m) checks).Run (fun _ k => Fits (2 ^ m) k) tr s)
    (hd : s.copies p = some d) (hi : i < 2 ^ m) (hok : isSplittable d (2 ^ m) i = some true) :
    ∃ c d', newIndexForSplitting d (2 ^ m) i = some c ∧ Checked.set d (2 ^ m) c = some d' ∧
      DeltaFs.toParentIndex c = i ∧
      ∀ hash, ∃ j moved, hashToIndex d (2 ^ m) hash = some j ∧ toBeMigrated c hash = some moved ∧
        hashToIndex d' (2 ^ m) hash = some (if moved then c else j) ∧ (moved = true → j = i) := by
  have hmax : 2 ^ m ≤ kMaxPartitions := Nat.pow_le_pow_right (by decide) hm
  have hknown := (Inv.run hm hr).copies p d hd
  rcases hknown.splitIndex (hi.trans_le hmax) with ⟨-, hno⟩ | ⟨r, hnext, hhas, hlt, hnew, hset, -, hafter⟩
  · rw [hno] at hok
    cases hok
  refine ⟨_, _, hnew, hset, ?_, fun hash => ?_⟩
  · rw [toParentIndex_eq, parent_child (lt_of_toRadix_le hnext.radix_le)]
  obtain ⟨j, hj⟩ := hknown.sound.hashToIndex_isSome hm hknown.lt hash
  obtain ⟨j', hj'⟩ := hafter.sound.hashToIndex_isSome hm hafter.lt hash
  obtain ⟨hown, hfrom⟩ := hknown.sound.owner_split hhas hnext (hknown.sound.owner hj)
  refine ⟨j, _, hj, toBeMigrated_eq hash (hlt.trans_le hmax), ?_, fun hmoved => ?_⟩
  · rw [hj', (hafter.sound.owner hj').unique hown]
    simp only [decide_eq_true_eq]
  · exact hfrom (of_decide_eq_true hmoved)

/-- The first split of a new index. -/
theorem split_migrates_new :
    ∃ c d', newIndexForSplitting (Rep.new 3) (2 ^ 1) 0 = some c ∧
      Checked.set (Rep.new 3) (2 ^ 1) c = some d' ∧ DeltaFs.toParentIndex c = 0 ∧
      ∀ hash, ∃ j moved, hashToIndex (Rep.new 3) (2 ^ 1) hash = some j ∧
        toBeMigrated c hash = some moved ∧
        hashToIndex d' (2 ^ 1) hash = some (if moved then c else j) ∧ (moved = true → j = 0) := by
  have hr := run_of_exec [.create 0] rfl
  exact split_migrates (p := 0) (by decide) hr rfl (by decide) (by decide +kernel)

/-- **Indices that have merged each other agree**: they are encoded the same, and find
of the two partitions of a hash the one that is further down.

`Merge` is a union of sets of partitions, and the union of sets that are closed under
parents is closed. Of the two owners of a hash one is an ancestor of the other, both being
ancestors of the hash, and the nearer one, which has the higher index, owns it in the union
(`Owner.union`). -/
theorem merge_agrees (hm : m ≤ 16)
    (hr : (system zserver (2 ^ m) checks).Run (fun _ k => Fits (2 ^ m) k) tr s)
    (hd : s.copies p = some d) (he : s.copies q = some e) :
    ∃ image image' d' e', toSlice d = some image ∧ toSlice e = some image' ∧
      Checked.update checks (some d) image' = some (some d', true) ∧
      Checked.update checks (some e) image = some (some e', true) ∧ toSlice d' = toSlice e' ∧
      ∀ hash, ∃ i j, hashToIndex d (2 ^ m) hash = some i ∧ hashToIndex e (2 ^ m) hash = some j ∧
        (Ancestor i j ∨ Ancestor j i) ∧ hashToIndex d' (2 ^ m) hash = some (max i j) ∧
        hashToIndex e' (2 ^ m) hash = some (max i j) := by
  have hI := Inv.run hm hr
  have hdk := hI.copies p d hd
  have hek := hI.copies q e he
  have hz : d.zerothServer = e.zerothServer := hdk.zeroth.trans hek.zeroth.symm
  obtain ⟨image, himage, -⟩ := hdk.sound.parseDirIndex_toSlice checks
  obtain ⟨image', himage', -⟩ := hek.sound.parseDirIndex_toSlice checks
  obtain ⟨d', hupd, hsound, hz', hhas⟩ := (hek.sound.update checks himage').1 hdk.sound hz
  obtain ⟨e', hupd', hsound', hz'', hhas'⟩ := (hdk.sound.update checks himage).1 hek.sound hz.symm
  have hdk' := hdk.union hek hsound (hz'.trans hdk.zeroth) fun i hi => (hhas i).mp hi
  have hek' := hek.union hdk hsound' (hz''.trans hek.zeroth) fun i hi => (hhas' i).mp hi
  refine ⟨image, image', d', e', himage, himage', hupd, hupd', ?_, fun hash => ?_⟩
  · exact hsound.toSlice_congr hsound' (hdk'.zeroth.trans hek'.zeroth.symm) fun i =>
      (hhas i).trans (or_comm.trans (hhas' i).symm)
  obtain ⟨i, hi⟩ := hdk.sound.hashToIndex_isSome hm hdk.lt hash
  obtain ⟨j, hj⟩ := hek.sound.hashToIndex_isSome hm hek.lt hash
  obtain ⟨i', hi'⟩ := hsound.hashToIndex_isSome hm hdk'.lt hash
  obtain ⟨j', hj'⟩ := hsound'.hashToIndex_isSome hm hek'.lt hash
  have howni := hdk.sound.owner hi
  have hownj := hek.sound.owner hj
  have hunion := howni.union hownj
  have hmaxi : i' = max i j := (hsound.owner hi').unique (hunion.congr fun l => (hhas l).symm)
  have hmaxj : j' = max i j := (hsound'.owner hj').unique
    (hunion.congr fun l => or_comm.trans (hhas' l).symm)
  exact ⟨i, j, hi, hj, howni.ancestor.total hownj.ancestor, hmaxi ▸ hi', hmaxj ▸ hj'⟩

/-- One of two new indices has been split. -/
theorem merge_agrees_new :
    ∃ image image' d' e', toSlice ((Rep.new 3).turnOnBit 1) = some image ∧
      toSlice (Rep.new 3) = some image' ∧
      Checked.update true (some ((Rep.new 3).turnOnBit 1)) image' = some (some d', true) ∧
      Checked.update true (some (Rep.new 3)) image = some (some e', true) ∧ toSlice d' = toSlice e' ∧
      ∀ hash, ∃ i j, hashToIndex ((Rep.new 3).turnOnBit 1) (2 ^ 1) hash = some i ∧
        hashToIndex (Rep.new 3) (2 ^ 1) hash = some j ∧ (Ancestor i j ∨ Ancestor j i) ∧
        hashToIndex d' (2 ^ 1) hash = some (max i j) ∧
        hashToIndex e' (2 ^ 1) hash = some (max i j) := by
  have hr := run_of_exec [.create 0, .create 1, .split 0 0] rfl
  exact merge_agrees (p := 0) (q := 1) (by decide) hr rfl rfl

end Copies

end DeltaFs
