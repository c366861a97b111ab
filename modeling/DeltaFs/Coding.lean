import Mathlib.Data.Nat.Bitwise
import Mathlib.Tactic.IntervalCases
import Mathlib.Tactic.Ring
import Mathlib.Data.List.Basic

/-!
# Byte strings, integer codings and the table hash

`Slice` and the codings of `coding.cc`: fixed-width little-endian integers,
base-128 varints and length-prefixed slices, with the round trips the rest of
the development relies on, and the murmur-like `Hash` of `hash.cc` that the
tables, the caches and the per-directory ways are keyed by.
-/

namespace DeltaFs

/-- A byte string. -/
abbrev Slice : Type := List UInt8

/-- The bytes of a text literal. -/
def str (s : String) : Slice := s.toList.map fun c => UInt8.ofNat c.toNat

/-! ## Fixed-width integers

The source copies memory, or shifts byte by byte; both give the base-256 digits, the lowest
first. The two widths are instances of one pair of functions, and their round trips of one
lemma. -/

/-- The low `k` base-256 digits of `n`, least significant first. -/
def fixedBytes : Nat → Nat → Slice
  | 0, _ => []
  | k + 1, n => UInt8.ofNat (n % 256) :: fixedBytes k (n / 256)

/-- The number a little-endian digit string stands for. -/
def fixedValue : Slice → Nat
  | [] => 0
  | b :: bs => b.toNat + 256 * fixedValue bs

@[simp] theorem length_fixedBytes (k n : Nat) : (fixedBytes k n).length = k := by
  induction k generalizing n with
  | zero => rfl
  | succ k ih => simp [fixedBytes, ih]

theorem fixedValue_fixedBytes (k n : Nat) : fixedValue (fixedBytes k n) = n % 256 ^ k := by
  induction k generalizing n with
  | zero => simp [fixedBytes, fixedValue, Nat.mod_one]
  | succ k ih =>
    have hb : (UInt8.ofNat (n % 256)).toNat = n % 256 := by
      rw [UInt8.toNat_ofNat']
      omega
    rw [fixedBytes, fixedValue, ih, hb, Nat.pow_succ', Nat.mod_mul]

/-- `EncodeFixed32`. -/
def encodeFixed32 (v : UInt32) : Slice := fixedBytes 4 v.toNat

/-- `EncodeFixed64`. -/
def encodeFixed64 (v : UInt64) : Slice := fixedBytes 8 v.toNat

/-- `DecodeFixed32`. -/
def decodeFixed32 (b : Slice) : UInt32 := UInt32.ofNat (fixedValue b)

/-- `DecodeFixed64`. -/
def decodeFixed64 (b : Slice) : UInt64 := UInt64.ofNat (fixedValue b)

@[simp] theorem length_encodeFixed32 (v : UInt32) : (encodeFixed32 v).length = 4 :=
  length_fixedBytes ..

@[simp] theorem length_encodeFixed64 (v : UInt64) : (encodeFixed64 v).length = 8 :=
  length_fixedBytes ..

@[simp] theorem decodeFixed32_encodeFixed32 (v : UInt32) : decodeFixed32 (encodeFixed32 v) = v := by
  have hv : v.toNat < 256 ^ 4 := v.toNat_lt
  rw [decodeFixed32, encodeFixed32, fixedValue_fixedBytes, Nat.mod_eq_of_lt hv, UInt32.ofNat_toNat]

@[simp] theorem decodeFixed64_encodeFixed64 (v : UInt64) : decodeFixed64 (encodeFixed64 v) = v := by
  have hv : v.toNat < 256 ^ 8 := v.toNat_lt
  rw [decodeFixed64, encodeFixed64, fixedValue_fixedBytes, Nat.mod_eq_of_lt hv, UInt64.ofNat_toNat]

theorem encodeFixed64_injective : Function.Injective encodeFixed64 :=
  Function.LeftInverse.injective decodeFixed64_encodeFixed64

/-! ## Varints and length-prefixed slices

The writers differ: five branches for 32 bits, a loop for 64. Both produce the base-128 digits
with a continuation bit (`varintBytes`), so there is one lemma about the reader, by induction on
the digits, with what it has read so far in `r`. A length is written with 32 bits, so the round
trip of a slice needs a length below `2 ^ 32`. -/

/-- `EncodeVarint32`: seven bits a byte, the top bit set on all bytes but the
last. -/
def encodeVarint32 (v : UInt32) : Slice :=
  if v.toNat < 1 <<< 7 then [v.toUInt8]
  else if v.toNat < 1 <<< 14 then [(v ||| 128).toUInt8, (v >>> 7).toUInt8]
  else if v.toNat < 1 <<< 21 then
    [(v ||| 128).toUInt8, ((v >>> 7) ||| 128).toUInt8, (v >>> 14).toUInt8]
  else if v.toNat < 1 <<< 28 then
    [(v ||| 128).toUInt8, ((v >>> 7) ||| 128).toUInt8, ((v >>> 14) ||| 128).toUInt8,
      (v >>> 21).toUInt8]
  else
    [(v ||| 128).toUInt8, ((v >>> 7) ||| 128).toUInt8, ((v >>> 14) ||| 128).toUInt8,
      ((v >>> 21) ||| 128).toUInt8, (v >>> 28).toUInt8]

/-- `EncodeVarint64`: a loop of at most nine rounds. -/
def encodeVarint64From : Nat → UInt64 → Slice
  | 0, v => [v.toUInt8]
  | fuel + 1, v =>
    if 128 ≤ v then ((v &&& 127) ||| 128).toUInt8 :: encodeVarint64From fuel (v >>> 7)
    else [v.toUInt8]

/-- `EncodeVarint64`. -/
def encodeVarint64 (v : UInt64) : Slice := encodeVarint64From 9 v

/-- The loop of `GetVarint32PtrFallback` and `GetVarint64Ptr`, for a result of
`bits` bits: it stops when the shift is past `last`, and at the end of the
input. Returns the value and the rest of the input. -/
def getVarintFrom (bits last shift result : Nat) : Slice → Option (Nat × Slice)
  | [] => none
  | byte :: p =>
    if shift ≤ last then
      if byte &&& 128 ≠ 0 then
        getVarintFrom bits last (shift + 7)
          (result ||| (((byte.toNat &&& 127) <<< shift) % 2 ^ bits)) p
      else some (result ||| ((byte.toNat <<< shift) % 2 ^ bits), p)
    else none

/-- `GetVarint32`. -/
def getVarint32 (input : Slice) : Option (UInt32 × Slice) :=
  (getVarintFrom 32 28 0 0 input).map fun p => (UInt32.ofNat p.1, p.2)

/-- `GetVarint64`. -/
def getVarint64 (input : Slice) : Option (UInt64 × Slice) :=
  (getVarintFrom 64 63 0 0 input).map fun p => (UInt64.ofNat p.1, p.2)

/-- `PutLengthPrefixedSlice`; the length is cut to 32 bits. -/
def putLengthPrefixedSlice (dst value : Slice) : Slice :=
  dst ++ encodeVarint32 (UInt32.ofNat value.length) ++ value

/-- `GetLengthPrefixedSlice`: the slice read and the rest of the input. -/
def getLengthPrefixedSlice (input : Slice) : Option (Slice × Slice) :=
  match getVarint32 input with
  | none => none
  | some (len, rest) =>
    if len.toNat ≤ rest.length then some (rest.take len.toNat, rest.drop len.toNat) else none

/-- ORing in a digit above the bits already there adds it. -/
theorem or_digit {bits r d s : Nat} (hr : r < 2 ^ s) (hd : d * 2 ^ s < 2 ^ bits) :
    r ||| ((d <<< s) % 2 ^ bits) = r + d * 2 ^ s := by
  rw [Nat.shiftLeft_eq, Nat.mod_eq_of_lt hd, Nat.or_comm, Nat.mul_comm,
    ← Nat.two_pow_add_eq_or_of_lt hr, Nat.add_comm]

theorem toNat_and_127 (n : Nat) : n &&& 127 = n % 128 := Nat.and_two_pow_sub_one_eq_mod n 7

/-- A byte below 128 ends a varint. -/
theorem getVarintFrom_last {bits last shift r d : Nat} (hs : shift ≤ last) (hd : d < 128)
    (p : Slice) :
    getVarintFrom bits last shift r (UInt8.ofNat d :: p) =
      some (r ||| ((d <<< shift) % 2 ^ bits), p) := by
  have hlow : ¬ (UInt8.ofNat d &&& 128 ≠ 0) := by
    interval_cases d <;> decide
  have hval : (UInt8.ofNat d).toNat = d := by
    rw [UInt8.toNat_ofNat']
    omega
  rw [getVarintFrom, if_pos hs, if_neg hlow, hval]

/-- A byte from 128 on carries seven bits and is followed by more. -/
theorem getVarintFrom_more {bits last shift r d : Nat} (hs : shift ≤ last) (hd : d < 128)
    (p : Slice) :
    getVarintFrom bits last shift r (UInt8.ofNat (d + 128) :: p) =
      getVarintFrom bits last (shift + 7) (r ||| ((d <<< shift) % 2 ^ bits)) p := by
  have hhigh : UInt8.ofNat (d + 128) &&& 128 ≠ 0 := by
    interval_cases d <;> decide
  have hval : (UInt8.ofNat (d + 128)).toNat &&& 127 = d := by
    rw [toNat_and_127, UInt8.toNat_ofNat']
    omega
  rw [getVarintFrom, if_pos hs, if_pos hhigh, hval]

/-- Setting bit 7 of a byte. -/
theorem or_128_mod_256 (n : Nat) : (n ||| 128) % 256 = n % 128 + 128 := by
  have hlow : n % 128 < 2 ^ 7 := Nat.mod_lt _ (by decide)
  have hsum : 128 + n % 128 = 128 ||| n % 128 := Nat.two_pow_add_eq_or_of_lt (i := 7) hlow 1
  have hmod : (n ||| 128) % 2 ^ 8 = n % 2 ^ 8 ||| 128 % 2 ^ 8 := Nat.or_mod_two_pow
  rw [show (256 : Nat) = 2 ^ 8 from rfl, hmod, show 128 % 2 ^ 8 = 128 from rfl]
  rcases Nat.lt_or_ge (n % 2 ^ 8) 128 with hlt | hge
  · rw [show n % 2 ^ 8 = n % 128 by omega, Nat.or_comm, ← hsum, Nat.add_comm]
  · rw [show n % 2 ^ 8 = 128 + n % 128 by omega, hsum, Nat.or_comm, ← Nat.or_assoc, Nat.or_self,
      ← hsum, Nat.add_comm]

/-- The last byte of an encoding. -/
theorem toUInt8_shiftRight (v : UInt32) {k : Nat} (hk : k < 32) :
    (v >>> UInt32.ofNat k).toUInt8 = UInt8.ofNat (v.toNat / 2 ^ k) := by
  apply UInt8.toNat_inj.mp
  rw [UInt32.toNat_toUInt8, UInt32.toNat_shiftRight, UInt32.toNat_ofNat', UInt8.toNat_ofNat',
    Nat.mod_eq_of_lt (by omega : k < 2 ^ 32), Nat.mod_eq_of_lt hk, Nat.shiftRight_eq_div_pow]

/-- The other bytes of an encoding. -/
theorem toUInt8_shiftRight_or (v : UInt32) {k : Nat} (hk : k < 32) :
    ((v >>> UInt32.ofNat k) ||| 128).toUInt8 = UInt8.ofNat (v.toNat / 2 ^ k % 128 + 128) := by
  apply UInt8.toNat_inj.mp
  rw [UInt32.toNat_toUInt8, UInt32.toNat_or, UInt32.toNat_shiftRight, UInt32.toNat_ofNat',
    UInt8.toNat_ofNat', Nat.mod_eq_of_lt (by omega : k < 2 ^ 32), Nat.mod_eq_of_lt hk,
    Nat.shiftRight_eq_div_pow, show (128 : UInt32).toNat = 128 from rfl,
    show (2 : Nat) ^ 8 = 256 from rfl, or_128_mod_256]
  omega

/-- The base-128 digits of `n`, least significant first, the continuation bit
set on all but the last: what both varint writers produce. -/
def varintBytes (n : Nat) : Slice :=
  if n < 128 then [UInt8.ofNat n]
  else UInt8.ofNat (n % 128 + 128) :: varintBytes (n / 128)
termination_by n
decreasing_by omega

theorem varintBytes_last {n : Nat} (h : n < 128) : varintBytes n = [UInt8.ofNat n] := by
  rw [varintBytes, if_pos h]

theorem varintBytes_more {n : Nat} (h : ¬ n < 128) :
    varintBytes n = UInt8.ofNat (n % 128 + 128) :: varintBytes (n / 128) := by
  rw [varintBytes, if_neg h]

/-- The five branches of `EncodeVarint32` write the base-128 digits. -/
theorem encodeVarint32_eq (v : UInt32) : encodeVarint32 v = varintBytes v.toNat := by
  have hv : v.toNat < 2 ^ 32 := v.toNat_lt
  have h0 : v.toUInt8 = UInt8.ofNat v.toNat := by
    apply UInt8.toNat_inj.mp
    rw [UInt32.toNat_toUInt8, UInt8.toNat_ofNat']
  have hor0 : (v ||| 128).toUInt8 = UInt8.ofNat (v.toNat % 128 + 128) := by
    simpa using toUInt8_shiftRight_or v (k := 0) (by decide)
  have h7 : (v >>> 7).toUInt8 = UInt8.ofNat (v.toNat / 128) :=
    toUInt8_shiftRight v (k := 7) (by decide)
  have h14 : (v >>> 14).toUInt8 = UInt8.ofNat (v.toNat / 16384) :=
    toUInt8_shiftRight v (k := 14) (by decide)
  have h21 : (v >>> 21).toUInt8 = UInt8.ofNat (v.toNat / 2097152) :=
    toUInt8_shiftRight v (k := 21) (by decide)
  have h28 : (v >>> 28).toUInt8 = UInt8.ofNat (v.toNat / 268435456) :=
    toUInt8_shiftRight v (k := 28) (by decide)
  have hor7 : ((v >>> 7) ||| 128).toUInt8 = UInt8.ofNat (v.toNat / 128 % 128 + 128) :=
    toUInt8_shiftRight_or v (k := 7) (by decide)
  have hor14 : ((v >>> 14) ||| 128).toUInt8 = UInt8.ofNat (v.toNat / 16384 % 128 + 128) :=
    toUInt8_shiftRight_or v (k := 14) (by decide)
  have hor21 : ((v >>> 21) ||| 128).toUInt8 = UInt8.ofNat (v.toNat / 2097152 % 128 + 128) :=
    toUInt8_shiftRight_or v (k := 21) (by decide)
  simp only [encodeVarint32, h0, h7, h14, h21, h28, hor0, hor7, hor14, hor21, Nat.reduceShiftLeft]
  split
  · rename_i h
    rw [varintBytes_last h]
  rename_i hge₁
  rw [varintBytes_more hge₁]
  split
  · rename_i h
    rw [varintBytes_last (by omega)]
  rename_i hge₂
  rw [varintBytes_more (by omega : ¬ v.toNat / 128 < 128), Nat.div_div_eq_div_mul]
  split
  · rename_i h
    rw [varintBytes_last (by omega)]
  rename_i hge₃
  rw [varintBytes_more (by omega : ¬ v.toNat / (128 * 128) < 128), Nat.div_div_eq_div_mul]
  split
  · rename_i h
    rw [varintBytes_last (by omega)]
  rename_i hge₄
  rw [varintBytes_more (by omega : ¬ v.toNat / (128 * 128 * 128) < 128), Nat.div_div_eq_div_mul,
    varintBytes_last (by omega)]

/-- The loop of `EncodeVarint64` writes the base-128 digits. -/
theorem encodeVarint64From_eq (fuel : Nat) (v : UInt64) (hv : v.toNat < 128 ^ (fuel + 1)) :
    encodeVarint64From fuel v = varintBytes v.toNat := by
  have hlow : v.toUInt8 = UInt8.ofNat v.toNat := by
    apply UInt8.toNat_inj.mp
    rw [UInt64.toNat_toUInt8, UInt8.toNat_ofNat']
  induction fuel generalizing v with
  | zero =>
    rw [encodeVarint64From, varintBytes_last (by omega), hlow]
  | succ fuel ih =>
    rw [encodeVarint64From]
    split
    · rename_i hge
      have hge' : 128 ≤ v.toNat := UInt64.le_iff_toNat_le.mp hge
      have hnext : (v >>> 7).toNat = v.toNat / 128 := by
        rw [UInt64.toNat_shiftRight, Nat.shiftRight_eq_div_pow]
        rfl
      have hbyte : ((v &&& 127) ||| 128).toUInt8 = UInt8.ofNat (v.toNat % 128 + 128) := by
        apply UInt8.toNat_inj.mp
        rw [UInt64.toNat_toUInt8, UInt64.toNat_or, UInt64.toNat_and, UInt8.toNat_ofNat',
          show (127 : UInt64).toNat = 127 from rfl, show (128 : UInt64).toNat = 128 from rfl,
          toNat_and_127, show (2 : Nat) ^ 8 = 256 from rfl, or_128_mod_256]
        omega
      have hlow' : (v >>> 7).toUInt8 = UInt8.ofNat (v >>> 7).toNat := by
        apply UInt8.toNat_inj.mp
        rw [UInt64.toNat_toUInt8, UInt8.toNat_ofNat']
      rw [varintBytes_more (by omega), hbyte, ih _ _ hlow', hnext]
      rw [hnext]
      rw [Nat.pow_succ] at hv
      omega
    · rename_i hlt
      have hlt' : ¬ 128 ≤ v.toNat := fun h => hlt (UInt64.le_iff_toNat_le.mpr h)
      rw [varintBytes_last (by omega), hlow]

theorem encodeVarint64_eq (v : UInt64) : encodeVarint64 v = varintBytes v.toNat :=
  encodeVarint64From_eq 9 v (lt_trans v.toNat_lt (by decide))

/-- The reader's loop over the digits of `n`, entered at a digit position with
the lower digits already in `r`. -/
theorem getVarintFrom_varintBytes {bits last : Nat} (hlast : ∀ s, last < 7 * s → bits ≤ 7 * s)
    (p : Slice) :
    ∀ n s r : Nat, r < 2 ^ (7 * s) → r + n * 2 ^ (7 * s) < 2 ^ bits → 7 * s ≤ last →
      getVarintFrom bits last (7 * s) r (varintBytes n ++ p) = some (r + n * 2 ^ (7 * s), p) := by
  intro n
  induction n using Nat.strong_induction_on with
  | _ n ih =>
    intro s r hr hn hs
    have hpos : 0 < 2 ^ (7 * s) := Nat.two_pow_pos _
    by_cases hend : n < 128
    · rw [varintBytes_last hend, List.singleton_append, getVarintFrom_last hs hend,
        or_digit hr (by omega)]
    · -- split off the lowest digit
      have hsplit : n = n % 128 + 128 * (n / 128) := (Nat.mod_add_div n 128).symm
      have hpow : 2 ^ (7 * (s + 1)) = 128 * 2 ^ (7 * s) := by
        rw [show 7 * (s + 1) = 7 * s + 7 by ring, Nat.pow_add, Nat.mul_comm]
      have hmul : n * 2 ^ (7 * s) = n % 128 * 2 ^ (7 * s) + n / 128 * 2 ^ (7 * (s + 1)) := by
        rw [hpow]
        calc n * 2 ^ (7 * s) = (n % 128 + 128 * (n / 128)) * 2 ^ (7 * s) := by rw [← hsplit]
          _ = n % 128 * 2 ^ (7 * s) + n / 128 * (128 * 2 ^ (7 * s)) := by ring
      have hdigit : n % 128 * 2 ^ (7 * s) ≤ 127 * 2 ^ (7 * s) :=
        Nat.mul_le_mul_right _ (by omega)
      have hnext : 7 * (s + 1) ≤ last := by
        by_contra hgt
        have hbits : 2 ^ bits ≤ 2 ^ (7 * (s + 1)) :=
          Nat.pow_le_pow_right (by decide) (hlast (s + 1) (by omega))
        have hone : 1 * 2 ^ (7 * (s + 1)) ≤ n / 128 * 2 ^ (7 * (s + 1)) :=
          Nat.mul_le_mul_right _ (by omega)
        omega
      have hor : r ||| (((n % 128) <<< (7 * s)) % 2 ^ bits) = r + n % 128 * 2 ^ (7 * s) :=
        or_digit hr (by omega)
      rw [varintBytes_more hend, List.cons_append,
        getVarintFrom_more hs (Nat.mod_lt _ (by decide)),
        show 7 * s + 7 = 7 * (s + 1) by ring, ih _ (by omega) (s + 1) _ ?_ ?_ hnext, hor]
      · congr 2
        omega
      · rw [hor, hpow]
        omega
      · rw [hor]
        omega

/-- Reading back a 32-bit varint. -/
theorem getVarint32_encodeVarint32 (v : UInt32) (p : Slice) :
    getVarint32 (encodeVarint32 v ++ p) = some (v, p) := by
  have hlast : ∀ s, 28 < 7 * s → 32 ≤ 7 * s := by
    intro s hs
    omega
  have hv : v.toNat < 2 ^ 32 := v.toNat_lt
  have h := getVarintFrom_varintBytes hlast p v.toNat 0 0 (by decide) (by simpa using hv)
    (by decide)
  rw [getVarint32, encodeVarint32_eq, show 0 = 7 * 0 from rfl, h]
  simp

/-- Reading back a 64-bit varint. -/
theorem getVarint64_encodeVarint64 (v : UInt64) (p : Slice) :
    getVarint64 (encodeVarint64 v ++ p) = some (v, p) := by
  have hlast : ∀ s, 63 < 7 * s → 64 ≤ 7 * s := by
    intro s hs
    omega
  have hv : v.toNat < 2 ^ 64 := v.toNat_lt
  have h := getVarintFrom_varintBytes hlast p v.toNat 0 0 (by decide) (by simpa using hv)
    (by decide)
  rw [getVarint64, encodeVarint64_eq, show 0 = 7 * 0 from rfl, h]
  simp

/-- Reading back a length-prefixed slice. -/
theorem getLengthPrefixedSlice_put {value : Slice} (h : value.length < 2 ^ 32) (p : Slice) :
    getLengthPrefixedSlice (putLengthPrefixedSlice [] value ++ p) = some (value, p) := by
  have hlen : (UInt32.ofNat value.length).toNat = value.length := by
    rw [UInt32.toNat_ofNat', Nat.mod_eq_of_lt h]
  rw [putLengthPrefixedSlice, List.nil_append, List.append_assoc, getLengthPrefixedSlice,
    getVarint32_encodeVarint32]
  simp only [hlen, List.length_append, Nat.le_add_right, if_true, List.take_left', List.drop_left']

/-! ## Name arrays

The names of a batch, one after the other with the prefix of their lengths. The server reads as
many as the count says and stops early when one does not parse. So fewer names than the count
may be read, and never more. -/

/-- The names a server decodes from a name array: at most `n`, up to the first
that does not parse. -/
def decodeNames : Nat → Slice → List Slice
  | 0, _ => []
  | n + 1, namearr =>
    match getLengthPrefixedSlice namearr with
    | none => []
    | some (name, rest) => name :: decodeNames n rest

/-- The name array of a list of names. -/
def encodeNames (names : List Slice) : Slice := names.flatMap (putLengthPrefixedSlice [])

theorem putLengthPrefixedSlice_eq (dst value : Slice) :
    putLengthPrefixedSlice dst value = dst ++ putLengthPrefixedSlice [] value := by
  simp [putLengthPrefixedSlice]

/-- Decoding an encoded list with a count that admits it. -/
theorem decodeNames_encodeNames {names : List Slice} (hlen : ∀ x ∈ names, x.length < 2 ^ 32) {n : Nat}
    (hn : names.length ≤ n) : decodeNames n (encodeNames names) = names := by
  induction names generalizing n with
  | nil =>
    cases n with
    | zero => rfl
    | succ n => rfl
  | cons x names ih =>
    obtain ⟨n, rfl⟩ := Nat.exists_eq_succ_of_ne_zero (Nat.ne_zero_of_lt hn)
    have hx := getLengthPrefixedSlice_put (hlen x (List.mem_cons_self ..)) (encodeNames names)
    have henc : encodeNames (x :: names) = putLengthPrefixedSlice [] x ++ encodeNames names :=
      List.flatMap_cons
    rw [decodeNames, henc, hx]
    simp only []
    rw [ih (fun y hy => hlen y (List.mem_cons_of_mem _ hy)) (Nat.le_of_succ_le_succ hn)]

theorem length_decodeNames_le (n : Nat) (namearr : Slice) : (decodeNames n namearr).length ≤ n := by
  induction n generalizing namearr with
  | zero => exact Nat.le_refl 0
  | succ n ih =>
    rw [decodeNames]
    split
    · exact Nat.zero_le _
    · exact Nat.succ_le_succ (ih _)

theorem decodeNames_nil (n : Nat) : decodeNames n [] = [] := by
  cases n with
  | zero => rfl
  | succ n => rfl

/-! ## The table hash

The hash of `hash.cc`, four bytes at a time and then the tail. Nothing is proved of its values:
the tables below are right for any hash. It is here for runs on concrete names. -/

/-- The multiplier of `Hash`. -/
def hashM : UInt32 := 0xc6a4a793

/-- The rest of `Hash` once fewer than four bytes are left. -/
def hashTail (h : UInt32) : Slice → UInt32
  | [b₀, b₁, b₂] => hashLast (h + (b₂.toUInt32 <<< 16) + (b₁.toUInt32 <<< 8) + b₀.toUInt32)
  | [b₀, b₁] => hashLast (h + (b₁.toUInt32 <<< 8) + b₀.toUInt32)
  | [b₀] => hashLast (h + b₀.toUInt32)
  | _ => h
where
  /-- what every non-empty tail ends with -/
  hashLast (h : UInt32) : UInt32 :=
    let h := h * hashM
    h ^^^ (h >>> 24)

/-- The loop of `Hash`, four bytes at a time. -/
def hashLoop (h : UInt32) : Slice → UInt32
  | b₀ :: b₁ :: b₂ :: b₃ :: data =>
    let h := (h + decodeFixed32 [b₀, b₁, b₂, b₃]) * hashM
    hashLoop (h ^^^ (h >>> 16)) data
  | data => hashTail h data

/-- `Hash` of `hash.cc`. -/
def hash (data : Slice) (seed : UInt32) : UInt32 :=
  hashLoop (seed ^^^ (UInt32.ofNat data.length * hashM)) data

end DeltaFs
