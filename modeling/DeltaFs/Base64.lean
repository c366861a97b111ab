import DeltaFs.FsDb

/-!
# Integers as file names

`base64enc.h`: a 64-bit integer becomes a name of 12 bytes, six bits a byte from
the highest down, so that names are ordered as the integers are.

`bigDigits b k n` are the lowest `k` digits of `n` to the base `b`, the highest
first. Numbers that have no more digits are ordered as their digits are.

The order of byte strings is the lexicographic one, as for keys in the db, and the table
of the encoding is increasing; so the bytes compare as the digits do, and the digits as
the number (`bigDigits_lt`).
-/

namespace DeltaFs

/-! ## Digits

Nothing here is about the encoding. Two numbers below `b ^ k` compare as the words of their `k`
digits do, the highest digit first, and a monotone map on the letters keeps the order of words.
Together they say when a positional notation sorts as the numbers do. -/

/-- The lowest `k` digits of `n` to the base `b`, the highest first. -/
def bigDigits (b : Nat) : Nat → Nat → List Nat
  | 0, _ => []
  | k + 1, n => n / b ^ k % b :: bigDigits b k n

@[simp] theorem length_bigDigits (b k n : Nat) : (bigDigits b k n).length = k := by
  induction k with
  | zero => rfl
  | succ k ih => rw [bigDigits, List.length_cons, ih]

/-- What is above the digits does not matter. -/
theorem bigDigits_mod {b : Nat} (k n : Nat) : bigDigits b k (n % b ^ k) = bigDigits b k n := by
  have hgen : ∀ j, j ≤ k → bigDigits b j (n % b ^ k) = bigDigits b j n := by
    intro j
    induction j with
    | zero => intro _; rfl
    | succ j ih =>
      intro hj
      obtain ⟨d, rfl⟩ := Nat.exists_eq_add_of_le hj
      rw [bigDigits, bigDigits, ih (Nat.le_of_succ_le hj)]
      congr 1
      rw [show b ^ (j + 1 + d) = b ^ j * b ^ (d + 1) by rw [← Nat.pow_add]; congr 1; omega,
        Nat.mod_mul_right_div_self, Nat.pow_succ, Nat.mod_mul_left_mod]
  exact hgen k (Nat.le_refl k)

/-- **Digits are ordered as numbers.** By induction on the number of digits: either the
first digits differ, or the rest decides. -/
theorem bigDigits_lt {b : Nat} : ∀ {k n m : Nat}, n < m → m < b ^ k →
    bigDigits b k n < bigDigits b k m := by
  intro k
  induction k with
  | zero =>
    intro n m hlt hm
    rw [Nat.pow_zero] at hm
    omega
  | succ k ih =>
    intro n m hlt hm
    have hpos : 0 < b ^ k := by
      refine Nat.pos_of_ne_zero fun hzero => ?_
      rw [Nat.pow_succ, hzero, Nat.zero_mul] at hm
      omega
    have hmb : m / b ^ k < b := Nat.div_lt_of_lt_mul (by rwa [Nat.pow_succ] at hm)
    have hle : n / b ^ k ≤ m / b ^ k := Nat.div_le_div_right hlt.le
    rw [bigDigits, bigDigits, Nat.mod_eq_of_lt hmb, Nat.mod_eq_of_lt (hle.trans_lt hmb)]
    rcases hle.lt_or_eq with hhead | hhead
    · exact List.Lex.rel hhead
    · -- the highest digit is the same, and the rest decides
      rw [hhead, ← bigDigits_mod k n, ← bigDigits_mod k m]
      refine List.Lex.cons (ih ?_ (Nat.mod_lt m hpos))
      have hn := Nat.div_add_mod n (b ^ k)
      have hm' := Nat.div_add_mod m (b ^ k)
      rw [hhead] at hn
      omega

/-- The digits of a number are below the base. -/
theorem lt_of_mem_bigDigits {b k n d : Nat} (hb : 0 < b) (h : d ∈ bigDigits b k n) : d < b := by
  induction k with
  | zero => cases h
  | succ k ih =>
    rw [bigDigits] at h
    cases h with
    | head => exact Nat.mod_lt _ hb
    | tail _ h => exact ih h

/-- A map that is monotone on the letters of two words keeps their order. -/
theorem map_lt_map {f : Nat → UInt8} {b : Nat} (hf : ∀ x y, x < y → y < b → f x < f y) :
    ∀ {xs ys : List Nat}, (∀ x ∈ xs, x < b) → (∀ y ∈ ys, y < b) → xs < ys → xs.map f < ys.map f := by
  intro xs ys hxs hys h
  induction h with
  | nil => exact List.Lex.nil
  | cons h ih =>
    exact List.Lex.cons (ih (fun x hx => hxs x (List.mem_cons_of_mem _ hx))
      fun y hy => hys y (List.mem_cons_of_mem _ hy))
  | rel h => exact List.Lex.rel (hf _ _ h (hys _ List.mem_cons_self))

/-! ## Names

The encoding shifts bytes through a buffer and takes six bits at a time. What comes out are the
digits of the number to the base 64, the first of them made from four zeros and two bits
(`base64Enc_eq`). The table is in the order of the codes of its letters, so the lemma about
digits applies. -/

/-- `base64_table`. -/
def base64Table : Slice := str "+-0123456789ABCDEFGHIJKLMNOPQRSTUVWXYZabcdefghijklmnopqrstuvwxyz"

/-- A letter of the table. -/
def base64At (i : UInt8) : UInt8 := base64Table.getD i.toNat 0

/-- `Base64Enc`. -/
def base64Enc (input : UInt64) : Slice :=
  let inp := encodeBig64 input
  let at_ (i : Nat) := inp.getD i 0
  [base64At (at_ 0 >>> 2),
    base64At (((at_ 0 &&& 0x03) <<< 4) ||| (at_ 1 >>> 4)),
    base64At (((at_ 1 &&& 0x0f) <<< 2) ||| (at_ 2 >>> 6)),
    base64At (at_ 2 &&& 0x3f),
    base64At (at_ 3 >>> 2),
    base64At (((at_ 3 &&& 0x03) <<< 4) ||| (at_ 4 >>> 4)),
    base64At (((at_ 4 &&& 0x0f) <<< 2) ||| (at_ 5 >>> 6)),
    base64At (at_ 5 &&& 0x3f),
    base64At (at_ 6 >>> 2),
    base64At (((at_ 6 &&& 0x03) <<< 4) ||| (at_ 7 >>> 4)),
    base64At ((at_ 7 &&& 0x0f) <<< 2),
    43]

/-- Low bits of a byte, and high bits of the next one below them. -/
theorem or_toNat {a b k : Nat} (hb : b < 2 ^ k) : a <<< k ||| b = a * 2 ^ k + b := by
  rw [Nat.shiftLeft_eq, Nat.mul_comm, Nat.two_pow_add_eq_or_of_lt hb]

/-- The low `k` bits of a byte, followed by the high bits of the next one. -/
theorem toNat_join (x y : UInt8) {m a c : UInt8} {k : Nat} (hk : k ≤ 4) (hm : m.toNat = 2 ^ k - 1)
    (ha : a.toNat = 6 - k) (hc : c.toNat = 2 + k) :
    (((x &&& m) <<< a) ||| (y >>> c)).toNat =
      x.toNat % 2 ^ k * 2 ^ (6 - k) + y.toNat / 2 ^ (2 + k) := by
  have hx : x.toNat % 2 ^ k < 2 ^ k := Nat.mod_lt _ (Nat.two_pow_pos k)
  have hy : y.toNat / 2 ^ (2 + k) < 2 ^ (6 - k) := by
    refine Nat.div_lt_of_lt_mul ?_
    rw [← Nat.pow_add, show 2 + k + (6 - k) = 8 by omega]
    exact y.toNat_lt
  have hlt : (x.toNat % 2 ^ k) <<< (6 - k) < 2 ^ 8 := by
    rw [Nat.shiftLeft_eq]
    refine (Nat.mul_lt_mul_of_pos_right hx (Nat.two_pow_pos _)).trans_le ?_
    rw [← Nat.pow_add]
    exact Nat.pow_le_pow_right (by decide) (by omega)
  rw [UInt8.toNat_or, UInt8.toNat_shiftLeft, UInt8.toNat_and, UInt8.toNat_shiftRight, hm, ha, hc,
    Nat.and_two_pow_sub_one_eq_mod, Nat.mod_eq_of_lt (by omega : 6 - k < 8),
    Nat.mod_eq_of_lt (by omega : 2 + k < 8), Nat.mod_eq_of_lt hlt, Nat.shiftRight_eq_div_pow,
    or_toNat hy]

theorem toNat_high (x : UInt8) : (x >>> 2).toNat = x.toNat / 4 := by
  rw [UInt8.toNat_shiftRight, show (2 : UInt8).toNat % 8 = 2 from rfl, Nat.shiftRight_eq_div_pow]

theorem toNat_low (x : UInt8) : (x &&& 0x3f).toNat = x.toNat % 64 := by
  rw [UInt8.toNat_and, show (0x3f : UInt8).toNat = 63 from rfl]
  exact Nat.and_two_pow_sub_one_eq_mod _ 6

/-- The bytes of an integer, the highest first. -/
theorem encodeBig64_getD (v : UInt64) {i : Nat} (hi : i < 8) :
    ((encodeBig64 v).getD i 0).toNat = v.toNat / 256 ^ (7 - i) % 256 := by
  simp only [encodeBig64, encodeFixed64, fixedBytes]
  interval_cases i <;> simp <;> omega

/-- The table is sorted. -/
theorem base64Table_sorted {x y : Nat} (h : x < y) (hy : y < 64) :
    base64Table.getD x 0 < base64Table.getD y 0 := by
  have hall : ∀ y < 64, ∀ x < y, base64Table.getD x 0 < base64Table.getD y 0 := by decide +kernel
  exact hall y hy x h

/-- **A name is made of the digits** to the base 64, after four bits that are
zero. -/
theorem base64Enc_eq (v : UInt64) :
    base64Enc v = (bigDigits 64 12 (v.toNat * 256)).map fun d => base64Table.getD d 0 := by
  have hv := v.toNat_lt
  have hjoin₂ : ∀ x y : UInt8, (((x &&& 0x03) <<< 4) ||| (y >>> 4)).toNat =
      x.toNat % 2 ^ 2 * 2 ^ 4 + y.toNat / 2 ^ 4 := fun x y =>
    toNat_join x y (k := 2) (by decide) rfl rfl rfl
  have hjoin₄ : ∀ x y : UInt8, (((x &&& 0x0f) <<< 2) ||| (y >>> 6)).toNat =
      x.toNat % 2 ^ 4 * 2 ^ 2 + y.toNat / 2 ^ 6 := fun x y =>
    toNat_join x y (k := 4) (by decide) rfl rfl rfl
  -- nothing follows the last byte
  have hlast : (((encodeBig64 v).getD 7 0 &&& 0x0f) <<< 2).toNat =
      ((encodeBig64 v).getD 7 0).toNat % 2 ^ 4 * 2 ^ 2 := by
    have h := hjoin₄ ((encodeBig64 v).getD 7 0) 0
    rwa [show (0 : UInt8) >>> 6 = 0 from rfl, UInt8.or_zero] at h
  simp only [base64Enc, base64At, toNat_high, toNat_low, hjoin₂, hjoin₄, hlast,
    encodeBig64_getD v (show 0 < 8 by decide), encodeBig64_getD v (show 1 < 8 by decide),
    encodeBig64_getD v (show 2 < 8 by decide), encodeBig64_getD v (show 3 < 8 by decide),
    encodeBig64_getD v (show 4 < 8 by decide), encodeBig64_getD v (show 5 < 8 by decide),
    encodeBig64_getD v (show 6 < 8 by decide), encodeBig64_getD v (show 7 < 8 by decide)]
  simp only [bigDigits, List.map_cons, List.map_nil, List.cons.injEq, and_true]
  have hend : v.toNat * 256 / 64 ^ 0 % 64 = 0 := by omega
  have hget : ∀ {a b : Nat}, a = b → base64Table.getD a 0 = base64Table.getD b 0 :=
    fun h => by rw [h]
  refine ⟨hget ?_, hget ?_, hget ?_, hget ?_, hget ?_, hget ?_, hget ?_, hget ?_, hget ?_,
    hget ?_, hget ?_, ?_⟩
  case refine_12 =>
    rw [hend]
    rfl
  all_goals
    simp only [Nat.reduceSub, Nat.reducePow]
    omega

/-- The letters of the table are neither zero nor a slash. -/
theorem base64Table_valid {d : Nat} (hd : d < 64) :
    base64Table.getD d 0 ≠ 0 ∧ base64Table.getD d 0 ≠ 47 := by
  have hall : ∀ d < 64, base64Table.getD d 0 ≠ 0 ∧ base64Table.getD d 0 ≠ 47 := by decide +kernel
  exact hall d hd

/-- A name of one directory entry: not empty, neither the directory nor its
parent, without a slash and without a zero. -/
structure IsComponent (name : Slice) : Prop where
  nonempty : name ≠ []
  self : name ≠ str "."
  parent : name ≠ str ".."
  slash : 47 ∉ name
  nul : 0 ∉ name

/-- **Names are ordered as integers**, byte by byte: they are different, and each
is a name of 12 bytes.

The alphabet of the encoding is in the order of its characters, unlike that of the usual
base 64, and all integers get the same number of digits; so the order of the names is the
lexicographic order of the digits, which is that of the numbers. -/
theorem base64Enc_ordered :
    (∀ i j : UInt64, i < j → base64Enc i < base64Enc j) ∧ Function.Injective base64Enc ∧
      ∀ i, (base64Enc i).length = 12 ∧ IsComponent (base64Enc i) := by
  have hdigits : ∀ n, ∀ d ∈ bigDigits 64 12 n, d < 64 := fun n d hd =>
    lt_of_mem_bigDigits (by decide) hd
  have hlt : ∀ i j : UInt64, i < j → base64Enc i < base64Enc j := by
    intro i j hij
    have hij : i.toNat < j.toNat := UInt64.lt_iff_toNat_lt.mp hij
    have hj := j.toNat_lt
    rw [base64Enc_eq, base64Enc_eq]
    refine map_lt_map (fun x y hx hy => base64Table_sorted hx hy) (hdigits _) (hdigits _) ?_
    exact bigDigits_lt (by omega) (by omega)
  refine ⟨hlt, ?_, fun i => ?_⟩
  · intro i j heq
    rcases Nat.lt_trichotomy i.toNat j.toNat with h | h | h
    · have hij := hlt i j (UInt64.lt_iff_toNat_lt.mpr h)
      rw [heq] at hij
      exact absurd hij (List.lt_irrefl _)
    · exact UInt64.toNat_inj.mp h
    · have hji := hlt j i (UInt64.lt_iff_toNat_lt.mpr h)
      rw [heq] at hji
      exact absurd hji (List.lt_irrefl _)
  · have hlen : (base64Enc i).length = 12 := by
      rw [base64Enc_eq, List.length_map, length_bigDigits]
    have hshort : ∀ {name : Slice}, name.length < 12 → base64Enc i ≠ name := by
      rintro name hname rfl
      omega
    have hvalid : ∀ x ∈ base64Enc i, x ≠ 0 ∧ x ≠ 47 := by
      intro x hx
      rw [base64Enc_eq] at hx
      obtain ⟨d, hd, rfl⟩ := List.mem_map.mp hx
      exact base64Table_valid (hdigits _ d hd)
    exact ⟨hlen, hshort (by decide), hshort (by decide), hshort (by decide),
      fun h => (hvalid _ h).2 rfl, fun h => (hvalid _ h).1 rfl⟩

end DeltaFs
