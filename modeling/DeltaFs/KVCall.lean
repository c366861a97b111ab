import DeltaFs.KVSender

/-!
# Batches of records from anywhere

`Compactor::Call` on an arbitrary byte string. A message carries as many pairs
as its first four bytes say, each of them two byte strings with their lengths
before them, as varints. `Prefixed` and `Pairs` say so in terms of the bytes.

The number of pairs is read into an `int`: from 2 ^ 31 on the loop is not
entered, an empty batch is written, and the reply says that all is well.

The loop reads one pair after the other and checks each time that there is enough left, so
it ends, with exactly the pairs there are or with an error (`readKvs_iff`). Bytes that follow
the last pair are ignored, as in the source.
-/

namespace DeltaFs

open Rpc

/-! ## Varints

What the reader accepts, said without the reader. A varint is at most five bytes, of which the
last is the first without its top bit. The value may have up to 35 bits and is cut to 32, as the
shifts of the source do. -/

/-- What the bytes of a varint stand for: seven bits each, the lowest first. -/
def varintValue : Slice → Nat
  | [] => 0
  | b :: bs => b.toNat % 128 + 128 * varintValue bs

/-- A varint of 32 bits: at most five bytes, the top bit set on all bytes but
the last. What is above 32 bits is cut off. -/
inductive Varint : Slice → Nat → Prop where
  | mk {more : Slice} {last : UInt8} : more.length ≤ 4 → (∀ b ∈ more, 128 ≤ b.toNat) →
      last.toNat < 128 → Varint (more ++ [last]) (varintValue (more ++ [last]) % 2 ^ 32)

theorem Varint.ne_nil {len : Slice} {n : Nat} (h : Varint len n) : len ≠ [] := by
  cases h
  exact List.append_ne_nil_of_right_ne_nil _ (List.cons_ne_nil _ _)

theorem Varint.lt {len : Slice} {n : Nat} (h : Varint len n) : n < 2 ^ 32 := by
  cases h
  exact Nat.mod_lt _ (by decide)

/-- The top bit of a byte. -/
theorem top_bit (b : UInt8) : b &&& 128 ≠ 0 ↔ 128 ≤ b.toNat := by
  have hall : ∀ n < 256, (UInt8.ofNat n &&& 128 ≠ 0 ↔ 128 ≤ n) := by decide +kernel
  have h := hall b.toNat b.toNat_lt
  rwa [UInt8.ofNat_toNat] at h

/-- A digit above the bits already there, cut to 32 bits. -/
theorem or_digit_mod {r s : Nat} (hr : r < 2 ^ s) (hs : s ≤ 32) (d : Nat) :
    r ||| ((d <<< s) % 2 ^ 32) = (r + d * 2 ^ s) % 2 ^ 32 := by
  obtain ⟨e, he⟩ := Nat.exists_eq_add_of_le hs
  have hpow : 2 ^ 32 = 2 ^ s * 2 ^ e := by rw [he, Nat.pow_add]
  have hdigit : (d * 2 ^ s) % 2 ^ 32 = 2 ^ s * (d % 2 ^ e) := by
    rw [hpow, Nat.mul_comm d, Nat.mul_mod_mul_left]
  have hlt : d % 2 ^ e + 1 ≤ 2 ^ e := Nat.mod_lt _ (Nat.two_pow_pos e)
  have hsum : r + 2 ^ s * (d % 2 ^ e) < 2 ^ 32 := by
    have hmul := Nat.mul_le_mul_left (2 ^ s) hlt
    rw [Nat.mul_add, ← hpow] at hmul
    omega
  rw [Nat.shiftLeft_eq, Nat.add_mod, hdigit, Nat.or_comm, ← Nat.two_pow_add_eq_or_of_lt hr,
    Nat.mod_eq_of_lt (a := r) (by omega), Nat.mod_eq_of_lt hsum, Nat.add_comm]

/-- The loop of the reader, entered with `r` read from the `s` bytes before. -/
theorem getVarintFrom_iff (input : Slice) : ∀ {s r v : Nat} {rest : Slice},
    (s ≤ 4 → r < 2 ^ (7 * s)) → s ≤ 5 →
    (getVarintFrom 32 28 (7 * s) r input = some (v, rest) ↔
      ∃ more last, input = more ++ last :: rest ∧ more.length + s ≤ 4 ∧
        (∀ b ∈ more, 128 ≤ b.toNat) ∧ last.toNat < 128 ∧
        v = (r + varintValue (more ++ [last]) * 2 ^ (7 * s)) % 2 ^ 32) := by
  induction input with
  | nil =>
    intro s r v rest hr hs
    constructor
    · intro h
      cases h
    · rintro ⟨more, last, h, -⟩
      cases more <;> cases h
  | cons byte p ih =>
    intro s r v rest hr hs
    rw [getVarintFrom]
    by_cases hend : 7 * s ≤ 28
    swap
    · -- the reader gives up after five bytes
      rw [if_neg hend]
      constructor
      · intro h
        cases h
      · rintro ⟨more, last, -, hlen, -⟩
        omega
    have hr' := hr (by omega)
    rw [if_pos hend]
    -- a byte with its top bit set is added at its place and the reader goes on; one without
    -- it is the last
    by_cases htop : byte &&& 128 ≠ 0
    · have hge := (top_bit byte).mp htop
      have hd : byte.toNat &&& 127 = byte.toNat % 128 := toNat_and_127 _
      have hacc : r ||| (((byte.toNat &&& 127) <<< (7 * s)) % 2 ^ 32) =
          (r + byte.toNat % 128 * 2 ^ (7 * s)) % 2 ^ 32 := by
        rw [hd, or_digit_mod hr' (by omega)]
      have hpow : 2 ^ (7 * (s + 1)) = 128 * 2 ^ (7 * s) := by
        rw [show 7 * (s + 1) = 7 * s + 7 by ring, Nat.pow_add, Nat.mul_comm]
      rw [if_pos htop, show 7 * s + 7 = 7 * (s + 1) by ring, hacc]
      have hnext : s + 1 ≤ 4 → (r + byte.toNat % 128 * 2 ^ (7 * s)) % 2 ^ 32 < 2 ^ (7 * (s + 1)) := by
        intro _
        refine (Nat.mod_le _ _).trans_lt ?_
        have hmul : byte.toNat % 128 * 2 ^ (7 * s) ≤ 127 * 2 ^ (7 * s) :=
          Nat.mul_le_mul_right _ (by omega)
        rw [hpow]
        omega
      rw [ih hnext (by omega)]
      have hvalue : ∀ more last, varintValue (byte :: more ++ [last]) * 2 ^ (7 * s) =
          byte.toNat % 128 * 2 ^ (7 * s) + varintValue (more ++ [last]) * 2 ^ (7 * (s + 1)) := by
        intro more last
        rw [List.cons_append, varintValue, hpow]
        ring
      constructor
      · rintro ⟨more, last, rfl, hlen, hmore, hlast, rfl⟩
        refine ⟨byte :: more, last, rfl, by rw [List.length_cons]; omega, ?_, hlast, ?_⟩
        · intro b hb
          cases hb with
          | head => exact hge
          | tail _ hb => exact hmore b hb
        · rw [hvalue, Nat.mod_add_mod, Nat.add_assoc]
      · rintro ⟨more, last, hin, hlen, hmore, hlast, rfl⟩
        cases more with
        | nil =>
          obtain ⟨rfl, -⟩ := List.cons.inj hin
          omega
        | cons b more =>
          obtain ⟨rfl, rfl⟩ := List.cons.inj hin
          rw [List.length_cons] at hlen
          refine ⟨more, last, rfl, by omega, fun b hb => hmore b (List.mem_cons_of_mem _ hb), hlast, ?_⟩
          rw [hvalue, Nat.mod_add_mod, Nat.add_assoc]
    · have hlt : byte.toNat < 128 := Nat.lt_of_not_le fun h => htop ((top_bit byte).mpr h)
      have hmod : byte.toNat % 128 = byte.toNat := Nat.mod_eq_of_lt hlt
      rw [if_neg htop, or_digit_mod hr' (by omega)]
      constructor
      · intro h
        obtain ⟨rfl, rfl⟩ := Prod.mk.inj (Option.some.inj h)
        refine ⟨[], byte, rfl, by rw [List.length_nil]; omega, List.forall_mem_nil _, hlt, ?_⟩
        rw [List.nil_append, varintValue, varintValue, hmod]
        rfl
      · rintro ⟨more, last, hin, -, hmore, -, rfl⟩
        cases more with
        | cons b more =>
          obtain ⟨rfl, -⟩ := List.cons.inj hin
          exact absurd (hmore byte List.mem_cons_self) (by omega)
        | nil =>
          obtain ⟨rfl, rfl⟩ := List.cons.inj hin
          rw [List.nil_append, varintValue, varintValue, hmod]
          rfl

/-! ## Pairs

A byte string begins with `n` pairs if it can be split at the lengths it states itself. The
bytes that are left over are not looked at, and a message may well have some. -/

/-- A byte string begins with `value`, with the length before it. -/
def Prefixed (value rest input : Slice) : Prop :=
  ∃ len, Varint len value.length ∧ input = len ++ value ++ rest

/-- A byte string begins with pairs. -/
def Pairs : List Record → Slice → Prop
  | [], _ => True
  | (key, val) :: kvs, input =>
    ∃ mid rest, Prefixed key mid input ∧ Prefixed val rest mid ∧ Pairs kvs rest

/-- **What `GetLengthPrefixedSlice` accepts.** A varint of at most five bytes, of which
32 bits count, and at least as many bytes after it as it says. -/
theorem getLengthPrefixedSlice_iff {value rest input : Slice} :
    getLengthPrefixedSlice input = some (value, rest) ↔ Prefixed value rest input := by
  have hvarint : ∀ {v : Nat} {p : Slice}, getVarintFrom 32 28 0 0 input = some (v, p) ↔
      ∃ len, Varint len v ∧ input = len ++ p := by
    intro v p
    have h := @getVarintFrom_iff input 0 0 v p (fun _ => by decide) (by decide)
    rw [Nat.mul_zero] at h
    rw [h]
    constructor
    · rintro ⟨more, last, rfl, hlen, hmore, hlast, rfl⟩
      refine ⟨more ++ [last], ?_, by simp⟩
      rw [Nat.zero_add, Nat.pow_zero, Nat.mul_one]
      exact .mk hlen hmore hlast
    · rintro ⟨len, ⟨hlen, hmore, hlast⟩, rfl⟩
      refine ⟨_, _, by simp, hlen, hmore, hlast, ?_⟩
      rw [Nat.zero_add, Nat.pow_zero, Nat.mul_one]
  rw [getLengthPrefixedSlice, getVarint32]
  constructor
  · intro h
    split at h
    · cases h
    rename_i len p hlen
    obtain ⟨⟨v, p'⟩, hv, heq⟩ := Option.map_eq_some_iff.mp hlen
    obtain ⟨rfl, rfl⟩ := Prod.mk.inj heq
    obtain ⟨bytes, hbytes, rfl⟩ := hvarint.mp hv
    have htoNat : (UInt32.ofNat v).toNat = v := by
      rw [UInt32.toNat_ofNat', Nat.mod_eq_of_lt hbytes.lt]
    dsimp only at h
    rw [htoNat] at h
    split at h
    · rename_i hle
      obtain ⟨rfl, rfl⟩ := Prod.mk.inj (Option.some.inj h)
      refine ⟨bytes, ?_, by rw [List.append_assoc, List.take_append_drop]⟩
      rwa [List.length_take_of_le hle]
    · cases h
  · rintro ⟨bytes, hbytes, rfl⟩
    have htoNat : (UInt32.ofNat value.length).toNat = value.length := by
      rw [UInt32.toNat_ofNat', Nat.mod_eq_of_lt hbytes.lt]
    rw [hvarint.mpr ⟨bytes, hbytes, List.append_assoc ..⟩]
    simp only [Option.map_some, htoNat, List.length_append, Nat.le_add_right, if_true,
      List.take_left', List.drop_left']

/-- **What `Call` reads**: as many pairs as it is told to. By induction on the number of
pairs. From right to left every prefix is read with the length it was written with, by
whatever varint. -/
theorem readKvs_iff {kvs : List Record} : ∀ {n : Nat} {input : Slice},
    readKvs n input = some kvs ↔ kvs.length = n ∧ Pairs kvs input := by
  induction kvs with
  | nil =>
    intro n input
    cases n with
    | zero => exact iff_of_true rfl ⟨rfl, trivial⟩
    | succ n =>
      refine iff_of_false (fun h => ?_) fun h => by cases h.1
      rw [readKvs] at h
      split at h
      · cases h
      · split at h
        · cases h
        · obtain ⟨kvs, -, heq⟩ := Option.map_eq_some_iff.mp h
          cases heq
  | cons r kvs ih =>
    obtain ⟨key, val⟩ := r
    intro n input
    cases n with
    | zero => exact iff_of_false (fun h => by cases h) fun h => by cases h.1
    | succ n =>
      rw [readKvs]
      constructor
      · intro h
        split at h
        · cases h
        rename_i key' mid hkey
        split at h
        · cases h
        rename_i val' rest hval
        obtain ⟨kvs', hkvs, heq⟩ := Option.map_eq_some_iff.mp h
        cases heq
        obtain ⟨hlen, hpairs⟩ := ih.mp hkvs
        exact ⟨congrArg Nat.succ hlen, mid, rest, getLengthPrefixedSlice_iff.mp hkey,
          getLengthPrefixedSlice_iff.mp hval, hpairs⟩
      · rintro ⟨hlen, mid, rest, hkey, hval, hpairs⟩
        simp only [getLengthPrefixedSlice_iff.mpr hkey, getLengthPrefixedSlice_iff.mpr hval,
          ih.mpr ⟨Nat.succ.inj hlen, hpairs⟩, Option.map_some]

/-! ## Requests

A message is accepted if it has at least four bytes and begins with as many pairs as these say.
The number of pairs is read into a signed integer, and this is where the source goes wrong for
numbers from `2 ^ 31` on: the loop does not run, and nothing is read or refused. -/

/-- The number of pairs a request says it has. -/
def pairCount (request : Slice) : Nat := (decodeFixed32 (request.take 4)).toNat

/-- A request with as many pairs as it says. -/
def Carries (request : Slice) (kvs : List Record) : Prop :=
  4 ≤ request.length ∧ kvs.length = pairCount request ∧ Pairs kvs (request.drop 4)

/-- The batch `Call` hands to `Write`, if it gets there. -/
def callBatch (request : Slice) : Option (List Record) :=
  match getFixed32 request with
  | .ok (n, input) => readKvs (loopCount n) input
  | _ => none

/-- `Call`, in terms of its batch. -/
theorem call_eq (db : Db) (request : Slice) (write : Status) :
    (∃ kvs, callBatch request = some kvs ∧ db.call request write =
      (if write.isOk then db.writeBatch kvs else db, encodeFixed32 write.errCode)) ∨
    (callBatch request = none ∧ ∃ c msg,
      db.call request write = (db, encodeFixed32 (Status.err c msg).errCode)) := by
  rw [callBatch, Db.call]
  cases getFixed32 request with
  | fault => exact .inr ⟨rfl, _, _, rfl⟩
  | bad => exact .inr ⟨rfl, _, _, rfl⟩
  | ok r =>
    obtain ⟨n, input⟩ := r
    dsimp only
    cases readKvs (loopCount n) input with
    | none => exact .inr ⟨rfl, _, _, rfl⟩
    | some kvs => exact .inl ⟨kvs, rfl, rfl⟩

theorem callBatch_eq {request : Slice} (h : 4 ≤ request.length) :
    callBatch request = readKvs (loopCount (decodeFixed32 (request.take 4))) (request.drop 4) := by
  rw [callBatch, getFixed32, if_neg (by omega), word32_of_le h, ok_bind]

theorem length_of_callBatch {request : Slice} {kvs : List Record}
    (h : callBatch request = some kvs) : 4 ≤ request.length := by
  by_contra hlen
  rw [callBatch, getFixed32, if_pos (by omega)] at h
  cases h

/-- **What a request should do**: its pairs are written as one batch, and the
reply says so; or nothing is written, and the reply says so. -/
structure CallExact (db : Db) (request : Slice) (write : Status) : Prop where
  written : ∀ kvs, Carries request kvs → write = .ok → callBatch request = some kvs ∧
    db.call request write = (db.writeBatch kvs, encodeFixed32 0)
  refused : (¬∃ kvs, Carries request kvs) ∨ write ≠ .ok → ∃ code : UInt32, code ≠ 0 ∧
    db.call request write = (db, encodeFixed32 code)

/-- A number of pairs that is cut off by the sign of an `int`. -/
def CountFits (request : Slice) : Prop := 4 ≤ request.length → pairCount request < 2 ^ 31

/-- **A request is served in full or not at all**, exactly when its number of
pairs is below 2 ^ 31, or the write fails anyway.

`Pairs` describes the bytes of a request from outside, and `readKvs_iff` says that the loop
of the receiver accepts exactly these, with nothing left out and nothing read twice. The
condition is about the loop variable, an `int`: a larger count makes it negative, and the
receiver answers OK to a request it has not read. -/
theorem call_exact_iff (db : Db) (request : Slice) (write : Status) :
    CallExact db request write ↔ (write = .ok → CountFits request) := by
  constructor
  · intro h hwrite hlen
    by_contra hbig
    have hloop : loopCount (decodeFixed32 (request.take 4)) = 0 := if_neg hbig
    have hbatch : callBatch request = some [] := by
      rw [callBatch_eq hlen, hloop, readKvs]
    by_cases hcarries : ∃ kvs, Carries request kvs
    · obtain ⟨kvs, hkvs⟩ := hcarries
      obtain ⟨hb, -⟩ := h.written kvs hkvs hwrite
      obtain rfl := Option.some.inj (hbatch.symm.trans hb)
      have hzero : 0 = pairCount request := hkvs.2.1
      omega
    · obtain ⟨code, hne, hcall⟩ := h.refused (.inl hcarries)
      rcases call_eq db request write with ⟨kvs, -, hcall'⟩ | ⟨hnone, -⟩
      · have hcode := (Prod.mk.inj (hcall.symm.trans hcall')).2
        rw [hwrite] at hcode
        have hdec := congrArg decodeFixed32 hcode
        rw [decodeFixed32_encodeFixed32, decodeFixed32_encodeFixed32] at hdec
        exact hne hdec
      · rw [hbatch] at hnone
        cases hnone
  · intro h
    have hread : ∀ kvs, write = .ok → (callBatch request = some kvs ↔ Carries request kvs) := by
      intro kvs hwrite
      by_cases hlen : 4 ≤ request.length
      · have hloop : loopCount (decodeFixed32 (request.take 4)) = pairCount request :=
          if_pos (h hwrite hlen)
        rw [callBatch_eq hlen, hloop, readKvs_iff, Carries]
        exact ⟨fun hk => ⟨hlen, hk⟩, fun hk => hk.2⟩
      · exact iff_of_false (fun hb => hlen (length_of_callBatch hb)) fun hk => hlen hk.1
    constructor
    · intro kvs hkvs hwrite
      have hb := (hread kvs hwrite).mpr hkvs
      refine ⟨hb, ?_⟩
      rcases call_eq db request write with ⟨kvs', hb', hcall⟩ | ⟨hnone, -⟩
      · obtain rfl := Option.some.inj (hb.symm.trans hb')
        rw [hcall, hwrite]
        rfl
      · rw [hb] at hnone
        cases hnone
    · intro hcase
      rcases call_eq db request write with ⟨kvs, hb, hcall⟩ | ⟨-, c, msg, hcall⟩
      · cases hwrite : write with
        | err c msg =>
          rw [hwrite] at hcall
          exact ⟨_, Status.errCode_err_ne c msg, hcall⟩
        | ok =>
          rcases hcase with hno | hno
          · exact absurd ⟨kvs, (hread kvs hwrite).mp hb⟩ hno
          · exact absurd hwrite hno
      · exact ⟨_, Status.errCode_err_ne c msg, hcall⟩

/-- A message that says it has 2 ^ 31 pairs, and has none. -/
def noPairs : Slice := [0, 0, 0, 128]

/-- It is answered with OK. -/
theorem noPairs_accepted : (∀ db : Db, db.call noPairs .ok = (db, encodeFixed32 0)) ∧
    (¬∃ kvs, Carries noPairs kvs) ∧ ¬CallExact (fun _ => none) noPairs .ok := by
  have hcall : ∀ db : Db, db.call noPairs .ok = (db, encodeFixed32 0) := fun db => rfl
  have hno : ¬∃ kvs, Carries noPairs kvs := by
    rintro ⟨kvs, -, hlen, hpairs⟩
    have hcount : pairCount noPairs = 2 ^ 31 := by decide
    cases kvs with
    | nil =>
      rw [hcount] at hlen
      cases hlen
    | cons r kvs =>
      -- there is nothing after the number
      obtain ⟨mid, rest, ⟨len, hvarint, hin⟩, -⟩ := hpairs
      rw [List.append_assoc] at hin
      exact hvarint.ne_nil (List.append_eq_nil_iff.mp hin.symm).1
  refine ⟨hcall, hno, fun h => ?_⟩
  obtain ⟨code, hne, hcode⟩ := h.refused (.inl hno)
  have hdec := congrArg decodeFixed32 (Prod.mk.inj ((hcall _).symm.trans hcode)).2
  rw [decodeFixed32_encodeFixed32, decodeFixed32_encodeFixed32] at hdec
  exact hne hdec.symm

end DeltaFs
