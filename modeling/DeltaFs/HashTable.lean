import DeltaFs.Coding
import DeltaFs.Linked
import Mathlib.Data.Finset.Card
import Mathlib.Data.Finset.Basic
import Mathlib.Data.List.TakeWhile

/-!
# The hash table

`HashTable` of `hashmap.h`, as it is in memory: an array of buckets, each a
chain of entries through their field `next_hash`. `FindPointer` returns the
place that points to an entry, or the place at the end of its chain, and the
other operations write through that place. A loop that does not come to an end
has no result: `Resize` does not when it makes room for more than `2 ^ 31`
entries.

`HashTable.Holds key hash t E` says that the table holds the entries `E`: every
operation has one lemma that says what it returns and what the table holds then.
-/

namespace DeltaFs

open Linked

/-! ## The memory of a table

A table is an array of buckets, and the links are in the entries themselves. So a place where a
pointer is stored is a bucket or an entry, and `FindPointer` returns such a place. -/

/-- An `E**`: a bucket, or the `next_hash` of an entry. -/
inductive Slot where
  | bucket (i : Nat)
  | nextHash (e : Nat)
  deriving DecidableEq

/-- `HashTable`, with the field `next_hash` of the entries, which nobody else uses. -/
structure HashTable where
  /-- `length_` -/
  length : UInt32
  /-- `elems_` -/
  elems : UInt32
  /-- `list_` -/
  list : Nat → Option Nat
  nextHash : Nat → Option Nat

namespace HashTable

/-! ## The code

The functions of `hashmap.h`, statement by statement, on a memory of `next_hash` fields. A place
is the address of a pointer: a bucket, or the field of an entry. Loops have as fuel the number
of elements, and `none` stands for a walk that has not ended by then; that this does not happen
is part of every lemma below. -/

/-- `*ptr` -/
def read (t : HashTable) : Slot → Option Nat
  | .bucket i => t.list i
  | .nextHash e => t.nextHash e

/-- `*ptr = p` -/
def write (t : HashTable) (ptr : Slot) (p : Option Nat) : HashTable :=
  match ptr with
  | .bucket i => { t with list := Function.update t.list i p }
  | .nextHash e => { t with nextHash := Function.update t.nextHash e p }

/-- `hash & (length_ - 1)` -/
def bucket (t : HashTable) (h : UInt32) : Nat := (h &&& (t.length - 1)).toNat

@[simp] theorem length_write (t : HashTable) (ptr : Slot) (p : Option Nat) :
    (t.write ptr p).length = t.length := by cases ptr <;> rfl

@[simp] theorem elems_write (t : HashTable) (ptr : Slot) (p : Option Nat) :
    (t.write ptr p).elems = t.elems := by cases ptr <;> rfl

@[simp] theorem bucket_write (t : HashTable) (ptr : Slot) (p : Option Nat) (h : UInt32) :
    (t.write ptr p).bucket h = t.bucket h := by rw [bucket, bucket, length_write]

/-- The loop of `Resize` that doubles `new_length`. -/
def growLength (elems : UInt32) : Nat → UInt32 → Option UInt32
  | 0, _ => none
  | fuel + 1, n => if n < elems then growLength elems fuel (n * 2) else some n

section Entries

variable (key : Nat → Slice) (hash : Nat → UInt32)

/-- The loop of `FindPointer`. -/
def walk (t : HashTable) (k : Slice) (h : UInt32) : Nat → Slot → Option Slot
  | 0, _ => none
  | fuel + 1, ptr =>
    match t.read ptr with
    | none => some ptr
    | some e => if hash e ≠ h ∨ k ≠ key e then walk t k h fuel (.nextHash e) else some ptr

/-- `FindPointer`. -/
def findPointer (t : HashTable) (k : Slice) (h : UInt32) : Option Slot :=
  t.walk key hash k h (t.elems.toNat + 1) (.bucket (t.bucket h))

/-- An entry is put into the new list; `count` is kept as its number of elements. -/
def rehash (t : HashTable) (e : Nat) : HashTable :=
  { t with
    nextHash := Function.update t.nextHash e (t.list (t.bucket (hash e)))
    list := Function.update t.list (t.bucket (hash e)) (some e)
    elems := t.elems + 1 }

/-- The entries of an old bucket. -/
def rehashChain : Nat → Option Nat → HashTable → Option HashTable
  | 0, _, _ => none
  | _ + 1, none, t => some t
  | fuel + 1, some e, t => rehashChain fuel (t.nextHash e) (t.rehash hash e)

/-- `Resize`. -/
def resize (t : HashTable) : Option HashTable := do
  let newLength ← growLength t.elems 33 4
  let new ← (List.range t.length.toNat).foldlM
    (fun new i => rehashChain hash (t.elems.toNat + 1) (t.list i) new)
    ⟨newLength, 0, fun _ => none, t.nextHash⟩
  -- the assertion of the end
  if new.elems = t.elems then some new else none

/-- The constructor. -/
def new (nextHash : Nat → Option Nat) : Option HashTable :=
  resize hash ⟨0, 0, fun _ => none, nextHash⟩

/-- The part of `Inject` that puts the entry at a place: `e->next_hash` and `*ptr` are set. -/
def link (t : HashTable) (e : Nat) (ptr : Slot) : HashTable :=
  { t with nextHash := Function.update t.nextHash e ((t.read ptr).bind t.nextHash) }.write ptr (some e)

/-- `Inject`: the entry it replaces is returned. -/
def inject (t : HashTable) (e : Nat) (ptr : Slot) : Option (HashTable × Option Nat) :=
  match t.read ptr with
  | none =>
    let t := { t.link e ptr with elems := t.elems + 1 }
    if t.length < t.elems then (t.resize hash).map (·, none) else some (t, none)
  | some old => some (t.link e ptr, some old)

/-- `Insert`. -/
protected def insert (t : HashTable) (e : Nat) : Option (HashTable × Option Nat) :=
  (t.findPointer key hash (key e) (hash e)).bind (t.inject hash e)

/-- An entry is removed through the place that points to it. -/
def unchain (t : HashTable) (ptr : Slot) (e : Nat) : HashTable :=
  { t.write ptr (t.nextHash e) with elems := t.elems - 1 }

/-- `Remove(E*)`: no effect when the entry is not in the table. -/
def removeEntry (t : HashTable) (e : Nat) : Option (HashTable × Option Nat) :=
  (t.findPointer key hash (key e) (hash e)).map fun ptr =>
    if t.read ptr = some e then (t.unchain ptr e, some e) else (t, none)

/-- `Remove(const Slice&, uint32_t)`. -/
def removeKey (t : HashTable) (k : Slice) (h : UInt32) : Option (HashTable × Option Nat) :=
  (t.findPointer key hash k h).map fun ptr =>
    match t.read ptr with
    | none => (t, none)
    | some e => (t.unchain ptr e, some e)

/-- `*FindPointer(key, hash)` -/
def find (t : HashTable) (k : Slice) (h : UInt32) : Option (Option Nat) :=
  (t.findPointer key hash k h).map t.read

end Entries

@[simp] theorem length_link (t : HashTable) (e : Nat) (ptr : Slot) :
    (t.link e ptr).length = t.length := length_write ..

@[simp] theorem elems_link (t : HashTable) (e : Nat) (ptr : Slot) :
    (t.link e ptr).elems = t.elems := elems_write ..

/-! ## Chains

What the buckets point to, as lists. All writes of the table are of one kind: at a place in a
chain, what follows is replaced. `Chains.splice` says what becomes of the lists then, and the
lemmas about single functions only say which nodes are before and after. -/

/-- The place after the nodes `xs` of a bucket. -/
def after (b : Nat) (xs : List Nat) : Slot := xs.getLast?.elim (.bucket b) .nextHash

@[simp] theorem after_nil (b : Nat) : after b [] = .bucket b := rfl

@[simp] theorem after_concat (b e : Nat) (xs : List Nat) : after b (xs ++ [e]) = .nextHash e := by
  simp [after]

variable {key : Nat → Slice} {hash : Nat → UInt32} {t : HashTable} {E : Finset Nat}
  {b e : Nat} {k : Slice} {h : UInt32} {xs ys : List Nat}

/-- It holds the first of the nodes that follow. -/
theorem read_after (hp : Path t.nextHash (t.list b) (xs ++ ys) none) :
    t.read (after b xs) = ys.head? := by
  obtain ⟨m, hxs, hys⟩ := path_append.mp hp
  rw [← hys.head]
  rcases List.eq_nil_or_concat' xs with rfl | ⟨xs, e, rfl⟩
  · exact hxs
  · rw [after_concat]
    exact (path_concat.mp hxs).2

/-- What the loop of `FindPointer` passes by. -/
def differs (key : Nat → Slice) (hash : Nat → UInt32) (k : Slice) (h : UInt32) (e : Nat) : Bool :=
  hash e ≠ h ∨ k ≠ key e

theorem walk_eq {fuel : Nat} (hp : Path t.nextHash (t.list b) (xs ++ ys) none) (hf : ys.length < fuel) :
    t.walk key hash k h fuel (after b xs) = some (after b (xs ++ ys.takeWhile (differs key hash k h))) := by
  induction ys generalizing xs fuel with
  | nil =>
    obtain ⟨fuel, rfl⟩ : ∃ f, fuel = f + 1 := ⟨fuel - 1, by simp at hf; omega⟩
    rw [walk, read_after hp]
    simp
  | cons y ys ih =>
    obtain ⟨fuel, rfl⟩ : ∃ f, fuel = f + 1 := ⟨fuel - 1, by simp at hf; omega⟩
    rw [walk, read_after hp, List.head?_cons]
    simp only []
    by_cases hy : hash y ≠ h ∨ k ≠ key y
    · have hd : differs key hash k h y = true := decide_eq_true hy
      rw [if_pos hy, List.takeWhile_cons_of_pos hd, ← after_concat b y xs, ih (by simpa using hp)
        (by simpa using hf), List.append_assoc, List.singleton_append]
    · have hd : ¬differs key hash k h y = true := by rwa [differs, decide_eq_true_iff]
      rw [if_neg hy, List.takeWhile_cons_of_neg hd, List.append_nil]

/-- The chains of the buckets: `ch b` are the entries of bucket `b`. -/
structure Chains (hash : Nat → UInt32) (t : HashTable) (ch : Nat → List Nat) (E : Finset Nat) : Prop where
  path : ∀ b < t.length.toNat, Path t.nextHash (t.list b) (ch b) none
  nodup : ∀ b < t.length.toNat, (ch b).Nodup
  mem : ∀ b < t.length.toNat, ∀ e, e ∈ ch b ↔ e ∈ E ∧ t.bucket (hash e) = b

/-- **One chain is changed**: after the nodes `xs` of bucket `b` come the nodes `ys`. The
place that is written through is the link before `ys`, in the node or in the array. -/
theorem Chains.splice {ch : Nat → List Nat} {q : Option Nat} {zs : List Nat} {E' : Finset Nat}
    (hc : t.Chains hash ch E) (hb : b < t.length.toNat) (hch : ch b = xs ++ zs)
    (hq : Path t.nextHash q ys none) (hnd : (xs ++ ys).Nodup)
    (hin : ∀ e, t.bucket (hash e) = b → (e ∈ E' ↔ e ∈ xs ++ ys))
    (hout : ∀ e, t.bucket (hash e) ≠ b → (e ∈ E' ↔ e ∈ E)) (hall : ∀ e ∈ xs ++ ys, t.bucket (hash e) = b) :
    (t.write (after b xs) q).Chains hash (Function.update ch b (xs ++ ys)) E' := by
  have hpath := hc.path b hb
  rw [hch] at hpath
  obtain ⟨m, hxs, -⟩ := path_append.mp hpath
  have hself : Path (t.write (after b xs) q).nextHash ((t.write (after b xs) q).list b) (xs ++ ys) none := by
    rcases List.eq_nil_or_concat' xs with rfl | ⟨xs, e, rfl⟩
    · simpa [write] using hq
    · have hnd' := List.nodup_append.mp hnd
      rw [after_concat]
      refine path_append.mpr ⟨q, ?_, ?_⟩
      · have he : e ∉ xs := fun hin => (List.nodup_append.mp hnd'.1).2.2 e hin e (by simp) rfl
        exact hxs.redirect he
      · exact hq.update fun hin => hnd'.2.2 e (by simp) e hin rfl
  have hother : ∀ b' < t.length.toNat, b' ≠ b →
      Path (t.write (after b xs) q).nextHash ((t.write (after b xs) q).list b') (ch b') none := by
    intro b' hb' hne
    rcases List.eq_nil_or_concat' xs with rfl | ⟨xs, e, rfl⟩
    · rw [after_nil, write]
      simpa [Function.update_of_ne hne] using hc.path b' hb'
    · rw [after_concat]
      refine (hc.path b' hb').update fun hin => hne ?_
      rw [← ((hc.mem b' hb' e).mp hin).2, hall e (by simp)]
  constructor
  · intro b' hb'
    rw [length_write] at hb'
    by_cases hne : b' = b
    · rw [hne, Function.update_self]
      exact hself
    · rw [Function.update_of_ne hne]
      exact hother b' hb' hne
  · intro b' hb'
    rw [length_write] at hb'
    by_cases hne : b' = b
    · rwa [hne, Function.update_self]
    · rw [Function.update_of_ne hne]
      exact hc.nodup b' hb'
  · intro b' hb' e
    rw [length_write] at hb'
    rw [bucket_write]
    by_cases hne : b' = b
    · rw [hne, Function.update_self]
      exact ⟨fun he => ⟨(hin e (hall e he)).mpr he, hall e he⟩, fun he => (hin e he.2).mp he.1⟩
    · rw [Function.update_of_ne hne, hc.mem b' hb']
      exact and_congr_left fun hbe => (hout e (by rwa [hbe])).symm

/-- Writing the `next_hash` of an entry that is not in the table. -/
theorem Chains.free {ch : Nat → List Nat} (hc : t.Chains hash ch E) (he : e ∉ E) (p : Option Nat) :
    ({ t with nextHash := Function.update t.nextHash e p } : HashTable).Chains hash ch E where
  path b hb := (hc.path b hb).update fun hin => he ((hc.mem b hb e).mp hin).1
  nodup := hc.nodup
  mem := hc.mem

theorem Chains.length_le {ch : Nat → List Nat} (hc : t.Chains hash ch E) (hb : b < t.length.toNat) :
    (ch b).length ≤ E.card := by
  rw [← List.toFinset_card_of_nodup (hc.nodup b hb)]
  exact Finset.card_le_card fun e he => ((hc.mem b hb e).mp (List.mem_toFinset.mp he)).1

/-! ## What a table holds

Entries differ in key or hash, and each is in the chain of its hash. There are no more entries
than buckets, since `Resize` keeps it so; the lengths are powers of two, which is what makes the
mask select a bucket. `Place` is what a search returns, and what every other function starts
from. -/

/-- A power of two, from `4` to `2 ^ 31`. -/
def IsLength (n : UInt32) : Prop := ∃ j, 2 ≤ j ∧ j ≤ 31 ∧ n.toNat = 2 ^ j

theorem bucket_eq (hl : IsLength t.length) (h : UInt32) : t.bucket h = h.toNat % t.length.toNat := by
  obtain ⟨j, -, -, hj⟩ := hl
  have hpos : 1 ≤ t.length := by
    rw [UInt32.le_iff_toNat_le, hj]
    exact Nat.one_le_two_pow
  rw [bucket, UInt32.toNat_and, UInt32.toNat_sub_of_le _ _ hpos, hj, UInt32.toNat_one,
    Nat.and_two_pow_sub_one_eq_mod]

theorem bucket_lt (hl : IsLength t.length) (h : UInt32) : t.bucket h < t.length.toNat := by
  rw [bucket_eq hl]
  obtain ⟨j, -, -, hj⟩ := hl
  exact Nat.mod_lt _ (hj ▸ Nat.two_pow_pos j)

/-- A table with the entries `E`, as `Resize` leaves it. -/
structure Built (hash : Nat → UInt32) (t : HashTable) (E : Finset Nat) : Prop where
  length : IsLength t.length
  elems : t.elems.toNat = E.card
  chains : ∃ ch, t.Chains hash ch E

/-- **The invariant**: the table holds the entries `E`, which differ in key or hash, and
there are no more of them than buckets. -/
structure Holds (key : Nat → Slice) (hash : Nat → UInt32) (t : HashTable) (E : Finset Nat) : Prop
    extends Built hash t E where
  inj : ∀ a ∈ E, ∀ b ∈ E, key a = key b → hash a = hash b → a = b
  load : t.elems ≤ t.length

/-- The other entries. -/
def others (key : Nat → Slice) (hash : Nat → UInt32) (E : Finset Nat) (k : Slice) (h : UInt32) :
    Finset Nat := E.filter fun e => ¬(key e = k ∧ hash e = h)

/-- An entry of a key and hash, or none: what a search may return. -/
def Finds (key : Nat → Slice) (hash : Nat → UInt32) (E : Finset Nat) (k : Slice) (h : UInt32)
    (r : Option Nat) : Prop := ∀ e, r = some e ↔ e ∈ E ∧ key e = k ∧ hash e = h

theorem Finds.eq {r r' : Option Nat} (hr : Finds key hash E k h r) (hr' : Finds key hash E k h r') :
    r = r' := by
  apply Option.ext
  intro e
  rw [hr e, hr' e]

theorem Finds.others_none (hf : Finds key hash E k h none) : others key hash E k h = E := by
  refine Finset.filter_true_of_mem fun e he heq => ?_
  cases (hf e).mpr ⟨he, heq⟩

theorem Finds.others_some (hf : Finds key hash E k h (some e)) : others key hash E k h = E.erase e := by
  ext a
  rw [others, Finset.mem_filter, Finset.mem_erase, and_comm]
  refine and_congr_left fun ha => not_congr ⟨fun hk => ?_, fun heq => ?_⟩
  · exact (Option.some.inj ((hf a).mpr ⟨ha, hk⟩)).symm
  · exact ((hf a).mp (congrArg some heq.symm)).2

theorem Finds.card_others (hf : Finds key hash E k h (some e)) :
    (others key hash E k h).card + 1 = E.card := by
  rw [hf.others_some]
  exact Finset.card_erase_add_one ((hf e).mp rfl).1

/-- There is room for one more. -/
theorem card_insert_others (hcard : E.card < 2 ^ 31) :
    (insert e (others key hash E k h)).card ≤ 2 ^ 31 :=
  (Finset.card_insert_le ..).trans (Nat.succ_le_of_lt
    ((Finset.card_le_card (Finset.filter_subset ..)).trans_lt hcard))

/-- The place `FindPointer` looks for: of the entry with a key and hash, or the end of its
chain. -/
def Place (key : Nat → Slice) (hash : Nat → UInt32) (t : HashTable) (E : Finset Nat) (k : Slice)
    (h : UInt32) (ptr : Slot) : Prop :=
  ∃ ch xs ys, t.Chains hash ch E ∧ ch (t.bucket h) = xs ++ ys ∧ ptr = after (t.bucket h) xs ∧
    t.read ptr = ys.head? ∧ Finds key hash E k h ys.head?

theorem Place.finds {ptr : Slot} (hp : t.Place key hash E k h ptr) :
    Finds key hash E k h (t.read ptr) := by
  obtain ⟨ch, xs, ys, -, -, -, hread, hf⟩ := hp
  rwa [hread]

/-- **`FindPointer`**. It returns the place that points to the entry, or the place at the
end of the chain of the hash; an entry can be put there later, as long as the table has not
changed. -/
theorem Holds.findPointer (ht : t.Holds key hash E) (k : Slice) (h : UInt32) :
    ∃ ptr, t.findPointer key hash k h = some ptr ∧ t.Place key hash E k h ptr := by
  obtain ⟨ch, hc⟩ := ht.chains
  have hlt := bucket_lt ht.length h
  have hpath := hc.path _ hlt
  have hfuel : (ch (t.bucket h)).length < t.elems.toNat + 1 := by
    rw [ht.elems]
    exact Nat.lt_succ_of_le (hc.length_le hlt)
  have happ := List.takeWhile_append_dropWhile (p := differs key hash k h) (l := ch (t.bucket h))
  have hwalk : t.walk key hash k h (t.elems.toNat + 1) (after (t.bucket h) []) = _ := walk_eq hpath hfuel
  refine ⟨_, hwalk, ch, _, _, hc, happ.symm, rfl, read_after (happ.symm ▸ hpath), fun e => ?_⟩
  have hhead : ∀ e, (List.dropWhile (differs key hash k h) (ch (t.bucket h))).head? = some e →
      e ∈ E ∧ key e = k ∧ hash e = h := by
    intro e he
    have hin : e ∈ ch (t.bucket h) := happ ▸ List.mem_append_right _ (List.mem_of_mem_head? he)
    have hnot := List.head?_dropWhile_not (differs key hash k h) (ch (t.bucket h))
    rw [he] at hnot
    have hd : ¬(hash e ≠ h ∨ k ≠ key e) := of_decide_eq_false hnot
    rw [not_or, not_not, not_not] at hd
    exact ⟨((hc.mem _ hlt e).mp hin).1, hd.2.symm, hd.1⟩
  refine ⟨hhead e, ?_⟩
  rintro ⟨he, rfl, rfl⟩
  have hin : e ∈ ch (t.bucket (hash e)) := (hc.mem _ hlt e).mpr ⟨he, rfl⟩
  rw [← happ, List.mem_append] at hin
  have hnot : e ∉ List.takeWhile (differs key hash (key e) (hash e)) (ch (t.bucket (hash e))) := by
    intro hin
    simpa [differs] using List.mem_takeWhile_imp hin
  -- the entry is behind what the loop passes by, and so is what it stops at: they are one
  cases hys : (List.dropWhile (differs key hash (key e) (hash e)) (ch (t.bucket (hash e)))).head? with
  | none =>
    rw [List.head?_eq_none_iff.mp hys] at hin
    exact absurd (hin.resolve_left hnot) List.not_mem_nil
  | some y =>
    obtain ⟨hy, hk, hh⟩ := hhead y hys
    rw [ht.inj y hy e he hk hh]

/-! ## Resizing

The entries are moved one by one into new buckets, from the front of each old chain to the front
of a new one. The order in a chain is not kept, and nothing depends on it. The invariant of the
loop is that the old chains from here on and the new ones hold the entries together. -/

theorem growLength_eq {elems : UInt32} (hel : elems.toNat ≤ 2 ^ 31) {fuel j : Nat} (hj : 2 ≤ j)
    (hj' : j ≤ 31) (hfuel : 31 < fuel + j) {n : UInt32} (hn : n.toNat = 2 ^ j) :
    ∃ m, growLength elems fuel n = some m ∧ IsLength m ∧ elems ≤ m := by
  induction fuel generalizing j n with
  | zero => omega
  | succ fuel ih =>
    rw [growLength]
    by_cases hlt : n < elems
    · rw [if_pos hlt]
      rw [UInt32.lt_iff_toNat_lt, hn] at hlt
      have hj31 : j < 31 := (Nat.pow_lt_pow_iff_right (by decide)).mp (hlt.trans_le hel)
      refine ih (Nat.le_succ_of_le hj) hj31 (by omega) ?_
      have hle : 2 ^ j ≤ 2 ^ 30 := Nat.pow_le_pow_right (by decide) (by omega)
      rw [UInt32.toNat_mul, hn, Nat.pow_succ]
      exact Nat.mod_eq_of_lt (by show 2 ^ j * 2 < 2 ^ 32; omega)
    · rw [if_neg hlt]
      exact ⟨n, rfl, ⟨j, hj, hj', hn⟩, UInt32.not_lt.mp hlt⟩

/-- An entry is put into the new list. -/
theorem Built.rehash (hb : t.Built hash E) (he : e ∉ E) (hcard : E.card < 2 ^ 31) :
    (t.rehash hash e).Built hash (insert e E) := by
  obtain ⟨ch, hc⟩ := hb.chains
  have hlt := bucket_lt hb.length (hash e)
  have hnot : e ∉ ch (t.bucket (hash e)) := fun hin => he ((hc.mem _ hlt e).mp hin).1
  have hfree := hc.free he (t.list (t.bucket (hash e)))
  have hpath : Path (Function.update t.nextHash e (t.list (t.bucket (hash e)))) (some e)
      (e :: ch (t.bucket (hash e))) none := (hc.path _ hlt).push hnot
  have hout : ∀ a, t.bucket (hash a) ≠ t.bucket (hash e) → (a ∈ insert e E ↔ a ∈ E) := by
    intro a ha
    rw [Finset.mem_insert, or_iff_right]
    rintro rfl
    exact ha rfl
  have hnd : ([] ++ e :: ch (t.bucket (hash e))).Nodup :=
    List.nodup_cons.mpr ⟨hnot, hc.nodup _ hlt⟩
  have hin : ∀ a, t.bucket (hash a) = t.bucket (hash e) →
      (a ∈ insert e E ↔ a ∈ [] ++ e :: ch (t.bucket (hash e))) := by
    intro a ha
    rw [Finset.mem_insert, List.nil_append, List.mem_cons, hc.mem _ hlt, and_iff_left ha]
  have hall : ∀ a ∈ [] ++ e :: ch (t.bucket (hash e)), t.bucket (hash a) = t.bucket (hash e) := by
    rintro a (_ | ⟨_, ha⟩)
    · rfl
    · exact ((hc.mem _ hlt a).mp ha).2
  have hs := hfree.splice hlt (List.nil_append _).symm hpath hnd hin hout hall
  refine ⟨hb.length, ?_, _, hs.path, hs.nodup, hs.mem⟩
  show (t.elems + 1).toNat = _
  rw [Finset.card_insert_of_notMem he, UInt32.toNat_add, hb.elems]
  exact Nat.mod_eq_of_lt (by show E.card + 1 < 2 ^ 32; omega)

/-- The entries of an old bucket are put into the new list. -/
theorem Built.rehashChain {p : Option Nat} {fuel : Nat} (hb : t.Built hash E)
    (hp : Path t.nextHash p xs none) (hnd : xs.Nodup) (hdisj : ∀ e ∈ xs, e ∉ E)
    (hcard : E.card + xs.length ≤ 2 ^ 31) (hfuel : xs.length < fuel) :
    ∃ t', rehashChain hash fuel p t = some t' ∧ t'.Built hash (E ∪ xs.toFinset) ∧
      t'.length = t.length ∧ ∀ e ∉ xs, t'.nextHash e = t.nextHash e := by
  induction xs generalizing t E p fuel with
  | nil =>
    obtain ⟨fuel, rfl⟩ : ∃ f, fuel = f + 1 := ⟨fuel - 1, by simp at hfuel; omega⟩
    obtain rfl : p = none := hp
    exact ⟨t, rfl, by simpa using hb, rfl, fun _ _ => rfl⟩
  | cons x xs ih =>
    obtain ⟨fuel, rfl⟩ : ∃ f, fuel = f + 1 := ⟨fuel - 1, by simp at hfuel; omega⟩
    obtain ⟨rfl, hp⟩ := hp
    obtain ⟨hx, hnd⟩ := List.nodup_cons.mp hnd
    simp only [List.length_cons] at hcard hfuel
    have hxE := hdisj x (List.mem_cons_self ..)
    have hdisj' : ∀ e ∈ xs, e ∉ insert x E := by
      intro e he hin
      rcases Finset.mem_insert.mp hin with rfl | hin
      · exact hx he
      · exact hdisj e (List.mem_cons_of_mem x he) hin
    have hcard' : (insert x E).card + xs.length ≤ 2 ^ 31 := by
      rw [Finset.card_insert_of_notMem hxE]
      omega
    obtain ⟨t', hrun, hb', hlen, hframe⟩ := ih (hb.rehash hxE (by omega)) (hp.update hx) hnd hdisj'
      hcard' (Nat.lt_of_succ_lt_succ hfuel)
    refine ⟨t', hrun, ?_, hlen, fun e he => ?_⟩
    · rwa [List.toFinset_cons, Finset.union_insert, ← Finset.insert_union]
    · rw [hframe e fun hin => he (List.mem_cons_of_mem x hin)]
      exact Function.update_of_ne (ne_of_mem_of_not_mem (List.mem_cons_self ..) he).symm ..

/-- The entries of a list of old buckets. -/
theorem Built.foldlM_rehashChain {ch : Nat → List Nat} {list : Nat → Option Nat} {fuel : Nat} {is : List Nat}
    (hb : t.Built hash E) (hp : ∀ i ∈ is, Path t.nextHash (list i) (ch i) none)
    (hnd : (is.flatMap ch).Nodup) (hdisj : ∀ e ∈ is.flatMap ch, e ∉ E)
    (hcard : E.card + (is.flatMap ch).length ≤ 2 ^ 31) (hfuel : ∀ i ∈ is, (ch i).length < fuel) :
    ∃ t', is.foldlM (fun new i => HashTable.rehashChain hash fuel (list i) new) t = some t' ∧
      t'.Built hash (E ∪ (is.flatMap ch).toFinset) ∧ t'.length = t.length := by
  induction is generalizing t E with
  | nil => exact ⟨t, rfl, by simpa using hb, rfl⟩
  | cons i is ih =>
    rw [List.flatMap_cons] at hnd hdisj hcard
    obtain ⟨hndi, hnd, hapart⟩ := List.nodup_append.mp hnd
    rw [List.length_append] at hcard
    obtain ⟨t₁, hrun₁, hb₁, hlen₁, hframe⟩ := hb.rehashChain (hp i (List.mem_cons_self ..)) hndi
      (fun e he => hdisj e (List.mem_append_left _ he)) (by omega) (hfuel i (List.mem_cons_self ..))
    have hp₁ : ∀ j ∈ is, Path t₁.nextHash (list j) (ch j) none := by
      intro j hj
      refine (hp j (List.mem_cons_of_mem i hj)).congr fun e he => hframe e fun hin => ?_
      exact hapart e hin e (List.mem_flatMap.mpr ⟨j, hj, he⟩) rfl
    have hdisj₁ : ∀ e ∈ is.flatMap ch, e ∉ E ∪ (ch i).toFinset := by
      intro e he hin
      rcases Finset.mem_union.mp hin with hin | hin
      · exact hdisj e (List.mem_append_right _ he) hin
      · exact hapart e (List.mem_toFinset.mp hin) e he rfl
    have hcard₁ : (E ∪ (ch i).toFinset).card ≤ E.card + (ch i).length :=
      (Finset.card_union_le ..).trans (Nat.add_le_add_left (List.toFinset_card_le _) _)
    obtain ⟨t', hrun, hb', hlen⟩ := ih hb₁ hp₁ hnd hdisj₁ (by omega)
      fun j hj => hfuel j (List.mem_cons_of_mem i hj)
    refine ⟨t', ?_, ?_, hlen.trans hlen₁⟩
    · rw [List.foldlM_cons, hrun₁]
      exact hrun
    · rwa [List.flatMap_cons, List.toFinset_append, ← Finset.union_assoc]

/-- **`Resize`**: the same entries, in buckets of which there are enough. Each chain is
taken apart node by node, and each node put at the front of its new chain. The number of
buckets is a power of two, and must not overflow. -/
theorem Chains.resize {ch : Nat → List Nat} (hc : t.Chains hash ch E)
    (hlt : ∀ e ∈ E, t.bucket (hash e) < t.length.toNat) (hel : t.elems.toNat = E.card)
    (hcard : E.card ≤ 2 ^ 31) :
    ∃ t', t.resize hash = some t' ∧ t'.Built hash E ∧ t'.elems ≤ t'.length := by
  obtain ⟨n, hgrow, hn, hle⟩ :=
    growLength_eq (hel ▸ hcard) le_rfl (by decide) (show 31 < 33 + 2 by decide)
      (show (4 : UInt32).toNat = 2 ^ 2 from rfl)
  have hstart : Built hash ⟨n, 0, fun _ => none, t.nextHash⟩ ∅ :=
    ⟨hn, rfl, fun _ => [], fun _ _ => rfl, fun _ _ => List.nodup_nil, by simp⟩
  have hmem : ∀ e, e ∈ (List.range t.length.toNat).flatMap ch ↔ e ∈ E := by
    intro e
    rw [List.mem_flatMap]
    constructor
    · rintro ⟨b, hb, he⟩
      exact ((hc.mem b (List.mem_range.mp hb) e).mp he).1
    · intro he
      exact ⟨_, List.mem_range.mpr (hlt e he), (hc.mem _ (hlt e he) e).mpr ⟨he, rfl⟩⟩
  have hnd : ((List.range t.length.toNat).flatMap ch).Nodup := by
    refine List.nodup_flatMap.mpr ⟨fun b hb => hc.nodup b (List.mem_range.mp hb), ?_⟩
    refine List.nodup_range.pairwise_of_forall_ne fun b hb b' hb' hne e he he' => hne ?_
    rw [← ((hc.mem b (List.mem_range.mp hb) e).mp he).2,
      ((hc.mem b' (List.mem_range.mp hb') e).mp he').2]
  have hset : ((List.range t.length.toNat).flatMap ch).toFinset = E := by
    ext e
    rw [List.mem_toFinset, hmem]
  have hlen : ((List.range t.length.toNat).flatMap ch).length = E.card := by
    rw [← hset, List.toFinset_card_of_nodup hnd]
  have hfuel : ∀ i ∈ List.range t.length.toNat, (ch i).length < t.elems.toNat + 1 := fun i hi => by
    rw [hel]
    exact Nat.lt_succ_of_le (hc.length_le (List.mem_range.mp hi))
  obtain ⟨t', hrun, hb, hlen'⟩ := hstart.foldlM_rehashChain
    (fun i hi => hc.path i (List.mem_range.mp hi)) hnd (fun _ _ => Finset.notMem_empty _)
    (by rw [hlen, Finset.card_empty, Nat.zero_add]; exact hcard) hfuel
  rw [hset, Finset.empty_union] at hb
  have helems : t'.elems = t.elems := UInt32.toNat_inj.mp (hb.elems.trans hel.symm)
  refine ⟨t', ?_, hb, by rwa [helems, hlen']⟩
  rw [HashTable.resize, hgrow]
  simp only [Option.bind_eq_bind, Option.bind_some, hrun]
  rw [if_pos helems]

/-- **The constructor**. -/
theorem new_holds (key : Nat → Slice) (hash : Nat → UInt32) (nextHash : Nat → Option Nat) :
    ∃ t, new hash nextHash = some t ∧ t.Holds key hash ∅ := by
  have hc : Chains hash ⟨0, 0, fun _ => none, nextHash⟩ (fun _ => []) ∅ :=
    ⟨fun _ _ => rfl, fun _ _ => List.nodup_nil, by simp⟩
  obtain ⟨t, hrun, hb, hload⟩ := hc.resize (fun _ he => absurd he (Finset.notMem_empty _)) rfl
    (by simp)
  exact ⟨t, hrun, hb, fun a ha => absurd ha (Finset.notMem_empty a), hload⟩

/-! ## The operations

Each starts with a search, and then writes at the place found. There are two kinds: the entry at
the place is replaced or taken out, or there is none and the new one goes to the end of the
chain. -/

theorem mem_append_tail {a : Nat} (hnd : (xs ++ ys).Nodup) :
    a ∈ xs ++ ys.tail ↔ a ∈ xs ++ ys ∧ ys.head? ≠ some a := by
  cases ys with
  | nil => simp
  | cons y ys =>
    have hy := (List.nodup_cons.mp (List.nodup_middle.mp hnd)).1
    simp only [List.tail_cons, List.mem_append, List.mem_cons, List.head?_cons, ne_eq, Option.some.injEq]
    constructor
    · intro ha
      exact ⟨ha.imp_right .inr, fun heq => hy (List.mem_append.mpr (heq ▸ ha))⟩
    · rintro ⟨ha | rfl | ha, hne⟩
      · exact .inl ha
      · exact absurd rfl hne
      · exact .inr ha

/-- The chain a place is in, without the entry it points to. -/
theorem Place.chain {ptr : Slot} (ht : t.Holds key hash E) (hp : t.Place key hash E k h ptr) :
    ∃ ch xs ys, t.Chains hash ch E ∧ ch (t.bucket h) = xs ++ ys ∧ ptr = after (t.bucket h) xs ∧
      Path t.nextHash ((t.read ptr).bind t.nextHash) ys.tail none ∧ (xs ++ ys.tail).Nodup ∧
      (∀ e, t.bucket (hash e) = t.bucket h → (e ∈ others key hash E k h ↔ e ∈ xs ++ ys.tail)) ∧
      ∀ e ∈ xs ++ ys.tail, e ∈ E ∧ t.bucket (hash e) = t.bucket h := by
  obtain ⟨ch, xs, ys, hc, hch, hptr, hread, hf⟩ := hp
  have hlt := bucket_lt ht.length h
  have hnd := hch ▸ hc.nodup _ hlt
  have hpath := hc.path _ hlt
  rw [hch] at hpath
  obtain ⟨m, -, hys⟩ := path_append.mp hpath
  refine ⟨ch, xs, ys, hc, hch, hptr, ?_, ?_, fun e he => ?_, fun e he => ?_⟩
  · rw [hread]
    cases ys with
    | nil => rfl
    | cons y ys => exact hys.2
  · exact hnd.sublist (List.Sublist.append_left (List.tail_sublist ys) xs)
  · rw [mem_append_tail hnd, ← hch, hc.mem _ hlt, others, Finset.mem_filter, and_iff_left he]
    exact and_congr_right fun heE => not_congr ((hf e).trans (and_iff_right heE)).symm
  · exact (hc.mem _ hlt e).mp (hch ▸ ((mem_append_tail hnd).mp he).1)

theorem mem_others_of_bucket_ne {a : Nat} (hne : t.bucket (hash a) ≠ t.bucket h) :
    a ∈ others key hash E k h ↔ a ∈ E := by
  rw [others, Finset.mem_filter, and_iff_left]
  rintro ⟨-, rfl⟩
  exact hne rfl

/-- Writing a new entry to a place. -/
theorem Place.link {ptr : Slot} (ht : t.Holds key hash E)
    (hp : t.Place key hash E (key e) (hash e) ptr) (he : e ∉ E) :
    ∃ ch, (t.link e ptr).Chains hash ch (insert e (others key hash E (key e) (hash e))) := by
  obtain ⟨ch, xs, ys, hc, hch, rfl, hpath, hnd, hmem, hall⟩ := hp.chain ht
  have hnot : e ∉ xs ++ ys.tail := fun hin => he (hall e hin).1
  have hpush := hpath.push fun hin => hnot (List.mem_append_right xs hin)
  have hne : ∀ a, t.bucket (hash a) ≠ t.bucket (hash e) → a ≠ e := by
    rintro a ha rfl
    exact ha rfl
  refine ⟨_, (hc.free he _).splice (bucket_lt ht.length _) hch hpush ?_ (fun a ha => ?_) (fun a ha => ?_)
    fun a ha => ?_⟩
  · exact List.nodup_middle.mpr (List.nodup_cons.mpr ⟨hnot, hnd⟩)
  · rw [Finset.mem_insert, hmem a ha, List.mem_append, List.mem_append, List.mem_cons, or_left_comm]
  · rw [Finset.mem_insert, or_iff_right (hne a ha), mem_others_of_bucket_ne (t := t) ha]
  · rw [List.mem_append, List.mem_cons, or_left_comm, ← List.mem_append] at ha
    rcases ha with rfl | ha
    · rfl
    · exact (hall a ha).2

/-- Writing what comes after the entry that a place points to. -/
theorem Place.drop {ptr : Slot} (ht : t.Holds key hash E) (hp : t.Place key hash E k h ptr)
    (hread : t.read ptr = some e) :
    ∃ ch, (t.write ptr (t.nextHash e)).Chains hash ch (others key hash E k h) := by
  obtain ⟨ch, xs, ys, hc, hch, rfl, hpath, hnd, hmem, hall⟩ := hp.chain ht
  rw [hread] at hpath
  exact ⟨_, hc.splice (bucket_lt ht.length _) hch hpath hnd hmem
    (fun a ha => mem_others_of_bucket_ne ha) fun a ha => (hall a ha).2⟩

theorem Holds.inj_insert (ht : t.Holds key hash E) :
    ∀ a ∈ insert e (others key hash E (key e) (hash e)),
      ∀ b ∈ insert e (others key hash E (key e) (hash e)), key a = key b → hash a = hash b → a = b := by
  intro a ha b hb hk hh
  simp only [others, Finset.mem_insert, Finset.mem_filter] at ha hb
  rcases ha with rfl | ⟨ha, hna⟩ <;> rcases hb with rfl | ⟨hb, hnb⟩
  · rfl
  · exact absurd ⟨hk.symm, hh.symm⟩ hnb
  · exact absurd ⟨hk, hh⟩ hna
  · exact ht.inj a ha b hb hk hh

/-- **`Inject`**: the new entry takes the place of the old one of its key and hash, which is
returned. -/
theorem Holds.inject {ptr : Slot} (ht : t.Holds key hash E)
    (hp : t.Place key hash E (key e) (hash e) ptr) (he : e ∉ E)
    (hroom : (insert e (others key hash E (key e) (hash e))).card ≤ 2 ^ 31) :
    ∃ t', t.inject hash e ptr = some (t', t.read ptr) ∧
      t'.Holds key hash (insert e (others key hash E (key e) (hash e))) := by
  obtain ⟨ch, hc⟩ := hp.link ht he
  have hf := hp.finds
  have hcard : (insert e (others key hash E (key e) (hash e))).card =
      (others key hash E (key e) (hash e)).card + 1 :=
    Finset.card_insert_of_notMem fun hin => he (Finset.mem_filter.mp hin).1
  have hlen : IsLength (t.link e ptr).length := (t.length_link e ptr).symm ▸ ht.length
  rw [HashTable.inject]
  cases hread : t.read ptr with
  | some o =>
    rw [hread] at hf
    refine ⟨_, rfl, ⟨hlen, ?_, ch, hc⟩, ht.inj_insert, ?_⟩
    · rw [elems_link, hcard, hf.card_others]
      exact ht.elems
    · rw [elems_link, length_link]
      exact ht.load
  | none =>
    rw [hread] at hf
    have hel : (t.elems + 1).toNat = (insert e (others key hash E (key e) (hash e))).card := by
      rw [hcard, hf.others_none] at hroom ⊢
      rw [UInt32.toNat_add, ht.elems]
      exact Nat.mod_eq_of_lt (by show E.card + 1 < 2 ^ 32; omega)
    have hc' : Chains hash { t.link e ptr with elems := t.elems + 1 } ch
        (insert e (others key hash E (key e) (hash e))) := ⟨hc.path, hc.nodup, hc.mem⟩
    simp only []
    split
    · obtain ⟨t', hrun, hb, hload⟩ := hc'.resize (fun a _ => bucket_lt hlen _) hel hroom
      refine ⟨t', ?_, hb, ht.inj_insert, hload⟩
      rw [hrun, Option.map_some]
    · rename_i hle
      exact ⟨_, rfl, ⟨hlen, hel, ch, hc'⟩, ht.inj_insert, UInt32.not_lt.mp hle⟩

/-- **`Insert`**. -/
theorem Holds.insert (ht : t.Holds key hash E) (he : e ∉ E)
    (hroom : (insert e (others key hash E (key e) (hash e))).card ≤ 2 ^ 31) :
    ∃ t' r, t.insert key hash e = some (t', r) ∧ Finds key hash E (key e) (hash e) r ∧
      t'.Holds key hash (insert e (others key hash E (key e) (hash e))) := by
  obtain ⟨ptr, hptr, hp⟩ := ht.findPointer (key e) (hash e)
  obtain ⟨t', hrun, ht'⟩ := ht.inject hp he hroom
  refine ⟨t', _, ?_, hp.finds, ht'⟩
  rw [HashTable.insert, hptr, Option.bind_some, hrun]

/-- An entry is removed through the place that points to it. -/
theorem Holds.unchain {ptr : Slot} (ht : t.Holds key hash E) (hp : t.Place key hash E k h ptr)
    (hread : t.read ptr = some e) : (t.unchain ptr e).Holds key hash (others key hash E k h) := by
  obtain ⟨ch, hc⟩ := hp.drop ht hread
  have hcard := (hread ▸ hp.finds).card_others
  have hel : (t.elems - 1).toNat = (others key hash E k h).card := by
    rw [UInt32.toNat_sub_of_le _ _ (by rw [UInt32.le_iff_toNat_le, ht.elems]; exact hcard ▸ Nat.le_add_left ..),
      ht.elems, ← hcard]
    rfl
  have hlen : (t.unchain ptr e).length = t.length := length_write ..
  refine ⟨⟨hlen ▸ ht.length, hel, ch, hc.path, hc.nodup, hc.mem⟩, fun a ha b hb => ?_, ?_⟩
  · exact ht.inj a (Finset.mem_filter.mp ha).1 b (Finset.mem_filter.mp hb).1
  · rw [hlen, UInt32.le_iff_toNat_le]
    have hload := UInt32.le_iff_toNat_le.mp ht.load
    rw [ht.elems] at hload
    show (t.elems - 1).toNat ≤ _
    omega

/-- **`Remove`**, of a key and hash. -/
theorem Holds.removeKey (ht : t.Holds key hash E) (k : Slice) (h : UInt32) :
    ∃ t' r, t.removeKey key hash k h = some (t', r) ∧ Finds key hash E k h r ∧
      t'.Holds key hash (others key hash E k h) := by
  obtain ⟨ptr, hptr, hp⟩ := ht.findPointer k h
  have hf := hp.finds
  rw [HashTable.removeKey, hptr, Option.map_some]
  cases hread : t.read ptr with
  | none =>
    rw [hread] at hf
    exact ⟨t, none, rfl, hf, hf.others_none.symm ▸ ht⟩
  | some e => exact ⟨_, some e, rfl, hread ▸ hf, ht.unchain hp hread⟩

/-- **`Remove`**, of an entry: no effect when it is not in the table. -/
theorem Holds.removeEntry (ht : t.Holds key hash E) (e : Nat) :
    ∃ t', t.removeEntry key hash e = some (t', if e ∈ E then some e else none) ∧
      t'.Holds key hash (E.erase e) := by
  obtain ⟨ptr, hptr, hp⟩ := ht.findPointer (key e) (hash e)
  have hf := hp.finds
  rw [HashTable.removeEntry, hptr, Option.map_some]
  by_cases he : e ∈ E
  · have hread : t.read ptr = some e := (hf e).mpr ⟨he, rfl, rfl⟩
    rw [if_pos hread, if_pos he]
    refine ⟨_, rfl, ?_⟩
    rw [hread] at hf
    rw [← hf.others_some]
    exact ht.unchain hp hread
  · have hread : t.read ptr ≠ some e := fun hread => he ((hf e).mp hread).1
    rw [if_neg hread, if_neg he, Finset.erase_eq_of_notMem he]
    exact ⟨t, rfl, ht⟩

/-- **`*FindPointer`**. -/
theorem Holds.find (ht : t.Holds key hash E) (k : Slice) (h : UInt32) :
    ∃ r, t.find key hash k h = some r ∧ Finds key hash E k h r := by
  obtain ⟨ptr, hptr, hp⟩ := ht.findPointer k h
  exact ⟨_, by rw [HashTable.find, hptr, Option.map_some], hp.finds⟩

/-! ## Entries outside the table

Users of the table write the fields of an entry before they put it in, and keep the place of a
search meanwhile. The invariant does not depend on entries that are not in the table, and a
place stays good while only those are written. -/

section Outside

variable {key' : Nat → Slice} {hash' : Nat → UInt32}

theorem Chains.congr {ch : Nat → List Nat} (hc : t.Chains hash ch E) (hh : ∀ e ∈ E, hash' e = hash e) :
    t.Chains hash' ch E where
  path := hc.path
  nodup := hc.nodup
  mem b hb e := by
    rw [hc.mem b hb e]
    exact and_congr_right fun he => by rw [hh e he]

theorem Finds.congr {r : Option Nat} (hf : Finds key hash E k h r) (hk : ∀ e ∈ E, key' e = key e)
    (hh : ∀ e ∈ E, hash' e = hash e) : Finds key' hash' E k h r := by
  intro e
  rw [hf e]
  exact and_congr_right fun he => by rw [hk e he, hh e he]

/-- The keys and hashes of other entries do not matter. -/
theorem Holds.congr (ht : t.Holds key hash E) (hk : ∀ e ∈ E, key' e = key e)
    (hh : ∀ e ∈ E, hash' e = hash e) : t.Holds key' hash' E := by
  obtain ⟨ch, hc⟩ := ht.chains
  refine ⟨⟨ht.length, ht.elems, ch, hc.congr hh⟩, fun a ha b hb hkab hhab => ?_, ht.load⟩
  rw [hk a ha, hk b hb] at hkab
  rw [hh a ha, hh b hb] at hhab
  exact ht.inj a ha b hb hkab hhab

/-- A place that has been looked up stays good while an entry is made to be put there. -/
theorem Place.congr {ptr : Slot} (hp : t.Place key hash E k h ptr) (hk : ∀ e ∈ E, key' e = key e)
    (hh : ∀ e ∈ E, hash' e = hash e) : t.Place key' hash' E k h ptr := by
  obtain ⟨ch, xs, ys, hc, hch, hptr, hread, hf⟩ := hp
  exact ⟨ch, xs, ys, hc.congr hh, hch, hptr, hread, hf.congr hk hh⟩

end Outside

end HashTable

end DeltaFs
