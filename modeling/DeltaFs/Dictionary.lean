import DeltaFs.HashTable
import Mathlib.Data.Finmap

/-!
# A hash table is a finite map

Any sequence of operations on a `HashTable` returns what it does on a finite map
from keys and hashes to entries (`HashTable.runs_as_map`): across collisions and
`Resize`, and when the place of a failed search is kept and the new entry put
there, as `AcquireDir`, `AcquirePartition` and `FetchDir` do. The hash is
whatever the client passes.

`Refines` relates the table in memory to the map. An operation is one lemma of `HashTable`
read at both levels; a sequence of them is an induction, in which memory is threaded
through and the map is what is compared.
-/

namespace DeltaFs

namespace HashTable

/-- A table, and the fields `key` and `hash` of the entries. -/
structure Memory where
  key : Nat → Slice
  hash : Nat → UInt32
  table : HashTable

/-- A finite map, and the fields `key` and `hash` of the entries. -/
structure Dict where
  key : Nat → Slice
  hash : Nat → UInt32
  map : Finmap fun _ : Slice × UInt32 => Nat

/-- What is called. -/
inductive Op where
  /-- an entry is made and inserted -/
  | insert (e : Nat) (k : Slice) (h : UInt32)
  /-- a search; if there is no entry, one is made and put where the search ended -/
  | fetch (e : Nat) (k : Slice) (h : UInt32)
  | removeEntry (e : Nat)
  | removeKey (k : Slice) (h : UInt32)
  | find (k : Slice) (h : UInt32)

/-! ## The two levels

The same operations, once on the table in memory and once on a finite map. An operation that has
kept the place of a failed search is one of them (`Insert` after `FindPointer`), because this is
how the table is used: the entry is made after the search, and put where the search ended. -/

/-- The operations on the table. -/
def Memory.step (m : Memory) : Op → Option (Memory × Option Nat)
  | .insert e k h =>
    let key := Function.update m.key e k
    let hash := Function.update m.hash e h
    (m.table.insert key hash e).map fun x => (⟨key, hash, x.1⟩, x.2)
  | .fetch e k h =>
    (m.table.findPointer m.key m.hash k h).bind fun pos =>
      match m.table.read pos with
      | some e => some (m, some e)
      | none =>
        let key := Function.update m.key e k
        let hash := Function.update m.hash e h
        (m.table.inject hash e pos).map fun x => (⟨key, hash, x.1⟩, some e)
  | .removeEntry e => (m.table.removeEntry m.key m.hash e).map fun x => ({ m with table := x.1 }, x.2)
  | .removeKey k h => (m.table.removeKey m.key m.hash k h).map fun x => ({ m with table := x.1 }, x.2)
  | .find k h => (m.table.find m.key m.hash k h).map fun r => (m, r)

/-- The operations on the map. -/
def Dict.step (d : Dict) : Op → Dict × Option Nat
  | .insert e k h =>
    (⟨Function.update d.key e k, Function.update d.hash e h, d.map.insert (k, h) e⟩, d.map.lookup (k, h))
  | .fetch e k h =>
    match d.map.lookup (k, h) with
    | some e => (d, some e)
    | none =>
      (⟨Function.update d.key e k, Function.update d.hash e h, d.map.insert (k, h) e⟩, some e)
  | .removeEntry e =>
    if d.map.lookup (d.key e, d.hash e) = some e then
      ({ d with map := d.map.erase (d.key e, d.hash e) }, some e)
    else (d, none)
  | .removeKey k h => ({ d with map := d.map.erase (k, h) }, d.map.lookup (k, h))
  | .find k h => (d, d.map.lookup (k, h))

/-- A sequence of operations, and what they return. -/
def Memory.run : Memory → List Op → Option (Memory × List (Option Nat))
  | m, [] => some (m, [])
  | m, op :: ops => (m.step op).bind fun x => (run x.1 ops).map fun y => (y.1, x.2 :: y.2)

/-- A sequence of operations, and what they return. -/
def Dict.run : Dict → List Op → Dict × List (Option Nat)
  | d, [] => (d, [])
  | d, op :: ops =>
    let x := d.step op
    let y := x.1.run ops
    (y.1, x.2 :: y.2)

/-- What a client may call: a new entry is not in the map, and there is room for it. -/
def Dict.May (d : Dict) : Op → Prop
  | .insert e _ _ | .fetch e _ _ => (∀ x ∈ d.map.keys, d.map.lookup x ≠ some e) ∧ d.map.keys.card < 2 ^ 31
  | _ => True

instance (d : Dict) : ∀ op, Decidable (d.May op)
  | .insert .. => inferInstanceAs (Decidable (_ ∧ _))
  | .fetch .. => inferInstanceAs (Decidable (_ ∧ _))
  | .removeEntry _ => inferInstanceAs (Decidable True)
  | .removeKey .. => inferInstanceAs (Decidable True)
  | .find .. => inferInstanceAs (Decidable True)

/-- What a client may call, at each point. -/
def Dict.MayRun : Dict → List Op → Prop
  | _, [] => True
  | d, op :: ops => d.May op ∧ (d.step op).1.MayRun ops

instance decidableMayRun : ∀ (d : Dict) (ops : List Op), Decidable (d.MayRun ops)
  | _, [] => inferInstanceAs (Decidable True)
  | d, op :: ops =>
    have := decidableMayRun (d.step op).1 ops
    inferInstanceAs (Decidable (_ ∧ _))

/-! ## The refinement

Entries are addresses, and the map has under each key the address of its entry. The relation
says that both hold the same entries. Keys and hashes of entries that are not in the table may
change in between, which is what `Maps.congr` is for. -/

variable {key : Nat → Slice} {hash : Nat → UInt32} {E : Finset Nat} {e : Nat} {k : Slice} {h : UInt32}
  {map : Finmap fun _ : Slice × UInt32 => Nat} {m : Memory} {d : Dict}

/-- The map has the entries `E`, each at its key and hash. -/
def Maps (key : Nat → Slice) (hash : Nat → UInt32) (E : Finset Nat)
    (map : Finmap fun _ : Slice × UInt32 => Nat) : Prop :=
  ∀ k h, Finds key hash E k h (map.lookup (k, h))

theorem Maps.lookup_mem (hm : Maps key hash E map) (he : e ∈ E) :
    map.lookup (key e, hash e) = some e := (hm _ _ e).mpr ⟨he, rfl, rfl⟩

theorem Maps.card (hm : Maps key hash E map) : map.keys.card = E.card := by
  refine (Finset.card_bij (fun e _ => (key e, hash e)) (fun e he => ?_) (fun a ha b hb heq => ?_) ?_).symm
  · exact Finmap.mem_keys.mpr (Finmap.mem_of_lookup_eq_some (hm.lookup_mem he))
  · have hab := hm.lookup_mem ha
    rw [show (key a, hash a) = (key b, hash b) from heq, hm.lookup_mem hb] at hab
    exact (Option.some.inj hab).symm
  · rintro ⟨k, h⟩ hx
    obtain ⟨e, he⟩ := Finmap.mem_iff.mp (Finmap.mem_keys.mp hx)
    obtain ⟨hin, rfl, rfl⟩ := (hm k h e).mp he
    exact ⟨e, hin, rfl⟩

/-- An entry that no key has is not in the table. -/
theorem Maps.notMem (hm : Maps key hash E map) (he : ∀ x ∈ map.keys, map.lookup x ≠ some e) : e ∉ E := by
  intro hin
  have hl := hm.lookup_mem hin
  exact he _ (Finmap.mem_keys.mpr (Finmap.mem_of_lookup_eq_some hl)) hl

theorem Maps.erase (hm : Maps key hash E map) (k : Slice) (h : UInt32) :
    Maps key hash (others key hash E k h) (map.erase (k, h)) := by
  intro k' h' e
  rw [others, Finset.mem_filter]
  by_cases heq : (k', h') = (k, h)
  · rw [heq, Finmap.lookup_erase]
    obtain ⟨rfl, rfl⟩ := Prod.mk.inj heq
    refine iff_of_false (by simp) ?_
    rintro ⟨⟨-, hne⟩, hk⟩
    exact hne hk
  · rw [Finmap.lookup_erase_ne heq, hm k' h' e]
    constructor
    · rintro ⟨he, rfl, rfl⟩
      exact ⟨⟨he, fun hk => heq (Prod.ext hk.1 hk.2)⟩, rfl, rfl⟩
    · rintro ⟨⟨he, -⟩, hk⟩
      exact ⟨he, hk⟩

theorem Maps.insert (hm : Maps key hash E map) (e : Nat) :
    Maps key hash (insert e (others key hash E (key e) (hash e))) (map.insert (key e, hash e) e) := by
  intro k h a
  rw [Finset.mem_insert]
  by_cases heq : (k, h) = (key e, hash e)
  · rw [heq, Finmap.lookup_insert]
    obtain ⟨rfl, rfl⟩ := Prod.mk.inj heq
    constructor
    · intro ha
      obtain rfl := Option.some.inj ha
      exact ⟨.inl rfl, rfl, rfl⟩
    · rintro ⟨rfl | ha, hk⟩
      · rfl
      · exact absurd hk (Finset.mem_filter.mp ha).2
  · rw [Finmap.lookup_insert_of_ne _ heq, hm k h a]
    constructor
    · rintro ⟨ha, rfl, rfl⟩
      exact ⟨.inr (Finset.mem_filter.mpr ⟨ha, fun hk => heq (Prod.ext hk.1 hk.2)⟩), rfl, rfl⟩
    · rintro ⟨rfl | ha, rfl, rfl⟩
      · exact absurd rfl heq
      · exact ⟨(Finset.mem_filter.mp ha).1, rfl, rfl⟩

theorem Maps.congr {key' : Nat → Slice} {hash' : Nat → UInt32} (hm : Maps key hash E map)
    (hk : ∀ e ∈ E, key' e = key e) (hh : ∀ e ∈ E, hash' e = hash e) : Maps key' hash' E map :=
  fun k h => (hm k h).congr hk hh

/-- A table and a map with the same entries. -/
structure Refines (m : Memory) (d : Dict) (E : Finset Nat) : Prop where
  key : m.key = d.key
  hash : m.hash = d.hash
  holds : m.table.Holds m.key m.hash E
  maps : Maps m.key m.hash E d.map

/-- A new entry is put at a place. -/
theorem Refines.put {t : HashTable} (hr : Refines m d E) (e : Nat) (k : Slice) (h : UInt32)
    (ht : t.Holds (Function.update m.key e k) (Function.update m.hash e h)
      (insert e (others (Function.update m.key e k) (Function.update m.hash e h) E k h)))
    (he : e ∉ E) :
    Refines ⟨Function.update m.key e k, Function.update m.hash e h, t⟩
      ⟨Function.update d.key e k, Function.update d.hash e h, d.map.insert (k, h) e⟩
      (insert e (others (Function.update m.key e k) (Function.update m.hash e h) E k h)) := by
  refine ⟨by rw [hr.key], by rw [hr.hash], ht, ?_⟩
  have hm : Maps (Function.update m.key e k) (Function.update m.hash e h) E d.map :=
    hr.maps.congr (fun a ha => Function.update_of_ne (ne_of_mem_of_not_mem ha he) ..)
      fun a ha => Function.update_of_ne (ne_of_mem_of_not_mem ha he) ..
  have hput := hm.insert e
  rwa [Function.update_self, Function.update_self] at hput

/-- **One operation**. The entries in the table are those of the map, one for each key;
an operation that finds a key by its hash and text finds the entry of the map. -/
theorem Refines.step (hr : Refines m d E) {op : Op} (hmay : d.May op) :
    ∃ m' E', m.step op = some (m', (d.step op).2) ∧ Refines m' (d.step op).1 E' := by
  -- an entry that is made is not in the table, and changes nothing there
  have hkey : ∀ {e} (k : Slice), e ∉ E → ∀ a ∈ E, Function.update m.key e k a = m.key a :=
    fun _ he a ha => Function.update_of_ne (ne_of_mem_of_not_mem ha he) ..
  have hhash : ∀ {e} (h : UInt32), e ∉ E → ∀ a ∈ E, Function.update m.hash e h a = m.hash a :=
    fun _ he a ha => Function.update_of_ne (ne_of_mem_of_not_mem ha he) ..
  cases op with
  | insert e k h =>
    obtain ⟨hfresh, hroom⟩ := hmay
    have he := hr.maps.notMem hfresh
    rw [hr.maps.card] at hroom
    have ht := hr.holds.congr (hkey k he) (hhash h he)
    obtain ⟨t', r, hrun, hf, ht'⟩ := ht.insert he (card_insert_others hroom)
    rw [Function.update_self, Function.update_self] at hf ht'
    refine ⟨_, _, ?_, hr.put e k h ht' he⟩
    rw [Memory.step, hrun, hf.eq ((hr.maps k h).congr (hkey k he) (hhash h he))]
    rfl
  | fetch e k h =>
    obtain ⟨hfresh, hroom⟩ := hmay
    have he := hr.maps.notMem hfresh
    rw [hr.maps.card] at hroom
    obtain ⟨pos, hpos, hp⟩ := hr.holds.findPointer k h
    have hread := hp.finds.eq (hr.maps k h)
    rw [Memory.step, hpos, Option.bind_some, hread, Dict.step]
    cases hl : d.map.lookup (k, h) with
    | some a => exact ⟨m, E, rfl, hr⟩
    | none =>
      have ht := hr.holds.congr (hkey k he) (hhash h he)
      have hp' := hp.congr (hkey k he) (hhash h he)
      obtain ⟨t', hrun, ht'⟩ := ht.inject (e := e)
        (by rwa [Function.update_self, Function.update_self]) he (card_insert_others hroom)
      rw [Function.update_self, Function.update_self] at ht'
      refine ⟨_, _, ?_, hr.put e k h ht' he⟩
      simp only [hrun]
      rfl
  | removeEntry e =>
    obtain ⟨t', hrun, ht'⟩ := hr.holds.removeEntry e
    rw [Memory.step, hrun, Dict.step, ← hr.key, ← hr.hash]
    by_cases he : e ∈ E
    · have hl := hr.maps.lookup_mem he
      rw [if_pos he, if_pos hl]
      have hf := hr.maps (m.key e) (m.hash e)
      rw [hl] at hf
      refine ⟨{ m with table := t' }, _, rfl, ⟨rfl, rfl, ht', ?_⟩⟩
      rw [← hf.others_some]
      exact hr.maps.erase _ _
    · have hl : d.map.lookup (m.key e, m.hash e) ≠ some e := fun hl =>
        he ((hr.maps _ _ e).mp hl).1
      rw [Finset.erase_eq_of_notMem he] at ht'
      rw [if_neg he, if_neg hl]
      exact ⟨{ m with table := t' }, _, rfl, ⟨hr.key, hr.hash, ht', hr.maps⟩⟩
  | removeKey k h =>
    obtain ⟨t', r, hrun, hf, ht'⟩ := hr.holds.removeKey k h
    refine ⟨{ m with table := t' }, _, ?_, ⟨hr.key, hr.hash, ht', hr.maps.erase k h⟩⟩
    rw [Memory.step, hrun, hf.eq (hr.maps k h)]
    rfl
  | find k h =>
    obtain ⟨r, hrun, hf⟩ := hr.holds.find k h
    refine ⟨m, E, ?_, hr⟩
    rw [Memory.step, hrun, hf.eq (hr.maps k h)]
    rfl

/-- **A run**. By induction on the operations; memory is whatever the ones before have made
of it. -/
theorem Refines.run (hr : Refines m d E) {ops : List Op} (hmay : d.MayRun ops) :
    ∃ m' E', m.run ops = some (m', (d.run ops).2) ∧ Refines m' (d.run ops).1 E' := by
  induction ops generalizing m d E with
  | nil => exact ⟨m, E, rfl, hr⟩
  | cons op ops ih =>
    obtain ⟨hop, hops⟩ := hmay
    obtain ⟨m₁, E₁, hstep, hr₁⟩ := hr.step hop
    obtain ⟨m', E', hrun, hr'⟩ := ih hr₁ hops
    refine ⟨m', E', ?_, hr'⟩
    rw [Memory.run, hstep, Option.bind_some, hrun]
    rfl

/-- **A table is a finite map**: from the constructor, in any memory, every sequence of
operations comes to an end, and returns what it does on the map; there are then as many
elements as keys, and no more of them than buckets.

The chains are lists in memory, so that an operation could follow a link forever if one were
wrong. `HashTable.Holds` says which entries the table has, in terms of its chains, and each
operation has one lemma about it; a run only strings these together. -/
theorem runs_as_map (key : Nat → Slice) (hash : Nat → UInt32) (nextHash : Nat → Option Nat)
    {ops : List Op} (hmay : Dict.MayRun ⟨key, hash, ∅⟩ ops) :
    ∃ t m, new hash nextHash = some t ∧
      Memory.run ⟨key, hash, t⟩ ops = some (m, (Dict.run ⟨key, hash, ∅⟩ ops).2) ∧
      (∀ k h, m.table.find m.key m.hash k h = some ((Dict.run ⟨key, hash, ∅⟩ ops).1.map.lookup (k, h))) ∧
      m.table.elems.toNat = (Dict.run ⟨key, hash, ∅⟩ ops).1.map.keys.card ∧
      m.table.elems ≤ m.table.length := by
  obtain ⟨t, hnew, ht⟩ := new_holds key hash nextHash
  have hempty : Maps key hash ∅ (∅ : Finmap fun _ : Slice × UInt32 => Nat) := by
    intro k h e
    rw [Finmap.lookup_empty]
    exact iff_of_false (by simp) fun he => absurd he.1 (Finset.notMem_empty e)
  obtain ⟨m, E, hrun, hr⟩ := Refines.run (m := ⟨key, hash, t⟩) (d := ⟨key, hash, ∅⟩)
    ⟨rfl, rfl, ht, hempty⟩ hmay
  refine ⟨t, m, hnew, hrun, fun k h => ?_, ?_, hr.holds.load⟩
  · obtain ⟨r, hfind, hf⟩ := hr.holds.find k h
    rw [hfind, hf.eq (hr.maps k h)]
  · rw [hr.holds.elems, hr.maps.card]

/-- Five entries of one bucket, so that the table is made larger; one is fetched again, one
taken from the middle of a chain, and one replaced. -/
def fiveInOneBucket : List Op :=
  [.insert 1 (str "a") 8, .insert 2 (str "b") 8, .fetch 3 (str "c") 8, .insert 4 (str "d") 16,
    .insert 5 (str "e") 24, .fetch 6 (str "c") 8, .removeEntry 2, .insert 7 (str "a") 8, .removeEntry 1,
    .removeKey (str "d") 16, .find (str "e") 24]

theorem runs_as_map_fiveInOneBucket :
    ∃ t m, new (fun _ => 0) (fun _ => none) = some t ∧
      Memory.run ⟨fun _ => [], fun _ => 0, t⟩ fiveInOneBucket =
        some (m, [none, none, some 3, none, none, some 3, some 2, some 1, none, some 4, some 5]) ∧
      m.table.find m.key m.hash (str "c") 8 = some (some 3) ∧ m.table.elems.toNat = 3 := by
  obtain ⟨t, m, hnew, hrun, hfind, helems, -⟩ := runs_as_map (fun _ => []) (fun _ => 0) (fun _ => none)
    (show Dict.MayRun ⟨fun _ => [], fun _ => 0, ∅⟩ fiveInOneBucket by decide +kernel)
  have hout : (Dict.run ⟨fun _ => [], fun _ => 0, ∅⟩ fiveInOneBucket).2 =
      [none, none, some 3, none, none, some 3, some 2, some 1, none, some 4, some 5] := by decide +kernel
  have hlookup : (Dict.run ⟨fun _ => [], fun _ => 0, ∅⟩ fiveInOneBucket).1.map.lookup (str "c", 8) =
      some 3 := by decide +kernel
  have hcard : (Dict.run ⟨fun _ => [], fun _ => 0, ∅⟩ fiveInOneBucket).1.map.keys.card = 3 := by
    decide +kernel
  exact ⟨t, m, hnew, hout ▸ hrun, hlookup ▸ hfind (str "c") 8, hcard ▸ helems⟩

end HashTable

end DeltaFs
