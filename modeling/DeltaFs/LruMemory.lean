import DeltaFs.HashTable
import DeltaFs.LruCache

/-!
# The LRU cache in memory

`LRUCache` of `lru.h`, as it is in memory: every entry is in one of two circular
doubly linked lists, `lru_` or `in_use_`, and those in the cache are in a
`HashTable`. An assertion that fails has no result.

The counts and the charges are the code's machine words. A `size_t` that grows over its
range is small again, and then the cache believes that it has room, so what `LruCache` says
with numbers is true of the code only as long as no sum wraps.

`Listed m c` says that the two lists are those of a `LruCache`, where `lru_` is a list
of handles and who is in neither list does not exist, and that the words stand for the
numbers of the cache. Each operation then has one lemma, which names the sum that must not
wrap: `Ref` the count of one entry, `Insert` the charges of what is in the cache.
-/

namespace DeltaFs

open Linked

universe u

/-- An `E*`: one of the dummy heads, or an entry. -/
inductive LruRef where
  | lru
  | inUse
  | entry (h : Nat)
  deriving DecidableEq

/-- `LRUEntry`. Its fields `next` and `prev` are in `Links`, `next_hash` is in the table. -/
structure LruMemory.Entry (V : Type u) where
  key : Slice
  value : V
  charge : UInt64
  refs : UInt32
  /-- true iff the entry has a reference from the cache -/
  inCache : Bool

/-- What the words of an entry count. -/
def LruMemory.Entry.toLru {V : Type u} (w : LruMemory.Entry V) : LruEntry V :=
  ⟨w.key, w.value, w.charge.toNat, w.refs.toNat, w.inCache⟩

/-- `LRUCache`, with the entries. -/
structure LruMemory (V : Type u) where
  capacity : UInt64
  totalUsage : UInt64
  usage : UInt64
  /-- the entries that are allocated -/
  mem : Nat → Option (LruMemory.Entry V)
  /-- the field `hash` of the entries -/
  hash : Nat → UInt32
  /-- the next handle the allocator returns -/
  alloc : Nat
  links : Links LruRef
  table : HashTable

namespace LruMemory

variable {V : Type u}

/-! ## The code

The functions of `lru.h` on words and links, in the order of the source. They do what the
functions of `LruCache` do, and besides set the links and count in words; `none` stands for an
assertion that fails or a pointer that leads nowhere. A handle is the address of an entry. -/

/-- The field `key_data` of the entries. -/
def key (m : LruMemory V) (h : Nat) : Slice := ((m.mem h).map Entry.key).getD []

/-- The constructor. -/
def new (capacity : UInt64) (links : Links LruRef) (nextHash : Nat → Option Nat) : Option (LruMemory V) :=
  (HashTable.new (fun _ => 0) nextHash).map fun table => {
    capacity := capacity
    totalUsage := 0
    usage := 0
    mem := fun _ => none
    hash := fun _ => 0
    alloc := 0
    links := ⟨Function.update (Function.update links.next .inUse .inUse) .lru .lru,
      Function.update (Function.update links.prev .inUse .inUse) .lru .lru⟩
    table := table }

/-- `Unref`: also `Release`. -/
def unref (m : LruMemory V) (h : Nat) : Option (LruMemory V × List V) :=
  match m.mem h with
  | none => none
  | some e =>
    if e.refs = 0 then none else
    let refs := e.refs - 1
    if refs = 0 then
      if e.inCache then none else
      some ({ m with
        mem := Function.update m.mem h none
        links := m.links.remove (.entry h)
        totalUsage := m.totalUsage - e.charge }, [e.value])
    else if e.inCache && refs = 1 then
      some ({ m with
        mem := Function.update m.mem h (some { e with refs := refs })
        links := (m.links.remove (.entry h)).append .lru (.entry h) }, [])
    else some ({ m with mem := Function.update m.mem h (some { e with refs := refs }) }, [])

/-- `Remove`, of an entry that has been removed from the table. -/
def remove (m : LruMemory V) (h : Nat) : Option (LruMemory V × List V) :=
  match m.mem h with
  | none => none
  | some e =>
    if e.inCache then
      { m with
        mem := Function.update m.mem h (some { e with inCache := false })
        usage := m.usage - e.charge }.unref h
    else none

/-- `Ref`. -/
def ref (m : LruMemory V) (h : Nat) : Option (LruMemory V) :=
  match m.mem h with
  | none => none
  | some e =>
    some { m with
      links :=
        if e.refs = 1 && e.inCache then (m.links.remove (.entry h)).append .inUse (.entry h)
        else m.links
      mem := Function.update m.mem h (some { e with refs := e.refs + 1 }) }

/-- `Lookup`. -/
def lookup (m : LruMemory V) (key : Slice) (hash : UInt32) : Option (LruMemory V × Option Nat) :=
  match m.table.find m.key m.hash key hash with
  | none => none
  | some none => some (m, none)
  | some (some h) => (m.ref h).map fun m => (m, some h)

/-- `Erase(E*)`. -/
def erase (m : LruMemory V) (h : Nat) : Option (LruMemory V × List V) :=
  match m.table.removeEntry m.key m.hash h with
  | none => none
  | some (table, none) => some ({ m with table := table }, [])
  | some (table, some h) => { m with table := table }.remove h

/-- The first part of `Insert`. Returns the handle. -/
def insertBegin (m : LruMemory V) (key : Slice) (hash : UInt32) (value : V) (charge : UInt64) :
    Option (LruMemory V × Nat × List V) :=
  let h := m.alloc
  let m := { m with
    mem := Function.update m.mem h (some ⟨key, value, charge, 1, false⟩)
    hash := Function.update m.hash h hash
    links := m.links.append .inUse (.entry h)
    totalUsage := m.totalUsage + charge
    alloc := h + 1 }
  if m.capacity = 0 then some (m, h, [])
  else
    let m := { m with
      mem := Function.update m.mem h (some ⟨key, value, charge, 2, true⟩)
      usage := m.usage + charge }
    match m.table.insert m.key m.hash h with
    | none => none
    | some (table, none) => some ({ m with table := table }, h, [])
    | some (table, some old) => (remove { m with table := table } old).map fun p => (p.1, h, p.2)

/-- `table_.Remove(key, hash)` and `Remove` of the entry found, which must be `victim`. -/
def removeKey (m : LruMemory V) (key : Slice) (hash : UInt32) (victim : Nat) :
    Option (LruMemory V × List V) :=
  match m.table.removeKey m.key m.hash key hash with
  | some (table, some h) => if h = victim then { m with table := table }.remove h else none
  | _ => none

/-- The condition of the loop of `Insert`. -/
def mustEvict (m : LruMemory V) : Bool := m.capacity < m.usage && m.links.next .lru ≠ .lru

/-- One round of the loop of `Insert`. -/
def evict (m : LruMemory V) : Option (LruMemory V × List V) :=
  match m.links.next .lru with
  | .entry a =>
    match m.mem a with
    | none => none
    | some e => if e.refs = 1 then m.removeKey e.key (m.hash a) a else none
  | _ => none

/-- The loop of `Insert`. -/
def evictLoop : Nat → LruMemory V → Option (LruMemory V × List V)
  | 0, _ => none
  | fuel + 1, m =>
    if m.mustEvict then
      match m.evict with
      | none => none
      | some (m, vs) => (evictLoop fuel m).map fun p => (p.1, vs ++ p.2)
    else some (m, [])

/-- The end of `Insert`. -/
def insertEnd (m : LruMemory V) (key : Slice) (hash : UInt32) (h : Nat) :
    Option (LruMemory V × List V) :=
  if m.capacity = 0 then some (m, [])
  else
    let r := if m.capacity < m.usage then m.removeKey key hash h else some (m, [])
    match r with
    | none => none
    -- the last assertion
    | some (m, vs) => if m.usage ≤ m.capacity then some (m, vs) else none

/-- `Insert`. -/
protected def insert (m : LruMemory V) (key : Slice) (hash : UInt32) (value : V) (charge : UInt64) :
    Option (LruMemory V × Nat × List V) := do
  let (m, h, vs₁) ← m.insertBegin key hash value charge
  let (m, vs₂) ← evictLoop (m.table.elems.toNat + 1) m
  let (m, vs₃) ← m.insertEnd key hash h
  some (m, h, vs₁ ++ vs₂ ++ vs₃)

/-! ## The two lists

Every live entry is in exactly one of the two rings: `lru_` if it is idle, `in_use_` otherwise.
`LRU_Remove` does not say of which ring, and need not: the entry is unlinked from its
neighbours. That the rings have no node in common is what keeps the other one as it is. -/

/-- The handles in the two lists. -/
structure Rings (k : Links LruRef) (ls us : List Nat) : Prop where
  lru : k.Ring .lru (ls.map .entry)
  inUse : k.Ring .inUse (us.map .entry)
  disjoint : ∀ h ∈ ls, h ∉ us

variable {k : Links LruRef} {ls us : List Nat} {h : Nat}

theorem entry_mem : LruRef.entry h ∈ ls.map LruRef.entry ↔ h ∈ ls := by simp

/-- An entry is neither a head nor in a list that its handle is not in. -/
theorem entry_notMem_cons {r : LruRef} (hr : LruRef.entry h ≠ r) (hl : h ∉ ls) :
    LruRef.entry h ∉ r :: ls.map LruRef.entry := by
  rw [List.mem_cons, or_iff_right hr, entry_mem]
  exact hl

theorem Rings.apart (hr : Rings k ls us) :
    ∀ a ∈ LruRef.lru :: ls.map LruRef.entry, a ∉ LruRef.inUse :: us.map LruRef.entry := by
  intro a ha hb
  simp only [List.mem_cons, List.mem_map] at ha hb
  rcases ha with rfl | ⟨x, hx, rfl⟩ <;> simp at hb
  exact hr.disjoint x hx hb

theorem map_erase (l : List Nat) (h : Nat) :
    (l.map LruRef.entry).erase (.entry h) = (l.erase h).map LruRef.entry := by
  induction l with
  | nil => rfl
  | cons x l ih =>
    by_cases hx : x = h
    · simp [hx]
    · simp [hx, ih]

/-- `LRU_Remove`, of an entry that is in one of the lists. -/
theorem Rings.remove (hr : Rings k ls us) (hin : h ∈ ls ∨ h ∈ us) :
    Rings (k.remove (.entry h)) (ls.erase h) (us.erase h) := by
  have hapart := hr.apart
  have hsub : ∀ x ∈ ls.erase h, x ∉ us.erase h := fun x hx hx' =>
    hr.disjoint x (List.mem_of_mem_erase hx) (List.mem_of_mem_erase hx')
  rcases hin with hin | hin
  · have hne : h ∉ us := hr.disjoint h hin
    refine ⟨?_, ?_, hsub⟩
    · rw [← map_erase]
      exact hr.lru.remove (entry_mem.mpr hin)
    · rw [List.erase_of_not_mem hne]
      exact hr.lru.remove_of_disjoint (entry_mem.mpr hin) hr.inUse hapart
  · have hne : h ∉ ls := fun hx => hr.disjoint h hx hin
    refine ⟨?_, ?_, hsub⟩
    · rw [List.erase_of_not_mem hne]
      exact hr.inUse.remove_of_disjoint (entry_mem.mpr hin) hr.lru fun a ha hb => hapart a hb ha
    · rw [← map_erase]
      exact hr.inUse.remove (entry_mem.mpr hin)

/-- `LRU_Append` to `lru_`. -/
theorem Rings.append_lru (hr : Rings k ls us) (hl : h ∉ ls) (hu : h ∉ us) :
    Rings (k.append .lru (.entry h)) (ls ++ [h]) us := by
  have hl' : LruRef.entry h ∉ LruRef.lru :: ls.map LruRef.entry := entry_notMem_cons (by simp) hl
  have hu' : LruRef.entry h ∉ LruRef.inUse :: us.map LruRef.entry := entry_notMem_cons (by simp) hu
  refine ⟨?_, hr.lru.append_of_disjoint hl' hr.inUse hu' hr.apart, ?_⟩
  · rw [List.map_append]
    exact hr.lru.append hl'
  · intro x hx
    rcases List.mem_append.mp hx with hx | hx
    · exact hr.disjoint x hx
    · exact List.mem_singleton.mp hx ▸ hu

/-- `LRU_Append` to `in_use_`. -/
theorem Rings.append_inUse (hr : Rings k ls us) (hl : h ∉ ls) (hu : h ∉ us) :
    Rings (k.append .inUse (.entry h)) ls (us ++ [h]) := by
  have hl' : LruRef.entry h ∉ LruRef.lru :: ls.map LruRef.entry := entry_notMem_cons (by simp) hl
  have hu' : LruRef.entry h ∉ LruRef.inUse :: us.map LruRef.entry := entry_notMem_cons (by simp) hu
  refine ⟨hr.inUse.append_of_disjoint hu' hr.lru hl' fun a ha hb => hr.apart a hb ha, ?_, ?_⟩
  · rw [List.map_append]
    exact hr.inUse.append hu'
  · intro x hx hx'
    rcases List.mem_append.mp hx' with hx' | hx'
    · exact hr.disjoint x hx hx'
    · exact hl (List.mem_singleton.mp hx' ▸ hx)

theorem Rings.next_lru (hr : Rings k ls us) : k.next .lru = (ls.map LruRef.entry).headD .lru :=
  Linked.Ring.next_head hr.lru

/-! ## The relation

Entry by entry the words are those of the numbers, as long as these fit. References are counted
with 32 bits and charges with 64, so the bounds on both are needed where something is added, and
what is subtracted must have been added before. `total_usage_` also counts entries that have
left the cache and are still in use. -/

variable {m m' : LruMemory V} {c c' : LruCache V} {e : LruEntry V}

/-- The same entries and numbers, and the same idle list; the other entries are in use.
`total_usage_` also counts entries that are not in the cache and is never compared with
anything, so it may wrap. -/
structure Listed (m : LruMemory V) (c : LruCache V) : Prop where
  capacity : m.capacity.toNat = c.capacity
  totalUsage : m.totalUsage = .ofNat c.totalUsage
  usage : m.usage.toNat = c.usage
  mem : ∀ a, c.mem a = (m.mem a).map Entry.toLru
  alloc : m.alloc = c.next
  rings : ∃ us, Rings m.links c.lru us ∧ ∀ h, (c.mem h).isSome ↔ h ∈ c.lru ∨ h ∈ us

/-- The words behind an entry. -/
theorem Listed.entry (hl : Listed m c) (he : c.mem h = some e) :
    ∃ w, m.mem h = some w ∧ w.toLru = e := by
  rw [hl.mem] at he
  exact Option.map_eq_some_iff.mp he

theorem Listed.key_eq (hl : Listed m c) (he : c.mem h = some e) : m.key h = e.key := by
  obtain ⟨w, hw, rfl⟩ := hl.entry he
  rw [key, hw]
  rfl

theorem Listed.off_iff (hl : Listed m c) : m.capacity = 0 ↔ c.capacity = 0 := by
  rw [← hl.capacity, ← UInt64.toNat_inj]
  rfl

theorem Listed.over_iff (hl : Listed m c) : m.capacity < m.usage ↔ c.capacity < c.usage := by
  rw [UInt64.lt_iff_toNat_lt, hl.capacity, hl.usage]

theorem Listed.within_iff (hl : Listed m c) : m.usage ≤ m.capacity ↔ c.usage ≤ c.capacity := by
  rw [UInt64.le_iff_toNat_le, hl.capacity, hl.usage]

/-- The same update on both sides. -/
theorem map_update {f : Nat → Option (Entry V)} {g : Nat → Option (LruEntry V)}
    (hfg : ∀ a, g a = (f a).map Entry.toLru) {o : Option (Entry V)} {o' : Option (LruEntry V)}
    (ho : o' = o.map Entry.toLru) (a : Nat) :
    Function.update g h o' a = (Function.update f h o a).map Entry.toLru := by
  by_cases ha : a = h
  · rw [ha, Function.update_self, Function.update_self, ho]
  · rw [Function.update_of_ne ha, Function.update_of_ne ha, hfg]

/-- An update of a live entry that stays where it is. -/
theorem update_isSome {f : Nat → Option (LruEntry V)} (he : f h = some e) (e' : LruEntry V) (a : Nat) :
    (Function.update f h (some e') a).isSome = (f a).isSome := by
  by_cases ha : a = h
  · rw [ha, Function.update_self, he]
    rfl
  · rw [Function.update_of_ne ha]

/-- A count that is not zero is one word less, and one number less. -/
theorem toNat_pred {r : UInt32} (hr : 0 < r.toNat) : (r - 1).toNat = r.toNat - 1 := by
  rw [UInt32.toNat_sub_of_le]
  · rfl
  · rw [UInt32.le_iff_toNat_le]
    exact hr

/-- A total that includes a charge, without it. -/
theorem ofNat_sub_charge {n : Nat} {charge : UInt64} (hle : charge.toNat ≤ n) :
    UInt64.ofNat n - charge = .ofNat (n - charge.toNat) := by
  rw [UInt64.ofNat_sub hle, UInt64.ofNat_toNat]

/-- **`Unref`**. The charge of an entry that is deleted is part of the total, so taking
it off does not go below zero, and the word is the number. -/
theorem Listed.unref (hl : Listed m c) (he : c.mem h = some e) (hpos : 0 < e.refs)
    (hlast : e.refs = 1 → e.inCache = false) (htotal : e.charge ≤ c.totalUsage) :
    ∃ c' vs m', c.unref h = some (c', vs) ∧ m.unref h = some (m', vs) ∧ Listed m' c' ∧
      m'.table = m.table ∧ m'.hash = m.hash := by
  obtain ⟨us, hr, hlive⟩ := hl.rings
  obtain ⟨w, hw, rfl⟩ := hl.entry he
  have hin := (hlive h).mp (by rw [he]; rfl)
  have hrem := hr.remove hin
  have hnl : h ∉ c.lru.erase h := (hr.lru.nodup.of_map _).not_mem_erase
  have hnu : h ∉ us.erase h := (hr.inUse.nodup.of_map _).not_mem_erase
  have hmem : ∀ a, a ≠ h → ((c.mem a).isSome ↔ a ∈ c.lru.erase h ∨ a ∈ us.erase h) := by
    intro a ha
    rw [hlive, List.mem_erase_of_ne ha, List.mem_erase_of_ne ha]
  have hpos' : 0 < w.refs.toNat := hpos
  have hnz : w.refs ≠ 0 := by
    intro hz
    rw [hz] at hpos'
    exact Nat.lt_irrefl _ hpos'
  have hpred := toNat_pred hpos'
  have hzero_iff : w.refs - 1 = 0 ↔ w.toLru.refs - 1 = 0 := by
    rw [← UInt32.toNat_inj, hpred]
    rfl
  have hidle_eq : (w.inCache && decide (w.refs - 1 = 1)) =
      (w.toLru.inCache && decide (w.toLru.refs - 1 = 1)) := by
    refine congrArg (w.inCache && ·) (decide_eq_decide.mpr ?_)
    rw [← UInt32.toNat_inj, hpred]
    rfl
  have hkeep : ∀ a, Function.update c.mem h (some { w.toLru with refs := w.toLru.refs - 1 }) a =
      (Function.update m.mem h (some { w with refs := w.refs - 1 }) a).map Entry.toLru :=
    map_update hl.mem (by simp only [Option.map_some, Entry.toLru, hpred])
  rw [LruCache.unref, LruMemory.unref, he, hw]
  simp only [if_neg hnz, hzero_iff, hidle_eq]
  by_cases hzero : w.toLru.refs - 1 = 0
  · -- the last reference: the entry leaves its list and is deleted
    have hout : w.inCache = false := hlast (by omega)
    rw [if_pos hzero, if_pos hzero, hout]
    refine ⟨_, _, _, rfl, rfl, ?_, rfl, rfl⟩
    refine ⟨hl.capacity, ?_, hl.usage, map_update hl.mem rfl, hl.alloc, _, hrem, fun a => ?_⟩
    · simp only [hl.totalUsage]
      exact ofNat_sub_charge htotal
    by_cases ha : a = h
    · subst ha
      simp [hnl, hnu]
    · simp only [Function.update_of_ne ha, hmem a ha]
  rw [if_neg hzero, if_neg hzero]
  by_cases hidle : (w.toLru.inCache && decide (w.toLru.refs - 1 = 1)) = true
  · -- the last client's: it becomes the newest idle entry
    rw [if_pos hidle, if_pos hidle]
    refine ⟨_, _, _, rfl, rfl, ?_, rfl, rfl⟩
    refine ⟨hl.capacity, hl.totalUsage, hl.usage, hkeep, hl.alloc, _,
      hrem.append_lru hnl hnu, fun a => ?_⟩
    simp only [update_isSome he]
    by_cases ha : a = h
    · subst ha
      simp [he]
    · rw [hmem a ha, List.mem_append, List.mem_singleton, or_iff_left ha]
  · -- others still use it: only the count changes
    rw [if_neg hidle, if_neg hidle]
    refine ⟨_, _, _, rfl, rfl, ?_, rfl, rfl⟩
    refine ⟨hl.capacity, hl.totalUsage, hl.usage, hkeep, hl.alloc, us, hr, fun a => ?_⟩
    simp only [update_isSome he, hlive]

/-- **`Remove`**. The charge of an entry in the cache is part of the usage, so the same
holds of `usage_`. -/
theorem Listed.remove (hl : Listed m c) (he : c.mem h = some e) (hpos : 0 < e.refs)
    (hc : e.inCache = true) (husage : e.charge ≤ c.usage) (htotal : e.charge ≤ c.totalUsage) :
    ∃ c' vs m', c.remove h = some (c', vs) ∧ m.remove h = some (m', vs) ∧ Listed m' c' ∧
      m'.table = m.table ∧ m'.hash = m.hash := by
  obtain ⟨us, hr, hlive⟩ := hl.rings
  obtain ⟨w, hw, rfl⟩ := hl.entry he
  have hsub : (m.usage - w.charge).toNat = c.usage - w.toLru.charge := by
    rw [UInt64.toNat_sub_of_le, hl.usage]
    · rfl
    · rw [UInt64.le_iff_toNat_le, hl.usage]
      exact husage
  have hl' : Listed
      { m with
        mem := Function.update m.mem h (some { w with inCache := false })
        usage := m.usage - w.charge }
      { c with
        mem := Function.update c.mem h (some { w.toLru with inCache := false })
        usage := c.usage - w.toLru.charge } := by
    refine ⟨hl.capacity, hl.totalUsage, hsub, map_update hl.mem rfl, hl.alloc, us, hr, fun a => ?_⟩
    simp only [update_isSome he, hlive]
  have hc : w.inCache = true := hc
  rw [LruCache.remove, LruMemory.remove, he, hw]
  simp only [if_pos hc]
  exact hl'.unref (e := { w.toLru with inCache := false }) (by simp) hpos (fun _ => rfl) htotal

/-- **`Ref`**, where the count has room for one more. -/
theorem Listed.ref (hl : Listed m c) (he : c.mem h = some e) (hroom : e.refs + 1 < 2 ^ 32) :
    ∃ c' m', c.ref h = some c' ∧ m.ref h = some m' ∧ Listed m' c' ∧ m'.table = m.table ∧
      m'.hash = m.hash := by
  obtain ⟨us, hr, hlive⟩ := hl.rings
  obtain ⟨w, hw, rfl⟩ := hl.entry he
  have hin := (hlive h).mp (by rw [he]; rfl)
  have hsucc : (w.refs + 1).toNat = w.toLru.refs + 1 := by
    rw [UInt32.toNat_add]
    exact Nat.mod_eq_of_lt hroom
  have hidle_eq : (decide (w.refs = 1) && w.inCache) =
      (decide (w.toLru.refs = 1) && w.toLru.inCache) := by
    refine congrArg (· && w.inCache) (decide_eq_decide.mpr ?_)
    rw [← UInt32.toNat_inj]
    rfl
  have hkeep : ∀ a, Function.update c.mem h (some { w.toLru with refs := w.toLru.refs + 1 }) a =
      (Function.update m.mem h (some { w with refs := w.refs + 1 }) a).map Entry.toLru :=
    map_update hl.mem (by simp only [Option.map_some, Entry.toLru, hsucc])
  rw [LruCache.ref, LruMemory.ref, he, hw]
  simp only [hidle_eq]
  refine ⟨_, _, rfl, rfl, ?_, rfl, rfl⟩
  by_cases hidle : (decide (w.toLru.refs = 1) && w.toLru.inCache) = true
  · have hnl : h ∉ c.lru.erase h := (hr.lru.nodup.of_map _).not_mem_erase
    have hnu : h ∉ us.erase h := (hr.inUse.nodup.of_map _).not_mem_erase
    refine ⟨hl.capacity, hl.totalUsage, hl.usage, hkeep, hl.alloc, us.erase h ++ [h], ?_,
      fun a => ?_⟩
    · simp only [if_pos hidle]
      exact (hr.remove hin).append_inUse hnl hnu
    · simp only [if_pos hidle, update_isSome he, hlive, List.mem_append, List.mem_singleton]
      by_cases ha : a = h
      · subst ha
        simp [hin]
      · rw [List.mem_erase_of_ne ha, List.mem_erase_of_ne ha, or_iff_left ha]
  · refine ⟨hl.capacity, hl.totalUsage, hl.usage, hkeep, hl.alloc, us, ?_, fun a => ?_⟩
    · simp only [if_neg hidle]
      exact hr
    · simp only [if_neg hidle, update_isSome he, hlive]

end LruMemory

end DeltaFs
