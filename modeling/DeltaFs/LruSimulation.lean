import DeltaFs.LruMemory
import Mathlib.Algebra.Order.BigOperators.Group.Finset

/-!
# The LRU cache in memory does what the cache does

`LruMemory`, with its two linked lists, its hash table and its machine words, returns for
every sequence of calls what `LruCache` returns, where one list has the idle handles, the
table is a function and counts are numbers; no assertion fails, and nothing is used that has
been freed (`runs_as_cache`). What is said elsewhere of `LruCache` so holds of the code's data
structure, as long as no count and no sum of charges leaves its word (`may`).

`Sim m c` is the relation that every call keeps. It has three parts. `Listed` is about the
lists and the words, `Tabled` about the hash table, and neither can be kept without what is
true of the cache alone: `Ok` says that who is idle is in the cache and has one reference, so
that an eviction finds what it looks for, and `Charged` that the usage is the sum of the
charges, so that no subtraction goes below zero.
-/

namespace DeltaFs

open Linked

universe u

namespace LruMemory

variable {V : Type u} {m m' : LruMemory V} {c c' : LruCache V} {h : Nat} {e : LruEntry V}

/-! ## What a cache is like

The invariant of the abstract cache, as far as the simulation needs it. It is not the one of
`LruCache`, which is about values and the clients' references to them; this one is about
handles: which are live, which are idle, and which the table knows. In the middle of an
insertion the old entry has left the table and is still counted, and so the invariant leaves one
entry out. -/

/-- The invariant of a cache, but for an entry `x` that has just been taken out of the table. -/
structure Ok (c : LruCache V) (x : Option Nat) : Prop where
  pos : ∀ {h e}, c.mem h = some e → 0 < e.refs
  table : ∀ {k h}, c.table k = some h ↔
    some h ≠ x ∧ ∃ e, c.mem h = some e ∧ e.key = k ∧ e.inCache = true
  idle : ∀ {h}, h ∈ c.lru ↔ ∃ e, c.mem h = some e ∧ e.inCache = true ∧ e.refs = 1
  nodup : c.lru.Nodup
  fresh : ∀ {h e}, c.mem h = some e → h < c.next

variable {x : Option Nat}

theorem Ok.empty (capacity : Nat) : Ok (LruCache.empty capacity : LruCache V) none where
  pos he := by cases he
  table := by simp [LruCache.empty]
  idle := by simp [LruCache.empty]
  nodup := List.nodup_nil
  fresh he := by cases he

/-- The entry at `h` changes or is deleted, and the idle list follows. -/
theorem Ok.set (hc : Ok c x) (hx : ∀ a, a ≠ h → some a ≠ x) (he : c.mem h = some e)
    {o : Option (LruEntry V)} (hmem : c'.mem = Function.update c.mem h o) (hnext : c'.next = c.next)
    (htable : c'.table = c.table) (hnodup : c'.lru.Nodup)
    (hlru : ∀ a, a ≠ h → (a ∈ c'.lru ↔ a ∈ c.lru))
    (hlruh : h ∈ c'.lru ↔ ∃ e', o = some e' ∧ e'.inCache = true ∧ e'.refs = 1)
    (ho : ∀ e', o = some e' → e'.key = e.key ∧ 0 < e'.refs)
    (hin : some h ≠ x ∧ e.inCache = true ↔ ∃ e', o = some e' ∧ e'.inCache = true) : Ok c' none := by
  have hself : c'.mem h = o := by rw [hmem, Function.update_self]
  have hother : ∀ {a}, a ≠ h → c'.mem a = c.mem a := fun ha => by rw [hmem, Function.update_of_ne ha]
  constructor
  case pos =>
    intro a e' he'
    by_cases ha : a = h
    · rw [ha, hself] at he'
      exact (ho e' he').2
    · rw [hother ha] at he'
      exact hc.pos he'
  case table =>
    intro k a
    rw [htable, hc.table]
    by_cases ha : a = h
    · subst ha
      rw [hself, he]
      constructor
      · rintro ⟨hne, e₁, he₁, hk, hcache⟩
        obtain rfl := Option.some.inj he₁
        obtain ⟨e', he', hcache'⟩ := hin.mp ⟨hne, hcache⟩
        exact ⟨by simp, e', he', (ho e' he').1.trans hk, hcache'⟩
      · rintro ⟨-, e', he', hk, hcache⟩
        obtain ⟨hne, hcache⟩ := hin.mpr ⟨e', he', hcache⟩
        exact ⟨hne, e, rfl, (ho e' he').1.symm.trans hk, hcache⟩
    · rw [hother ha, and_iff_right (hx a ha), and_iff_right (by simp)]
  case idle =>
    intro a
    by_cases ha : a = h
    · rw [ha, hself, hlruh]
    · rw [hlru a ha, hother ha, hc.idle]
  case nodup => exact hnodup
  case fresh =>
    intro a e' he'
    rw [hnext]
    by_cases ha : a = h
    · exact ha ▸ hc.fresh he
    · rw [hother ha] at he'
      exact hc.fresh he'

/-- An entry in use is not idle. -/
theorem Ok.notMem_lru (hc : Ok c x) (he : c.mem h = some e) (hno : ¬(e.inCache = true ∧ e.refs = 1)) :
    h ∉ c.lru := by
  rw [hc.idle]
  rintro ⟨e', he', hidle⟩
  obtain rfl := Option.some.inj (he.symm.trans he')
  exact hno hidle

/-- A client's reference is dropped. -/
theorem Ok.unref (hc : Ok c none) (he : c.mem h = some e) (hrefs : e.inCache.toNat < e.refs)
    {vs : List V} (h' : c.unref h = some (c', vs)) : Ok c' none := by
  have hnot : h ∉ c.lru := hc.notMem_lru he fun hidle => by simp [hidle.1, hidle.2] at hrefs
  rw [LruCache.unref, he] at h'
  simp only [List.erase_of_not_mem hnot] at h'
  split at h'
  · rename_i hzero
    have hout : e.inCache = false := by
      cases hcache : e.inCache with
      | false => rfl
      | true => simp only [hcache, Bool.toNat_true] at hrefs; omega
    obtain ⟨rfl, rfl⟩ := Prod.mk.inj (Option.some.inj h')
    refine hc.set (fun _ _ => by simp) he rfl rfl rfl hc.nodup (fun _ _ => Iff.rfl) ?_ (by simp) ?_
    · exact iff_of_false hnot (by simp)
    · exact iff_of_false (by simp [hout]) (by simp)
  split at h'
  · rename_i hzero hidle
    simp only [Bool.and_eq_true, decide_eq_true_eq] at hidle
    obtain ⟨rfl, rfl⟩ := Prod.mk.inj (Option.some.inj h')
    refine hc.set (fun _ _ => by simp) he rfl rfl rfl ?_ (fun a ha => ?_) ?_ ?_ ?_
    · exact List.nodup_append.mpr ⟨hc.nodup, List.nodup_singleton h, by
        rintro a ha b hb rfl
        exact hnot (List.mem_singleton.mp hb ▸ ha)⟩
    · rw [List.mem_append, List.mem_singleton, or_iff_left ha]
    · exact iff_of_true (List.mem_append_right _ (List.mem_singleton_self h)) ⟨_, rfl, hidle⟩
    · intro e' he'
      obtain rfl := Option.some.inj he'
      exact ⟨rfl, Nat.pos_of_ne_zero hzero⟩
    · exact iff_of_true ⟨by simp, hidle.1⟩ ⟨_, rfl, hidle.1⟩
  · rename_i hzero hidle
    obtain ⟨rfl, rfl⟩ := Prod.mk.inj (Option.some.inj h')
    refine hc.set (fun _ _ => by simp) he rfl rfl rfl hc.nodup (fun _ _ => Iff.rfl) ?_ ?_ ?_
    · refine iff_of_false hnot ?_
      rintro ⟨e', he', hidle'⟩
      obtain rfl := Option.some.inj he'
      exact hidle (by simpa using hidle')
    · intro e' he'
      obtain rfl := Option.some.inj he'
      exact ⟨rfl, Nat.pos_of_ne_zero hzero⟩
    · refine ⟨fun hin => ⟨_, rfl, hin.2⟩, ?_⟩
      rintro ⟨e', he', hin⟩
      obtain rfl := Option.some.inj he'
      exact ⟨by simp, hin⟩

/-- An entry that is not in the table any more leaves the cache. -/
theorem Ok.remove (hc : Ok c (some h)) (he : c.mem h = some e) {vs : List V}
    (h' : c.remove h = some (c', vs)) : Ok c' none := by
  have hpos := hc.pos he
  obtain ⟨c₁, hrun, hmem, hlru, htable, hnext, -⟩ := LruCache.remove_eq he
  obtain ⟨rfl, rfl⟩ := Prod.mk.inj (Option.some.inj (hrun.symm.trans h'))
  have hnot : h ∉ c₁.lru := by
    rw [hlru]
    split
    · exact hc.nodup.not_mem_erase
    · exact hc.notMem_lru he fun hidle => by omega
  refine hc.set (fun a ha => fun heq => ha (Option.some.inj heq)) he hmem hnext htable ?_ (fun a ha => ?_)
    (iff_of_false hnot ?_) ?_ (iff_of_false (fun hne => hne.1 rfl) ?_)
  · rw [hlru]
    split
    · exact hc.nodup.erase h
    · exact hc.nodup
  · rw [hlru]
    split
    · exact List.mem_erase_of_ne ha
    · rfl
  all_goals
    rw [LruCache.afterRemove]
    split
  · simp
  · rintro ⟨e', he', hin, -⟩
    obtain rfl := Option.some.inj he'
    cases hin
  · simp
  · intro e' he'
    obtain rfl := Option.some.inj he'
    exact ⟨rfl, Nat.pos_of_ne_zero ‹_›⟩
  · simp
  · rintro ⟨e', he', hin⟩
    obtain rfl := Option.some.inj he'
    cases hin

/-- A client's reference is added. -/
theorem Ok.ref (hc : Ok c none) (he : c.mem h = some e) (h' : c.ref h = some c') : Ok c' none := by
  have hpos := hc.pos he
  rw [LruCache.ref, he] at h'
  obtain rfl := Option.some.inj h'
  refine hc.set (fun _ _ => by simp) he rfl rfl rfl ?_ (fun a ha => ?_) (iff_of_false ?_ ?_) ?_ ?_
  · simp only []
    split
    · exact hc.nodup.erase h
    · exact hc.nodup
  · simp only []
    split
    · exact List.mem_erase_of_ne ha
    · rfl
  · simp only []
    split
    · exact hc.nodup.not_mem_erase
    · rename_i hno
      exact hc.notMem_lru he fun hidle => hno (by simpa using hidle.symm)
  · rintro ⟨e', he', -, hone⟩
    obtain rfl := Option.some.inj he'
    simp only [] at hone
    omega
  · intro e' he'
    obtain rfl := Option.some.inj he'
    exact ⟨rfl, Nat.succ_pos _⟩
  · refine ⟨fun hin => ⟨_, rfl, hin.2⟩, ?_⟩
    rintro ⟨e', he', hin⟩
    obtain rfl := Option.some.inj he'
    exact ⟨by simp, hin⟩

/-- What the table says of a key. -/
theorem Ok.table_key {k k' : Slice} (hc : Ok c none) (ht : c.table k = some h) (he : c.mem h = some e)
    (hk : e.key = k') : k = k' := by
  obtain ⟨-, e', he', rfl, -⟩ := hc.table.mp ht
  obtain rfl := Option.some.inj (he.symm.trans he')
  exact hk

/-- A key is taken out of the table. -/
theorem Ok.take {k : Slice} (hc : Ok c none) (ht : c.table k = some h) :
    Ok { c with table := Function.update c.table k none } (some h) where
  pos := hc.pos
  table := by
    intro k' a
    by_cases hk : k' = k
    · subst hk
      simp only [Function.update_self]
      refine iff_of_false (by simp) ?_
      rintro ⟨hne, he⟩
      exact hne ((hc.table.mpr ⟨by simp, he⟩).symm.trans ht)
    · simp only [Function.update_of_ne hk, hc.table]
      refine ⟨?_, fun he => ⟨by simp, he.2⟩⟩
      rintro ⟨-, e, he, hkey, hcache⟩
      refine ⟨fun heq => ?_, e, he, hkey, hcache⟩
      rw [Option.some.inj heq] at he
      exact hk (hc.table_key ht he hkey).symm
  idle := hc.idle
  nodup := hc.nodup
  fresh := hc.fresh

/-- A new entry, in the cache when `b`: then the old entry of its key is not in the table any
more. -/
theorem Ok.alloc (hc : Ok c none) {key : Slice} {v : V} {charge : Nat} (b : Bool)
    (hmem : c'.mem = Function.update c.mem c.next (some ⟨key, v, charge, 1 + b.toNat, b⟩))
    (hnext : c'.next = c.next + 1) (hlru : c'.lru = c.lru)
    (htable : c'.table = if b then Function.update c.table key (some c.next) else c.table) :
    Ok c' (if b then c.table key else none) := by
  have hself : c'.mem c.next = some ⟨key, v, charge, 1 + b.toNat, b⟩ := by rw [hmem, Function.update_self]
  have hother : ∀ {a}, a ≠ c.next → c'.mem a = c.mem a := fun ha => by rw [hmem, Function.update_of_ne ha]
  have hne : ∀ {a e}, c.mem a = some e → a ≠ c.next := fun he => (hc.fresh he).ne
  -- nothing could point to the new handle before
  have hold : ∀ k, c.table k ≠ some c.next := by
    intro k ht
    obtain ⟨-, e, he, -⟩ := hc.table.mp ht
    exact hne he rfl
  constructor
  case pos =>
    intro a e he
    by_cases ha : a = c.next
    · rw [ha, hself] at he
      obtain rfl := Option.some.inj he
      exact Nat.succ_le_of_lt (by simp only []; omega)
    · rw [hother ha] at he
      exact hc.pos he
  case table =>
    intro k a
    rw [htable]
    cases b with
    | false =>
      simp only [Bool.false_eq_true, if_false]
      by_cases ha : a = c.next
      · subst ha
        rw [hself]
        refine iff_of_false (hold k) ?_
        rintro ⟨-, e, he, -, hcache⟩
        obtain rfl := Option.some.inj he
        cases hcache
      · rw [hother ha, hc.table]
    | true =>
      simp only [if_true]
      by_cases ha : a = c.next
      · subst ha
        rw [hself]
        by_cases hk : k = key
        · rw [hk, Function.update_self]
          exact iff_of_true rfl ⟨(hold key).symm, _, rfl, rfl, rfl⟩
        · -- the new entry is found under its own key only
          rw [Function.update_of_ne hk]
          refine iff_of_false (hold k) ?_
          rintro ⟨-, e, he, rfl, -⟩
          obtain rfl := Option.some.inj he
          exact hk rfl
      · rw [hother ha]
        by_cases hk : k = key
        · -- the entry found so far under this key is no longer in the table
          rw [hk, Function.update_self]
          refine iff_of_false (fun heq => ha (Option.some.inj heq).symm) ?_
          rintro ⟨hne, he⟩
          exact hne (hc.table.mpr ⟨by simp, he⟩).symm
        · rw [Function.update_of_ne hk, hc.table]
          refine ⟨?_, fun he => ⟨by simp, he.2⟩⟩
          rintro ⟨-, e, he, hkey, hcache⟩
          exact ⟨fun ht => hk (hc.table_key ht.symm he hkey).symm, e, he, hkey, hcache⟩
  case idle =>
    intro a
    rw [hlru]
    by_cases ha : a = c.next
    · subst ha
      rw [hself]
      refine iff_of_false (fun hin => ?_) ?_
      · obtain ⟨e, he, -⟩ := hc.idle.mp hin
        exact hne he rfl
      · rintro ⟨e, he, hcache, hone⟩
        obtain rfl := Option.some.inj he
        simp only [] at hcache hone
        simp [hcache] at hone
    · rw [hother ha, hc.idle]
  case nodup => exact hlru ▸ hc.nodup
  case fresh =>
    intro a e he
    rw [hnext]
    by_cases ha : a = c.next
    · exact ha ▸ Nat.lt_succ_self _
    · rw [hother ha] at he
      exact Nat.lt_succ_of_lt (hc.fresh he)

/-- The entries in the cache. -/
def cached (c : LruCache V) : List Nat :=
  (List.range c.next).filter fun h => (c.mem h).any LruEntry.inCache

/-! ## What the charges add up to

`usage_` is a sum over entries that is kept up to date by additions and subtractions. In words
these are right as long as the sum is below `2 ^ 64`: then each subtraction takes away a part of
it. For `total_usage_`, which has no such bound, the word is the sum modulo `2 ^ 64`, and
nothing is decided by it. -/

/-- The sum of `f` over the entries. -/
def total (c : LruCache V) (f : LruEntry V → Nat) : Nat :=
  ∑ a ∈ Finset.range c.next, ((c.mem a).map f).getD 0

/-- What an entry adds to `usage_`. -/
def used (e : LruEntry V) : Nat := if e.inCache then e.charge else 0

/-- The two usage numbers. -/
structure Charged (c : LruCache V) : Prop where
  usage : c.usage = total c used
  totalUsage : c.totalUsage = total c LruEntry.charge

/-- An entry's share is part of the sum. -/
theorem le_total (hh : h < c.next) (he : c.mem h = some e) (f : LruEntry V → Nat) : f e ≤ total c f := by
  have hle := Finset.single_le_sum (f := fun a => ((c.mem a).map f).getD 0) (fun _ _ => Nat.zero_le _)
    (Finset.mem_range.mpr hh)
  simp only [he, Option.map_some, Option.getD_some] at hle
  exact hle

/-- The entry at `h` changes or is deleted. -/
theorem total_update (hh : h < c.next) (he : c.mem h = some e) {o : Option (LruEntry V)}
    (hmem : c'.mem = Function.update c.mem h o) (hnext : c'.next = c.next) (f : LruEntry V → Nat) :
    total c' f + f e = total c f + (o.map f).getD 0 := by
  have hin := Finset.mem_range.mpr hh
  rw [total, total, hnext, ← Finset.add_sum_erase _ _ hin, ← Finset.add_sum_erase _ _ hin]
  have hrest : ∑ a ∈ (Finset.range c.next).erase h, ((c'.mem a).map f).getD 0 =
      ∑ a ∈ (Finset.range c.next).erase h, ((c.mem a).map f).getD 0 := by
    refine Finset.sum_congr rfl fun a ha => ?_
    rw [hmem, Function.update_of_ne (Finset.ne_of_mem_erase ha)]
  rw [hrest, hmem, Function.update_self, he, Option.map_some, Option.getD_some]
  omega

/-- An entry is new. -/
theorem total_alloc (hmem : c'.mem = Function.update c.mem c.next (some e)) (hnext : c'.next = c.next + 1)
    (f : LruEntry V → Nat) : total c' f = total c f + f e := by
  rw [total, total, hnext, Finset.sum_range_succ, hmem, Function.update_self, Option.map_some,
    Option.getD_some]
  refine congrArg (· + f e) (Finset.sum_congr rfl fun a ha => ?_)
  rw [Function.update_of_ne (Finset.mem_range.mp ha).ne]

theorem Charged.empty (capacity : Nat) : Charged (LruCache.empty capacity : LruCache V) := ⟨rfl, rfl⟩

theorem Charged.le_totalUsage (hq : Charged c) (hh : h < c.next) (he : c.mem h = some e) :
    e.charge ≤ c.totalUsage :=
  hq.totalUsage ▸ le_total hh he LruEntry.charge

theorem Charged.le_usage (hq : Charged c) (hh : h < c.next) (he : c.mem h = some e)
    (hin : e.inCache = true) : e.charge ≤ c.usage := by
  have hle := le_total hh he used
  rwa [used, if_pos hin, ← hq.usage] at hle

/-- Nothing is charged any more for an entry that is deleted, and for one that stays what it
has been charged. -/
theorem Charged.set (hq : Charged c) (hh : h < c.next) (he : c.mem h = some e) {o : Option (LruEntry V)}
    (hmem : c'.mem = Function.update c.mem h o) (hnext : c'.next = c.next)
    (husage : c'.usage = c.usage - used e + (o.map used).getD 0)
    (htotal : c'.totalUsage = c.totalUsage - e.charge + (o.map LruEntry.charge).getD 0) : Charged c' := by
  have hu := total_update hh he hmem hnext used
  have ht := total_update hh he hmem hnext LruEntry.charge
  have hu' := le_total hh he used
  have ht' := le_total hh he LruEntry.charge
  have husage₀ := hq.usage
  have htotal₀ := hq.totalUsage
  constructor <;> omega

theorem Charged.unref (hq : Charged c) (hh : h < c.next) (he : c.mem h = some e)
    (hlast : e.refs - 1 = 0 → e.inCache = false) {vs : List V} (h' : c.unref h = some (c', vs)) :
    Charged c' := by
  have hle := hq.le_totalUsage hh he
  have hsame : c.usage = c.usage - used e + used e := by
    have hu := le_total hh he used
    rw [← hq.usage] at hu
    omega
  rw [LruCache.unref, he] at h'
  simp only [] at h'
  split at h'
  · rename_i hzero
    obtain ⟨rfl, rfl⟩ := Prod.mk.inj (Option.some.inj h')
    refine hq.set hh he rfl rfl ?_ rfl
    simp [used, hlast hzero]
  split at h'
  all_goals
    obtain ⟨rfl, rfl⟩ := Prod.mk.inj (Option.some.inj h')
    exact hq.set hh he rfl rfl hsame (Nat.sub_add_cancel hle).symm

theorem Charged.ref (hq : Charged c) (hh : h < c.next) (he : c.mem h = some e)
    (h' : c.ref h = some c') : Charged c' := by
  have hu := le_total hh he used
  rw [← hq.usage] at hu
  rw [LruCache.ref, he] at h'
  obtain rfl := Option.some.inj h'
  exact hq.set hh he rfl rfl (Nat.sub_add_cancel hu).symm (Nat.sub_add_cancel (hq.le_totalUsage hh he)).symm

/-- `Remove` takes the charge from the usage before it drops the reference. -/
theorem Charged.remove (hq : Charged c) (hh : h < c.next) (he : c.mem h = some e) (hin : e.inCache = true)
    {vs : List V} (h' : c.remove h = some (c', vs)) : Charged c' := by
  have hle := hq.le_totalUsage hh he
  rw [LruCache.remove, he] at h'
  have hq' : Charged { c with
      mem := Function.update c.mem h (some { e with inCache := false })
      usage := c.usage - e.charge } := by
    refine hq.set hh he rfl rfl ?_ (Nat.sub_add_cancel hle).symm
    simp [used, hin]
  exact hq'.unref hh (Function.update_self ..) (fun _ => rfl) h'

/-- A new entry is charged for. -/
theorem Charged.alloc (hq : Charged c) (hmem : c'.mem = Function.update c.mem c.next (some e))
    (hnext : c'.next = c.next + 1) (husage : c'.usage = c.usage + used e)
    (htotal : c'.totalUsage = c.totalUsage + e.charge) : Charged c' := by
  constructor
  · rw [husage, hq.usage, total_alloc hmem hnext]
  · rw [htotal, hq.totalUsage, total_alloc hmem hnext]

/-! ## The table

The hash table of the memory and the finite map of the abstract cache hold the same entries. All
that is used of the table is its specification in `HashTable`; the hash is any function of the
key. -/

section Simulation

variable (H : Slice → UInt32)

/-- The hash table has the entries of the table. -/
structure Tabled (m : LruMemory V) (c : LruCache V) (E : Finset Nat) : Prop where
  holds : m.table.Holds m.key m.hash E
  mem : ∀ k h, c.table k = some h ↔ h ∈ E ∧ m.key h = k
  hash : ∀ h ∈ E, m.hash h = H (m.key h)

variable {H} {E : Finset Nat}

/-- A search by key finds what is in the table. -/
theorem Tabled.finds (ht : Tabled H m c E) (k : Slice) :
    HashTable.Finds m.key m.hash E k (H k) (c.table k) := by
  intro h
  rw [ht.mem k h]
  constructor
  · rintro ⟨hin, rfl⟩
    exact ⟨hin, rfl, ht.hash h hin⟩
  · rintro ⟨hin, hk, -⟩
    exact ⟨hin, hk⟩

/-- An entry outside the table changes. -/
theorem Tabled.congr (ht : Tabled H m c E) (htm : m'.table = m.table) (htc : c'.table = c.table)
    (hmem : ∀ h ∈ E, m'.key h = m.key h) (hhash : ∀ h ∈ E, m'.hash h = m.hash h) : Tabled H m' c' E where
  holds := by
    rw [htm]
    exact ht.holds.congr hmem hhash
  mem k h := by
    rw [htc, ht.mem k h]
    exact and_congr_right fun hin => by rw [hmem h hin]
  hash h hin := by rw [hhash h hin, hmem h hin, ht.hash h hin]

/-- A key is removed from both. -/
theorem Tabled.take {t : HashTable} (ht : Tabled H m c E) (k : Slice)
    (hh : t.Holds m.key m.hash (HashTable.others m.key m.hash E k (H k))) :
    Tabled H { m with table := t } { c with table := Function.update c.table k none }
      (HashTable.others m.key m.hash E k (H k)) where
  holds := hh
  mem k' h := by
    rw [HashTable.others, Finset.mem_filter]
    by_cases hk : k' = k
    · subst hk
      simp only [Function.update_self]
      refine iff_of_false (by simp) ?_
      rintro ⟨⟨hin, hne⟩, rfl⟩
      exact hne ⟨rfl, ht.hash h hin⟩
    · simp only [Function.update_of_ne hk, ht.mem]
      constructor
      · rintro ⟨hin, hkey⟩
        exact ⟨⟨hin, fun hc => hk (hkey.symm.trans hc.1)⟩, hkey⟩
      · rintro ⟨hin, hkey⟩
        exact ⟨hin.1, hkey⟩
  hash h hin := ht.hash h (Finset.mem_filter.mp hin).1

/-! ## The operations

The simulation relation is the lists, the words and the table together. Most operations touch
one entry, its place in the lists, and perhaps its key in the table. Each part of the relation
has a lemma for this, and the operations put them together. -/

variable (H) in
/-- **The simulation relation**. The lists and fields are those of the cache (`Listed`),
the hash table holds the entries that are in the cache, and the cache is well formed,
with charges that add up. -/
structure Sim (m : LruMemory V) (c : LruCache V) : Prop where
  listed : Listed m c
  ok : Ok c none
  charged : Charged c
  tabled : ∃ E, Tabled H m c E

/-- The table is what it was. -/
theorem Sim.of_table (hl : Listed m' c') (hok : Ok c' none) (hq : Charged c') (ht : Tabled H m c E)
    (htm : m'.table = m.table) (hhash : ∀ h ∈ E, m'.hash h = m.hash h) (htc : c'.table = c.table) :
    Sim H m' c' := by
  refine ⟨hl, hok, hq, E, ht.congr htm htc (fun a ha => ?_) hhash⟩
  have hta : c'.table (m.key a) = some a := by
    rw [htc]
    exact (ht.mem _ a).mpr ⟨ha, rfl⟩
  obtain ⟨-, e, he, hk, -⟩ := hok.table.mp hta
  rw [hl.key_eq he]
  exact hk

/-- Only the entry and the lists change, with `Unref`. -/
theorem unref_same {vs : List V} (h' : c.unref h = some (c', vs)) :
    c'.table = c.table ∧ c'.usage = c.usage ∧ c'.capacity = c.capacity := by
  rw [LruCache.unref] at h'
  split at h'
  · cases h'
  · simp only [] at h'
    split at h'
    · cases h'
      exact ⟨rfl, rfl, rfl⟩
    split at h' <;> cases h' <;> exact ⟨rfl, rfl, rfl⟩

/-- And with `Ref`. -/
theorem ref_same (h' : c.ref h = some c') :
    c'.table = c.table ∧ c'.usage = c.usage ∧ c'.capacity = c.capacity := by
  rw [LruCache.ref] at h'
  split at h'
  · cases h'
  · cases h'
    exact ⟨rfl, rfl, rfl⟩

/-- **`Release`**. -/
theorem Sim.release (hs : Sim H m c) (he : c.mem h = some e) (hrefs : e.inCache.toNat < e.refs) :
    ∃ c' vs m', c.release h = some (c', vs) ∧ m.unref h = some (m', vs) ∧ Sim H m' c' := by
  obtain ⟨E, ht⟩ := hs.tabled
  have hlast : e.refs = 1 → e.inCache = false := by
    intro hone
    cases hc : e.inCache with
    | false => rfl
    | true => simp [hc, hone] at hrefs
  have hpos := hs.ok.pos he
  have hh := hs.ok.fresh he
  obtain ⟨c', vs, m', hrun, hrun', hl, htm, hhash⟩ :=
    hs.listed.unref he hpos hlast (hs.charged.le_totalUsage hh he)
  have hq := hs.charged.unref hh he (fun hzero => hlast (by omega)) hrun
  exact ⟨c', vs, m', hrun, hrun',
    .of_table hl (hs.ok.unref he hrefs hrun) hq ht htm (fun _ _ => congrFun hhash _) (unref_same hrun).1⟩

/-- **`Ref`**. -/
theorem Sim.ref (hs : Sim H m c) (he : c.mem h = some e) (hroom : e.refs + 1 < 2 ^ 32) :
    ∃ c' m', c.ref h = some c' ∧ m.ref h = some m' ∧ Sim H m' c' := by
  obtain ⟨E, ht⟩ := hs.tabled
  obtain ⟨c', m', hrun, hrun', hl, htm, hhash⟩ := hs.listed.ref he hroom
  exact ⟨c', m', hrun, hrun', .of_table hl (hs.ok.ref he hrun) (hs.charged.ref (hs.ok.fresh he) he hrun) ht htm
    (fun _ _ => congrFun hhash _) (ref_same hrun).1⟩

/-- An entry that has been taken out of both tables. -/
theorem Sim.of_remove (hl : Listed m c) (hok : Ok c (some h)) (hq : Charged c) (ht : Tabled H m c E)
    (he : c.mem h = some e) (hcache : e.inCache = true) :
    ∃ c' vs m', c.remove h = some (c', vs) ∧ m.remove h = some (m', vs) ∧ Sim H m' c' := by
  have hh := hok.fresh he
  obtain ⟨c', vs, m', hrun, hrun', hl', htm, hhash⟩ :=
    hl.remove he (hok.pos he) hcache (hq.le_usage hh he hcache) (hq.le_totalUsage hh he)
  obtain ⟨c₁, hrun₁, -, -, htc, -⟩ := LruCache.remove_eq he
  obtain ⟨rfl, -⟩ := Prod.mk.inj (Option.some.inj (hrun₁.symm.trans hrun))
  exact ⟨c₁, vs, m', hrun, hrun',
    .of_table hl' (hok.remove he hrun) (hq.remove hh he hcache hrun) ht htm (fun _ _ => congrFun hhash _) htc⟩

/-- **`Lookup`**. -/
theorem Sim.lookup (hs : Sim H m c) (k : Slice)
    (hroom : ∀ h e, c.table k = some h → c.mem h = some e → e.refs + 1 < 2 ^ 32) :
    ∃ c' m' r, c.lookup k = some (c', r) ∧ m.lookup k (H k) = some (m', r) ∧ Sim H m' c' := by
  obtain ⟨E, ht⟩ := hs.tabled
  obtain ⟨r, hfind, hf⟩ := ht.holds.find k (H k)
  obtain rfl := hf.eq (ht.finds k)
  rw [LruCache.lookup, LruMemory.lookup, hfind]
  cases htk : c.table k with
  | none => exact ⟨c, m, none, rfl, rfl, hs⟩
  | some h =>
    obtain ⟨-, e, he, -, -⟩ := hs.ok.table.mp htk
    obtain ⟨c', m', hrun, hrun', hs'⟩ := hs.ref he (hroom h e htk he)
    exact ⟨c', m', some h, by simp [hrun], by simp [hrun'], hs'⟩

/-- **A key leaves the cache**. The hash table is asked for the entry by key and hash,
and finds the one the cache has. -/
theorem Sim.removeKey {k : Slice} (hs : Sim H m c) (htk : c.table k = some h) :
    ∃ c' vs m', c.removeKey k = some (c', vs) ∧ m.removeKey k (H k) h = some (m', vs) ∧ Sim H m' c' := by
  obtain ⟨E, ht⟩ := hs.tabled
  obtain ⟨t, r, hrun, hf, hh⟩ := ht.holds.removeKey k (H k)
  obtain rfl := hf.eq (ht.finds k)
  obtain ⟨-, e, he, -, hcache⟩ := hs.ok.table.mp htk
  rw [LruCache.removeKey, LruMemory.removeKey, hrun, htk]
  simp only [if_true]
  have hl : Listed { m with table := t } { c with table := Function.update c.table k none } :=
    ⟨hs.listed.capacity, hs.listed.totalUsage, hs.listed.usage, hs.listed.mem, hs.listed.alloc,
      hs.listed.rings⟩
  exact Sim.of_remove hl (hs.ok.take htk) ⟨hs.charged.usage, hs.charged.totalUsage⟩ (ht.take k hh) he hcache

/-- **`Erase`**, of an entry. -/
theorem Sim.erase (hs : Sim H m c) (he : c.mem h = some e) :
    ∃ c' vs m', c.erase h = some (c', vs) ∧ m.erase h = some (m', vs) ∧ Sim H m' c' := by
  obtain ⟨E, ht⟩ := hs.tabled
  obtain ⟨t, hrun, hh⟩ := ht.holds.removeEntry h
  have hkey := hs.listed.key_eq he
  have htk := ht.mem e.key h
  rw [hkey, and_iff_left rfl] at htk
  rw [LruCache.erase, LruMemory.erase, hrun, he]
  simp only []
  by_cases hin : h ∈ E
  · rw [if_pos hin, if_pos (htk.mpr hin)]
    obtain ⟨-, e', he', -, hcache⟩ := hs.ok.table.mp (htk.mpr hin)
    have hl : Listed { m with table := t } { c with table := Function.update c.table e.key none } :=
      ⟨hs.listed.capacity, hs.listed.totalUsage, hs.listed.usage, hs.listed.mem, hs.listed.alloc,
        hs.listed.rings⟩
    have hf := ht.finds e.key
    rw [htk.mpr hin] at hf
    rw [← hf.others_some] at hh
    exact Sim.of_remove hl (hs.ok.take (htk.mpr hin)) ⟨hs.charged.usage, hs.charged.totalUsage⟩
      (ht.take e.key hh) he' hcache
  · rw [if_neg hin, if_neg (htk.not.mpr hin)]
    rw [Finset.erase_eq_of_notMem hin] at hh
    refine ⟨c, [], { m with table := t }, rfl, rfl, ?_, hs.ok, hs.charged, E, hh, ht.mem, ht.hash⟩
    exact ⟨hs.listed.capacity, hs.listed.totalUsage, hs.listed.usage, hs.listed.mem, hs.listed.alloc,
      hs.listed.rings⟩

/-! ## Insertion

`Insert` has three parts: the new entry is made and takes the place of an old one of its key,
idle entries are evicted while there are too many, and the new one is ejected if it is too large
by itself. Both levels go through the same parts with the same entries, since they agree on the
order of the idle list and on what is over capacity. -/

/-- What a removal changes. -/
structure Removed (c c' : LruCache V) (h : Nat) (e : LruEntry V) : Prop where
  lru : c'.lru = c.lru.erase h
  usage : c'.usage = c.usage - e.charge
  capacity : c'.capacity = c.capacity
  next : c'.next = c.next
  mem : ∀ a, a ≠ h → c'.mem a = c.mem a

theorem removed (hc : Ok c x) (he : c.mem h = some e) {vs : List V} (h' : c.remove h = some (c', vs)) :
    Removed c c' h e := by
  have husage : c'.usage = c.usage - e.charge := by
    rw [LruCache.remove, he] at h'
    simp only [LruCache.unref, Function.update_self, Bool.false_and] at h'
    split at h' <;> cases h' <;> rfl
  obtain ⟨c₁, hrun, hmem, hlru, -, hnext, hcap⟩ := LruCache.remove_eq he
  obtain ⟨rfl, -⟩ := Prod.mk.inj (Option.some.inj (hrun.symm.trans h'))
  refine ⟨?_, husage, hcap, hnext, fun a ha => by rw [hmem, Function.update_of_ne ha]⟩
  rw [hlru]
  split
  · rfl
  · refine (List.erase_of_not_mem (hc.notMem_lru he fun hidle => ?_)).symm
    omega

theorem removed_of_removeKey {k : Slice} (hc : Ok c none) (htk : c.table k = some h)
    (he : c.mem h = some e) {vs : List V} (h' : c.removeKey k = some (c', vs)) : Removed c c' h e := by
  rw [LruCache.removeKey, htk] at h'
  have hr := removed (hc.take htk) he h'
  exact ⟨hr.lru, hr.usage, hr.capacity, hr.next, hr.mem⟩

/-- **One eviction**. The entry is the first of `lru_`, so only the cache references it,
which the code asserts; and it is in the table under its key, where the removal finds
it. -/
theorem Sim.evict (hs : Sim H m c) {a : Nat} {l : List Nat} (hlru : c.lru = a :: l) :
    ∃ c' vs m', c.evict = some (c', vs) ∧ m.evict = some (m', vs) ∧ Sim H m' c' ∧
      c'.lru = l ∧ c'.usage ≤ c.usage ∧ c'.capacity = c.capacity ∧ ∀ b, b ≠ a → c'.mem b = c.mem b := by
  obtain ⟨E, ht⟩ := hs.tabled
  obtain ⟨us, hr, -⟩ := hs.listed.rings
  obtain ⟨e, he, hcache, hone⟩ := hs.ok.idle.mp (hlru ▸ List.mem_cons_self ..)
  have htk : c.table e.key = some a := hs.ok.table.mpr ⟨by simp, e, he, rfl, hcache⟩
  obtain ⟨hin, hkey⟩ := (ht.mem _ _).mp htk
  have hhash : m.hash a = H e.key := by rw [ht.hash a hin, hkey]
  obtain ⟨c', vs, m', hrun, hrun', hs'⟩ := hs.removeKey htk
  have hrem := removed_of_removeKey hs.ok htk he hrun
  refine ⟨c', vs, m', ?_, ?_, hs', ?_, ?_, hrem.capacity, hrem.mem⟩
  · rw [LruCache.evict, hlru]
    simp only [he, hrun]
  · have hnext : m.links.next .lru = .entry a := by
      rw [hr.next_lru, hlru]
      rfl
    obtain ⟨w, hw, rfl⟩ := hs.listed.entry he
    have hkey : w.key = w.toLru.key := rfl
    have hone' : w.refs = 1 := UInt32.toNat_inj.mp hone
    rw [LruMemory.evict, hnext]
    simp only [hw, if_pos hone', hkey, hhash, hrun']
  · rw [hrem.lru, hlru, List.erase_cons_head]
  · rw [hrem.usage]
    exact Nat.sub_le ..

/-- Both levels go on evicting as long. -/
theorem Sim.mustEvict (hs : Sim H m c) : m.mustEvict = c.mustEvict := by
  obtain ⟨us, hr, -⟩ := hs.listed.rings
  have hover : decide (m.capacity < m.usage) = decide (c.capacity < c.usage) :=
    decide_eq_decide.mpr hs.listed.over_iff
  rw [LruMemory.mustEvict, LruCache.mustEvict, hr.next_lru, hover]
  cases c.lru <;> simp

/-- **The loop**. It ends because each turn takes an entry off `lru_`, which has finitely
many. -/
theorem Sim.evictLoop (n : Nat) {fuel : Nat} (hs : Sim H m c) (hn : c.lru.length = n) (hfuel : n < fuel) :
    ∃ c' vs m', LruCache.evictLoop n c = some (c', vs) ∧ LruMemory.evictLoop fuel m = some (m', vs) ∧
      Sim H m' c' ∧ c'.usage ≤ c.usage ∧ c'.capacity = c.capacity ∧ ∀ a, a ∉ c.lru → c'.mem a = c.mem a := by
  induction n generalizing m c fuel with
  | zero =>
    obtain ⟨fuel, rfl⟩ : ∃ f, fuel = f + 1 := ⟨fuel - 1, by omega⟩
    have hno : c.mustEvict = false := by
      rw [LruCache.mustEvict, List.length_eq_zero_iff.mp hn]
      simp
    refine ⟨c, [], m, rfl, ?_, hs, le_rfl, rfl, fun _ _ => rfl⟩
    rw [LruMemory.evictLoop, hs.mustEvict, hno]
    rfl
  | succ n ih =>
    obtain ⟨fuel, rfl⟩ : ∃ f, fuel = f + 1 := ⟨fuel - 1, by omega⟩
    rw [LruCache.evictLoop, LruMemory.evictLoop, hs.mustEvict]
    by_cases hmust : c.mustEvict = true
    · obtain ⟨a, l, hlru⟩ := List.exists_cons_of_length_eq_add_one hn
      obtain ⟨c₁, vs, m₁, hrun, hrun', hs₁, hlru₁, husage₁, hcap₁, hmem₁⟩ := hs.evict hlru
      have hn₁ : c₁.lru.length = n := by
        rw [hlru] at hn
        rw [hlru₁]
        exact Nat.succ_inj.mp hn
      obtain ⟨c', ws, m', hloop, hloop', hs', husage, hcap, hmem⟩ := ih hs₁ hn₁ (Nat.lt_of_succ_lt_succ hfuel)
      refine ⟨c', vs ++ ws, m', ?_, ?_, hs', husage.trans husage₁, hcap.trans hcap₁, fun b hb => ?_⟩
      · rw [if_pos hmust]
        simp only [hrun, hloop, Option.map_some]
      · rw [if_pos hmust]
        simp only [hrun', hloop', Option.map_some]
      · rw [hlru, List.mem_cons, not_or] at hb
        rw [hmem b (hlru₁ ▸ hb.2), hmem₁ b hb.1]
    · rw [if_neg hmust, if_neg hmust]
      exact ⟨c, [], m, rfl, rfl, hs, le_rfl, rfl, fun _ _ => rfl⟩

/-- A new entry is put into both, in the place of the old one of its key. -/
theorem Tabled.put (ht : Tabled H m c E) (hcard : E.card < 2 ^ 31) (m₁ : LruMemory V)
    (c₁ : LruCache V) {key : Slice}
    (hnew : h ∉ E) (hkeys : ∀ a ∈ E, m₁.key a = m.key a) (hhash : ∀ a ∈ E, m₁.hash a = m.hash a)
    (hk : m₁.key h = key) (hh : m₁.hash h = H key)
    (htc : c₁.table = Function.update c.table key (some h)) :
    ∃ t, m.table.insert m₁.key m₁.hash h = some (t, c.table key) ∧
      Tabled H { m₁ with table := t } c₁
        (insert h (HashTable.others m₁.key m₁.hash E key (H key))) := by
  have hold := ht.holds.congr hkeys hhash
  obtain ⟨t, r, hrun, hf, hh'⟩ := hold.insert hnew (HashTable.card_insert_others hcard)
  rw [hk, hh] at hf hh'
  obtain rfl := hf.eq ((ht.finds key).congr hkeys hhash)
  refine ⟨t, hrun, hh', fun k a => ?_, fun a ha => ?_⟩
  · rw [htc, Finset.mem_insert, HashTable.others, Finset.mem_filter]
    by_cases ha : a = h
    · subst ha
      by_cases hkk : k = key
      · rw [hkk, Function.update_self]
        exact iff_of_true rfl ⟨.inl rfl, hk⟩
      · rw [Function.update_of_ne hkk, ht.mem]
        exact iff_of_false (fun hin => hnew hin.1) fun hin => hkk (hin.2.symm.trans hk)
    · rw [or_iff_right ha]
      by_cases hkk : k = key
      · rw [hkk, Function.update_self]
        refine iff_of_false (fun heq => ha (Option.some.inj heq).symm) ?_
        rintro ⟨⟨hin, hne⟩, hak⟩
        have hak : m₁.key a = key := hak
        exact hne ⟨hak, by rw [hhash a hin, ht.hash a hin, ← hkeys a hin, hak]⟩
      · rw [Function.update_of_ne hkk, ht.mem]
        constructor
        · rintro ⟨hin, hak⟩
          have hak' : m₁.key a = k := (hkeys a hin).trans hak
          exact ⟨⟨hin, fun hc => hkk (hak'.symm.trans hc.1)⟩, hak'⟩
        · rintro ⟨⟨hin, -⟩, hak⟩
          exact ⟨hin, (hkeys a hin).symm.trans hak⟩
  · rcases Finset.mem_insert.mp ha with rfl | ha
    · exact hh.trans (congrArg H hk).symm
    · have hin := (Finset.mem_filter.mp ha).1
      show m₁.hash a = H (m₁.key a)
      rw [hhash a hin, hkeys a hin, ht.hash a hin]

theorem card_lt (hs : Sim H m c) (ht : Tabled H m c E) (hroom : (cached c).length < 2 ^ 31) :
    E.card < 2 ^ 31 := by
  refine (Finset.card_le_card fun h hE => ?_).trans_lt ((List.toFinset_card_le (cached c)).trans_lt hroom)
  obtain ⟨-, e, he, -, hcache⟩ := hs.ok.table.mp ((ht.mem _ h).mpr ⟨hE, rfl⟩)
  rw [List.mem_toFinset, cached, List.mem_filter]
  exact ⟨List.mem_range.mpr (hs.ok.fresh he), by rw [he]; exact hcache⟩

/-- A new entry, in use. -/
theorem Listed.make (hl : Listed m c) (hok : Ok c none) {w : Entry V} {usage' : UInt64} {usage : Nat}
    (husage : usage'.toNat = usage) (table : Slice → Option Nat) (hash : Nat → UInt32) (t : HashTable) :
    Listed
      { m with
        mem := Function.update m.mem c.next (some w)
        hash := hash
        links := m.links.append .inUse (.entry c.next)
        totalUsage := m.totalUsage + w.charge
        usage := usage'
        alloc := c.next + 1
        table := t }
      { c with
        mem := Function.update c.mem c.next (some w.toLru)
        totalUsage := c.totalUsage + w.charge.toNat
        usage := usage
        table := table
        next := c.next + 1 } := by
  obtain ⟨us, hr, hlive⟩ := hl.rings
  have hfree : c.mem c.next = none := by
    cases he : c.mem c.next with
    | none => rfl
    | some e => exact absurd (hok.fresh he) (Nat.lt_irrefl _)
  have hnot : c.next ∉ c.lru ∧ c.next ∉ us := by
    rw [← not_or, ← hlive, hfree]
    exact Bool.false_ne_true
  have htotal : m.totalUsage + w.charge = .ofNat (c.totalUsage + w.charge.toNat) := by
    rw [hl.totalUsage, UInt64.ofNat_add, UInt64.ofNat_toNat]
  refine ⟨hl.capacity, htotal, husage, map_update hl.mem rfl, rfl, us ++ [c.next],
    hr.append_inUse hnot.1 hnot.2, fun a => ?_⟩
  simp only [List.mem_append, List.mem_singleton]
  by_cases ha : a = c.next
  · subst ha
    simp
  · rw [Function.update_of_ne ha, hlive, or_iff_left ha]

/-- What the first part of an insertion has done. -/
structure Begun (c c' : LruCache V) (key : Slice) (v : V) (charge : Nat) : Prop where
  capacity : c'.capacity = c.capacity
  usage : c'.usage ≤ c.usage + if c.capacity = 0 then 0 else charge
  entry : ∃ e, c'.mem c.next = some e ∧ e.key = key ∧ e.charge = charge ∧
    e.inCache = decide (c.capacity ≠ 0) ∧ e.refs = 1 + e.inCache.toNat

/-- **The first part of `Insert`**. The bound on the charges is used here: the sum is in
the word before anything is evicted. -/
theorem Sim.insertBegin (hs : Sim H m c) (hroom : (cached c).length < 2 ^ 31) (key : Slice) (v : V)
    {charge : UInt64} (hsum : c.capacity ≠ 0 → c.usage + charge.toNat < 2 ^ 64) :
    ∃ c' vs m', c.insertBegin key v charge.toNat = some (c', c.next, vs) ∧
      m.insertBegin key (H key) v charge = some (m', c.next, vs) ∧ Sim H m' c' ∧
      Begun c c' key v charge.toNat := by
  obtain ⟨E, ht⟩ := hs.tabled
  have hl := hs.listed
  -- the handle is new, so writing it leaves every chained entry as it was
  have hnew : c.next ∉ E := by
    intro hin
    obtain ⟨-, e, he, -⟩ := hs.ok.table.mp ((ht.mem _ _).mpr ⟨hin, rfl⟩)
    exact Nat.lt_irrefl _ (hs.ok.fresh he)
  have hne : ∀ {a}, a ∈ E → a ≠ c.next := fun ha => ne_of_mem_of_not_mem ha hnew
  have hhash : ∀ a ∈ E, Function.update m.hash c.next (H key) a = m.hash a := fun a ha =>
    Function.update_of_ne (hne ha) ..
  rw [LruCache.insertBegin, LruMemory.insertBegin, hl.alloc]
  simp only [Function.update_idem, hl.off_iff]
  by_cases hcap : c.capacity = 0
  · -- caching is off: only the client has a reference
    rw [if_pos hcap, if_pos hcap]
    have hok : Ok { c with
        mem := Function.update c.mem c.next (some ⟨key, v, charge.toNat, 1, false⟩)
        totalUsage := c.totalUsage + charge.toNat
        next := c.next + 1 } none := hs.ok.alloc false rfl rfl rfl rfl
    have hq : Charged { c with
        mem := Function.update c.mem c.next (some ⟨key, v, charge.toNat, 1, false⟩)
        totalUsage := c.totalUsage + charge.toNat
        next := c.next + 1 } := hs.charged.alloc rfl rfl rfl rfl
    have hl' := hl.make (w := ⟨key, v, charge, 1, false⟩) hs.ok hl.usage c.table
      (Function.update m.hash c.next (H key)) m.table
    refine ⟨_, _, _, rfl, rfl, .of_table hl' hok hq ht rfl hhash rfl, rfl, ?_, ?_⟩
    · rw [if_pos hcap]
      exact le_rfl
    · exact ⟨_, Function.update_self .., rfl, rfl, by simp [hcap], by simp⟩
  · -- caching is on: one reference for the client and one for the cache
    rw [if_neg hcap, if_neg hcap]
    have husage : (m.usage + charge).toNat = c.usage + charge.toNat := by
      rw [UInt64.toNat_add, hl.usage]
      exact Nat.mod_eq_of_lt (hsum hcap)
    have hok : Ok { c with
        mem := Function.update c.mem c.next (some ⟨key, v, charge.toNat, 2, true⟩)
        totalUsage := c.totalUsage + charge.toNat
        usage := c.usage + charge.toNat
        table := Function.update c.table key (some c.next)
        next := c.next + 1 } (c.table key) := hs.ok.alloc true rfl rfl rfl rfl
    have hq : Charged { c with
        mem := Function.update c.mem c.next (some ⟨key, v, charge.toNat, 2, true⟩)
        totalUsage := c.totalUsage + charge.toNat
        usage := c.usage + charge.toNat
        table := Function.update c.table key (some c.next)
        next := c.next + 1 } := hs.charged.alloc rfl rfl rfl rfl
    obtain ⟨t, hrun, ht'⟩ := ht.put (card_lt hs ht hroom)
      ⟨m.capacity, m.totalUsage + charge, m.usage + charge,
        Function.update m.mem c.next (some ⟨key, v, charge, 2, true⟩),
        Function.update m.hash c.next (H key), c.next + 1, m.links.append .inUse (.entry c.next), m.table⟩
      ⟨c.capacity, c.totalUsage + charge.toNat, c.usage + charge.toNat,
        Function.update c.mem c.next (some ⟨key, v, charge.toNat, 2, true⟩), c.next + 1, c.lru,
        Function.update c.table key (some c.next)⟩
      hnew (fun a ha => by simp only [LruMemory.key, Function.update_of_ne (hne ha)]) hhash
      (by simp [LruMemory.key]) (Function.update_self ..) rfl
    have hl' := hl.make (w := ⟨key, v, charge, 2, true⟩) hs.ok husage
      (Function.update c.table key (some c.next)) (Function.update m.hash c.next (H key)) t
    simp only [hrun]
    -- the table gives back the old entry of this key, which the cache lets go
    cases hold : c.table key with
    | none =>
      rw [hold] at hok
      refine ⟨_, _, _, rfl, rfl, ⟨hl', hok, hq, _, ht'⟩, rfl, ?_, ?_⟩
      · rw [if_neg hcap]
      · exact ⟨_, Function.update_self .., rfl, rfl, by simp [hcap], by simp⟩
    | some o =>
      rw [hold] at hok
      obtain ⟨-, e, he, -, hcache⟩ := hs.ok.table.mp hold
      have hno : o ≠ c.next := (hs.ok.fresh he).ne
      have he₁ : Function.update c.mem c.next (some ⟨key, v, charge.toNat, 2, true⟩) o = some e := by
        rw [Function.update_of_ne hno, he]
      obtain ⟨c', vs, m', hrm, hrm', hs'⟩ := Sim.of_remove hl' hok hq ht' he₁ hcache
      have hr := removed hok he₁ hrm
      refine ⟨c', vs, m', congrArg (Option.map fun p => (p.1, c.next, p.2)) hrm,
        congrArg (Option.map fun p => (p.1, c.next, p.2)) hrm', hs', hr.capacity, ?_, ?_⟩
      · rw [hr.usage, if_neg hcap]
        exact Nat.sub_le ..
      · refine ⟨_, (hr.mem _ hno.symm).trans (Function.update_self ..), rfl, rfl, by simp [hcap], by simp⟩

/-- **The end of `Insert`**: the last assertion holds. If the cache is still over its
capacity, the new entry leaves it again, and without the charge of this one it was
within. -/
theorem Sim.insertEnd {key : Slice} (hs : Sim H m c) (he : c.mem h = some e) (hk : e.key = key)
    (hcache : e.inCache = decide (c.capacity ≠ 0)) (hroom : c.usage - e.charge ≤ c.capacity)
    (hzero : c.capacity = 0 → c.usage ≤ c.capacity) :
    ∃ c' vs m', c.insertEnd key = some (c', vs) ∧ m.insertEnd key (H key) h = some (m', vs) ∧ Sim H m' c' ∧
      c'.usage ≤ c'.capacity ∧ c'.capacity = c.capacity := by
  rw [LruCache.insertEnd, LruMemory.insertEnd]
  simp only [hs.listed.off_iff, hs.listed.over_iff]
  by_cases hcap : c.capacity = 0
  · rw [if_pos hcap, if_pos hcap]
    exact ⟨c, [], m, rfl, rfl, hs, hzero hcap, rfl⟩
  rw [if_neg hcap, if_neg hcap]
  by_cases hover : c.capacity < c.usage
  · have htk : c.table key = some h := hs.ok.table.mpr ⟨by simp, e, he, hk, by simp [hcache, hcap]⟩
    obtain ⟨c', vs, m', hrun, hrun', hs'⟩ := hs.removeKey htk
    have hr := removed_of_removeKey hs.ok htk he hrun
    have hle : c'.usage ≤ c'.capacity := by
      rw [hr.usage, hr.capacity]
      exact hroom
    refine ⟨c', vs, m', by rw [if_pos hover, hrun], ?_, hs', hle, hr.capacity⟩
    simp only [if_pos hover, hrun', if_pos (hs'.listed.within_iff.mpr hle)]
  · have hle : c.usage ≤ c.capacity := Nat.not_lt.mp hover
    refine ⟨c, [], m, by rw [if_neg hover], ?_, hs, hle, rfl⟩
    simp only [if_neg hover, if_pos (hs.listed.within_iff.mpr hle)]

/-- **`Insert`**. -/
theorem Sim.insert (hs : Sim H m c) (hroom : (cached c).length < 2 ^ 31) (husage : c.usage ≤ c.capacity)
    (key : Slice) (v : V) {charge : UInt64} (hsum : c.capacity ≠ 0 → c.usage + charge.toNat < 2 ^ 64) :
    ∃ c' vs m', c.insert key v charge.toNat = some (c', c.next, vs) ∧
      m.insert key (H key) v charge = some (m', c.next, vs) ∧ Sim H m' c' ∧ c'.usage ≤ c'.capacity ∧
      c'.capacity = c.capacity := by
  obtain ⟨c₁, vs₁, m₁, h₁, h₁', hs₁, hb⟩ := hs.insertBegin hroom key v hsum
  obtain ⟨e, he, hk, hcharge, hcache, hrefs⟩ := hb.entry
  have hbusy : c.next ∉ c₁.lru := by
    refine hs₁.ok.notMem_lru he fun hidle => ?_
    rw [hidle.1, Bool.toNat_true] at hrefs
    omega
  have hfuel : c₁.lru.length < m₁.table.elems.toNat + 1 := by
    obtain ⟨E, ht⟩ := hs₁.tabled
    rw [ht.holds.elems, Nat.lt_succ_iff, ← List.toFinset_card_of_nodup hs₁.ok.nodup]
    refine Finset.card_le_card fun a ha => ?_
    obtain ⟨e, he, hin, -⟩ := hs₁.ok.idle.mp (List.mem_toFinset.mp ha)
    exact ((ht.mem _ _).mp (hs₁.ok.table.mpr ⟨by simp, e, he, rfl, hin⟩)).1
  obtain ⟨c₂, vs₂, m₂, h₂, h₂', hs₂, husage₂, hcap₂, hmem₂⟩ := hs₁.evictLoop _ rfl hfuel
  rw [← hmem₂ _ hbusy] at he
  rw [← hb.capacity] at hcache
  have husage₁ := hb.usage
  have hle : c₂.usage - e.charge ≤ c₂.capacity := by
    rw [hcap₂, hb.capacity, hcharge]
    split at husage₁ <;> omega
  have hzero : c₂.capacity = 0 → c₂.usage ≤ c₂.capacity := by
    intro hcap
    rw [hcap₂, hb.capacity] at hcap ⊢
    rw [if_pos hcap] at husage₁
    omega
  obtain ⟨c₃, vs₃, m₃, h₃, h₃', hs₃, husage₃, hcap₃⟩ := hs₂.insertEnd he hk (hcap₂ ▸ hcache) hle hzero
  refine ⟨c₃, vs₁ ++ vs₂ ++ vs₃, m₃, ?_, ?_, hs₃, husage₃, hcap₃.trans (hcap₂.trans hb.capacity)⟩
  · rw [LruCache.insert]
    simp only [h₁, h₂, h₃, Option.bind_eq_bind, Option.bind_some]
  · rw [LruMemory.insert]
    simp only [h₁', h₂', h₃', Option.bind_eq_bind, Option.bind_some]

/-! ## Runs

What a client may call is said on the abstract cache, where it can be checked without pointers:
a handle must be live, `Release` needs a reference, and an insertion needs room. Under this the
two levels stay related, and as the relation includes what is returned and deleted, all of a run
is the same on both. -/

/-- What a client calls. -/
inductive Op (V : Type u) where
  | insert (key : Slice) (value : V) (charge : UInt64)
  | lookup (key : Slice)
  | ref (h : Nat)
  | release (h : Nat)
  | erase (h : Nat)

/-- A call on the cache: the handle it returns, and the values that are deleted. -/
def stepCache (c : LruCache V) : Op V → Option (LruCache V × Option Nat × List V)
  | .insert key value charge => (c.insert key value charge.toNat).map fun x => (x.1, some x.2.1, x.2.2)
  | .lookup key => (c.lookup key).map fun x => (x.1, x.2, [])
  | .ref h => (c.ref h).map fun c => (c, none, [])
  | .release h => (c.release h).map fun x => (x.1, none, x.2)
  | .erase h => (c.erase h).map fun x => (x.1, none, x.2)

/-- A call on the memory, with the hash of its key. -/
def step (H : Slice → UInt32) (m : LruMemory V) : Op V → Option (LruMemory V × Option Nat × List V)
  | .insert key value charge =>
    (m.insert key (H key) value charge).map fun x => (x.1, some x.2.1, x.2.2)
  | .lookup key => (m.lookup key (H key)).map fun x => (x.1, x.2, [])
  | .ref h => (m.ref h).map fun m => (m, none, [])
  | .release h => (m.unref h).map fun x => (x.1, none, x.2)
  | .erase h => (m.erase h).map fun x => (x.1, none, x.2)

/-- A sequence of calls. -/
def runCache : LruCache V → List (Op V) → Option (LruCache V × List (Option Nat × List V))
  | c, [] => some (c, [])
  | c, op :: ops =>
    (stepCache c op).bind fun x => (runCache x.1 ops).map fun y => (y.1, x.2 :: y.2)

/-- A sequence of calls. -/
def run (H : Slice → UInt32) : LruMemory V → List (Op V) → Option (LruMemory V × List (Option Nat × List V))
  | m, [] => some (m, [])
  | m, op :: ops => (m.step H op).bind fun x => (run H x.1 ops).map fun y => (y.1, x.2 :: y.2)

/-- What a client may call: on handles that are live, `Release` only when it has a reference,
`Insert` when the hash table has room, and nothing that takes a word over its range. For
`Insert` this is `usage_`, which has the new charge before anything is evicted, and for `Ref`
and `Lookup` the count of the entry. -/
def may (c : LruCache V) : Op V → Bool
  | .insert _ _ charge =>
    (cached c).length < 2 ^ 31 && (c.capacity = 0 || c.usage + charge.toNat < 2 ^ 64)
  | .lookup key => ((c.table key).bind c.mem).all fun e => e.refs + 1 < 2 ^ 32
  | .ref h => (c.mem h).any fun e => e.refs + 1 < 2 ^ 32
  | .erase h => (c.mem h).isSome
  | .release h => (c.mem h).any fun e => e.inCache.toNat < e.refs

/-- What a client may call, at each point. -/
def mayRun : LruCache V → List (Op V) → Bool
  | _, [] => true
  | c, op :: ops => may c op && (stepCache c op).all fun x => mayRun x.1 ops

/-- **One call**. Each call does in memory what it does to `LruCache`, and returns the same.
The bound on the usage is that of the eviction loop. -/
theorem Sim.step (hs : Sim H m c) (husage : c.usage ≤ c.capacity) {op : Op V} (hmay : may c op = true) :
    ∃ c' m' r, stepCache c op = some (c', r) ∧ m.step H op = some (m', r) ∧ Sim H m' c' ∧
      c'.usage ≤ c'.capacity ∧ c'.capacity = c.capacity := by
  have hsame : ∀ {c' : LruCache V}, c'.usage = c.usage → c'.capacity = c.capacity →
      c'.usage ≤ c'.capacity ∧ c'.capacity = c.capacity := by
    intro c' hu hcap
    exact ⟨by rw [hu, hcap]; exact husage, hcap⟩
  cases op with
  | insert key value charge =>
    simp only [may, Bool.and_eq_true, Bool.or_eq_true, decide_eq_true_eq] at hmay
    obtain ⟨c', vs, m', hrun, hrun', hs'⟩ := hs.insert hmay.1 husage key value hmay.2.resolve_left
    exact ⟨c', m', (some c.next, vs), by rw [stepCache, hrun]; rfl, by rw [LruMemory.step, hrun']; rfl, hs'⟩
  | lookup key =>
    have hroom : ∀ h e, c.table key = some h → c.mem h = some e → e.refs + 1 < 2 ^ 32 := by
      intro h e ht he
      simpa only [may, ht, Option.bind_some, he, Option.all_some, decide_eq_true_eq] using hmay
    obtain ⟨c', m', r, hrun, hrun', hs'⟩ := hs.lookup key hroom
    refine ⟨c', m', (r, []), by rw [stepCache, hrun]; rfl, by rw [LruMemory.step, hrun']; rfl, hs', ?_⟩
    rw [LruCache.lookup] at hrun
    split at hrun
    · cases hrun
      exact hsame rfl rfl
    · obtain ⟨c₁, href, heq⟩ := Option.map_eq_some_iff.mp hrun
      cases heq
      exact hsame (ref_same href).2.1 (ref_same href).2.2
  | ref h =>
    obtain ⟨e, he, hroom⟩ := (Option.any_eq_true ..).mp hmay
    obtain ⟨c', m', hrun, hrun', hs'⟩ := hs.ref he (of_decide_eq_true hroom)
    exact ⟨c', m', (none, []), by rw [stepCache, hrun]; rfl, by rw [LruMemory.step, hrun']; rfl, hs',
      hsame (ref_same hrun).2.1 (ref_same hrun).2.2⟩
  | release h =>
    obtain ⟨e, he, hrefs⟩ := (Option.any_eq_true ..).mp hmay
    obtain ⟨c', vs, m', hrun, hrun', hs'⟩ := hs.release he (of_decide_eq_true hrefs)
    exact ⟨c', m', (none, vs), by rw [stepCache, hrun]; rfl, by rw [LruMemory.step, hrun']; rfl, hs',
      hsame (unref_same hrun).2.1 (unref_same hrun).2.2⟩
  | erase h =>
    obtain ⟨e, he⟩ := Option.isSome_iff_exists.mp hmay
    obtain ⟨c', vs, m', hrun, hrun', hs'⟩ := hs.erase he
    refine ⟨c', m', (none, vs), by rw [stepCache, hrun]; rfl, by rw [LruMemory.step, hrun']; rfl, hs', ?_⟩
    rw [LruCache.erase, he] at hrun
    simp only [] at hrun
    split at hrun
    · rename_i htk
      have hr := removed (hs.ok.take htk) he hrun
      refine ⟨?_, hr.capacity⟩
      rw [hr.usage, hr.capacity]
      exact (Nat.sub_le ..).trans husage
    · cases hrun
      exact hsame rfl rfl

/-- **A run**. By induction on the calls, each of which the client may make at that point.
-/
theorem Sim.run (hs : Sim H m c) (husage : c.usage ≤ c.capacity) {ops : List (Op V)}
    (hmay : mayRun c ops = true) :
    ∃ c' m' out, runCache c ops = some (c', out) ∧ LruMemory.run H m ops = some (m', out) ∧ Sim H m' c' ∧
      c'.usage ≤ c.capacity := by
  induction ops generalizing m c with
  | nil => exact ⟨c, m, [], rfl, rfl, hs, husage⟩
  | cons op ops ih =>
    obtain ⟨hop, hops⟩ := Bool.and_eq_true_iff.mp hmay
    obtain ⟨c₁, m₁, r, hstep, hstep', hs₁, husage₁, hcap₁⟩ := hs.step husage hop
    rw [hstep] at hops
    obtain ⟨c', m', out, hrun, hrun', hs', husage'⟩ := ih hs₁ husage₁ hops
    refine ⟨c', m', r :: out, ?_, ?_, hs', hcap₁ ▸ husage'⟩
    · rw [runCache, hstep, Option.bind_some, hrun]
      rfl
    · rw [LruMemory.run, hstep', Option.bind_some, hrun']
      rfl

/-- The constructor makes an empty cache. -/
theorem new_sim (capacity : UInt64) (links : Links LruRef) (nextHash : Nat → Option Nat) :
    ∃ m : LruMemory V, new capacity links nextHash = some m ∧
      Sim H m (LruCache.empty capacity.toNat) := by
  obtain ⟨t, hnew, ht⟩ := HashTable.new_holds (fun _ => []) (fun _ => 0) nextHash
  have hrings : Rings ⟨Function.update (Function.update links.next .inUse .inUse) .lru .lru,
      Function.update (Function.update links.prev .inUse .inUse) .lru .lru⟩ [] [] :=
    ⟨Ring.nil (by simp) (by simp), Ring.nil (by simp) (by simp), by simp⟩
  refine ⟨_, by rw [new, hnew, Option.map_some], ⟨rfl, rfl, rfl, fun _ => rfl, rfl, [], hrings, ?_⟩,
    Ok.empty _, Charged.empty _, ∅, ?_, ?_, ?_⟩
  · simp [LruCache.empty]
  · exact ht.congr (fun _ ha => absurd ha (Finset.notMem_empty _)) fun _ ha => absurd ha (Finset.notMem_empty _)
  · simp [LruCache.empty]
  · simp

end Simulation

/-- **The cache in memory is the cache**: from the constructor, in any memory and with any hash
function, a client that calls only what it may gets from the lists, the hash table and the
machine words what it gets from `LruCache`; no assertion fails. `lru_` then has the idle
entries, oldest first, a search finds what is in the cache, and the cache is within its
capacity.

The condition `may` is needed: with a capacity of 10, and an idle entry charged 1, an entry
charged 2 ^ 64 - 1 brings `usage_` back to 0, so that it stays in the cache and nothing is
evicted. -/
theorem runs_as_cache (H : Slice → UInt32) (capacity : UInt64) (links : Links LruRef)
    (nextHash : Nat → Option Nat) {ops : List (Op V)}
    (hmay : mayRun (LruCache.empty capacity.toNat) ops = true) :
    ∃ m₀ m c out, new capacity links nextHash = some m₀ ∧
      runCache (LruCache.empty capacity.toNat) ops = some (c, out) ∧
      LruMemory.run H m₀ ops = some (m, out) ∧ m.links.Ring .lru (c.lru.map .entry) ∧
      (∀ k, m.table.find m.key m.hash k (H k) = some (c.table k)) ∧
      m.usage.toNat = c.usage ∧ m.usage ≤ capacity := by
  obtain ⟨m₀, hnew, hs₀⟩ := new_sim (V := V) (H := H) capacity links nextHash
  obtain ⟨c, m, out, hrun, hrun', hs, husage⟩ := hs₀.run (Nat.zero_le _) hmay
  obtain ⟨us, hr, -⟩ := hs.listed.rings
  obtain ⟨E, ht⟩ := hs.tabled
  refine ⟨m₀, m, c, out, hnew, hrun, hrun', hr.lru, fun k => ?_, hs.listed.usage, ?_⟩
  · obtain ⟨r, hfind, hf⟩ := ht.holds.find k (H k)
    rw [hfind, hf.eq (ht.finds k)]
  · rw [UInt64.le_iff_toNat_le, hs.listed.usage]
    exact husage

/-! ## A run with an eviction

Room for two entries, and all of them in one bucket: an eviction, and a second entry of a key
whose first one is still in use. -/

/-- Two entries fill the cache. A third one takes the place of the one that has been idle for
longer, a second one of its key that of the first, which its client still has. -/
def thirdOfTwo : List (Op Nat) :=
  [.insert (str "a") 1 1, .insert (str "b") 2 1, .release 1, .release 0, .lookup (str "b"), .release 1,
    .insert (str "c") 3 1, .insert (str "c") 4 1, .release 2, .lookup (str "b"), .erase 3, .release 3]

theorem runs_as_cache_thirdOfTwo :
    ∃ m₀ m, new 2 ⟨id, id⟩ (fun _ => none) = some m₀ ∧
      LruMemory.run (fun _ => 7) m₀ thirdOfTwo = some (m,
        [(some 0, []), (some 1, []), (none, []), (none, []), (some 1, []), (none, []), (some 2, [1]),
          (some 3, []), (none, [3]), (some 1, []), (none, []), (none, [4])]) := by
  obtain ⟨m₀, m, c, out, hnew, hrun, hrun', -⟩ := runs_as_cache (fun _ => 7) 2 ⟨id, id⟩ (fun _ => none)
    (show mayRun (LruCache.empty (UInt64.toNat 2)) thirdOfTwo = true by decide +kernel)
  have hout : (runCache (LruCache.empty (UInt64.toNat 2)) thirdOfTwo).map Prod.snd = some
      [(some 0, []), (some 1, []), (none, []), (none, []), (some 1, []), (none, []), (some 2, [1]),
        (some 3, []), (none, [3]), (some 1, []), (none, []), (none, [4])] := by decide +kernel
  rw [hrun, Option.map_some] at hout
  exact ⟨m₀, m, hnew, Option.some.inj hout ▸ hrun'⟩

end LruMemory

end DeltaFs
