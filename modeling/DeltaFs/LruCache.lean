import DeltaFs.Coding
import Mathlib.Data.List.Nodup
import Mathlib.Logic.Function.Basic

/-!
# The reference-counted LRU cache

`lru.h`: entries live on a heap and are reached through handles. An entry is
referenced by the cache while it is *in* it, that is in the hash table, and by
clients that hold its handle. An entry in the cache that no client references
is idle: it sits in the LRU list and may be evicted. An entry nobody references
is deleted, and its value handed to the deleter.

The operations return the values they deleted. An operation on a handle that is
not live has no result. The invariant `LruCache.Inv c ext` relates the counts
to `ext`, the number of client references to each value; every operation has
one lemma that says what it does to both.

The numbers of this cache are unbounded. The code has `size_t` charges and
`uint32_t` counts: `LruMemory` has those, and does what is said here as long as
an entry has fewer than 2^32 references at once and the charges of the cache
stay below 2^64.
-/

namespace DeltaFs

universe u

/-! ## The cache

The operations of `lru.h`, on a memory of entries by handle. They return the values whose
deleter they call; `none` is an assertion that fails. -/

/-- `LRUEntry`, with numbers for its counts: see `LruMemory.Entry`. -/
structure LruEntry (V : Type u) where
  key : Slice
  value : V
  charge : Nat
  refs : Nat
  /-- true iff the entry has a reference from the cache -/
  inCache : Bool

/-- `LRUCache`. Live entries outside the LRU list are those in use. -/
structure LruCache (V : Type u) where
  capacity : Nat
  totalUsage : Nat
  usage : Nat
  /-- the entries, by handle -/
  mem : Nat → Option (LruEntry V)
  /-- the next handle the allocator returns -/
  next : Nat
  /-- the LRU list, oldest first -/
  lru : List Nat
  table : Slice → Option Nat

namespace LruCache

variable {V : Type u}

/-- The constructor. -/
def empty (capacity : Nat) : LruCache V where
  capacity := capacity
  totalUsage := 0
  usage := 0
  mem _ := none
  next := 0
  lru := []
  table _ := none

/-- `Unref`: also `Release`. -/
def unref (c : LruCache V) (h : Nat) : Option (LruCache V × List V) :=
  match c.mem h with
  | none => none
  | some e =>
    let refs := e.refs - 1
    if refs = 0 then
      some ({ c with
        mem := Function.update c.mem h none
        lru := c.lru.erase h
        totalUsage := c.totalUsage - e.charge }, [e.value])
    else if e.inCache && refs = 1 then
      -- no longer in use: the newest idle entry
      some ({ c with
        mem := Function.update c.mem h (some { e with refs := refs })
        lru := c.lru.erase h ++ [h] }, [])
    else some ({ c with mem := Function.update c.mem h (some { e with refs := refs }) }, [])

/-- `Release`. -/
def release (c : LruCache V) (h : Nat) : Option (LruCache V × List V) := c.unref h

/-- `Remove`, of an entry that has been removed from the table. -/
def remove (c : LruCache V) (h : Nat) : Option (LruCache V × List V) :=
  match c.mem h with
  | none => none
  | some e =>
    { c with
      mem := Function.update c.mem h (some { e with inCache := false })
      usage := c.usage - e.charge }.unref h

/-- `Ref`. -/
def ref (c : LruCache V) (h : Nat) : Option (LruCache V) :=
  match c.mem h with
  | none => none
  | some e =>
    some { c with
      lru := if e.refs = 1 && e.inCache then c.lru.erase h else c.lru
      mem := Function.update c.mem h (some { e with refs := e.refs + 1 }) }

/-- `Lookup`. -/
def lookup (c : LruCache V) (key : Slice) : Option (LruCache V × Option Nat) :=
  match c.table key with
  | none => some (c, none)
  | some h => (c.ref h).map fun c => (c, some h)

/-- `Erase(E*)`: no effect when the entry is not in the table. -/
def erase (c : LruCache V) (h : Nat) : Option (LruCache V × List V) :=
  match c.mem h with
  | none => none
  | some e =>
    if c.table e.key = some h then
      { c with table := Function.update c.table e.key none }.remove h
    else some (c, [])

/-- The first part of `Insert`: a new entry with the client's reference and,
unless caching is off, one from the cache, which drops an old entry of the same
key. Returns the handle. -/
def insertBegin (c : LruCache V) (key : Slice) (value : V) (charge : Nat) :
    Option (LruCache V × Nat × List V) :=
  let h := c.next
  if c.capacity = 0 then
    some ({ c with
      mem := Function.update c.mem h (some ⟨key, value, charge, 1, false⟩)
      totalUsage := c.totalUsage + charge
      next := h + 1 }, h, [])
  else
    let old := c.table key
    let c := { c with
      mem := Function.update c.mem h (some ⟨key, value, charge, 2, true⟩)
      totalUsage := c.totalUsage + charge
      usage := c.usage + charge
      table := Function.update c.table key (some h)
      next := h + 1 }
    match old with
    | none => some (c, h, [])
    | some old => (c.remove old).map fun p => (p.1, h, p.2)

/-- `table_.Remove(key, hash)` and `Remove` of the entry found, which must
exist. -/
def removeKey (c : LruCache V) (key : Slice) : Option (LruCache V × List V) :=
  match c.table key with
  | none => none
  | some h => { c with table := Function.update c.table key none }.remove h

/-- The condition of the loop of `Insert`: over capacity, with an idle entry. -/
def mustEvict (c : LruCache V) : Bool := c.capacity < c.usage && !c.lru.isEmpty

/-- One round of the loop of `Insert`: evict the oldest idle entry. -/
def evict (c : LruCache V) : Option (LruCache V × List V) :=
  match c.lru with
  | [] => some (c, [])
  | a :: _ =>
    match c.mem a with
    | none => none
    | some e => c.removeKey e.key

/-- The loop of `Insert`; every round shortens the LRU list. -/
def evictLoop : Nat → LruCache V → Option (LruCache V × List V)
  | 0, c => some (c, [])
  | fuel + 1, c =>
    if c.mustEvict then
      match c.evict with
      | none => none
      | some (c, vs) => (evictLoop fuel c).map fun p => (p.1, vs ++ p.2)
    else some (c, [])

/-- The end of `Insert`: do not cache the new entry when there is no room. -/
def insertEnd (c : LruCache V) (key : Slice) : Option (LruCache V × List V) :=
  if c.capacity = 0 then some (c, [])
  else if c.capacity < c.usage then c.removeKey key
  else some (c, [])

/-- `Insert`. -/
def insert (c : LruCache V) (key : Slice) (value : V) (charge : Nat) :
    Option (LruCache V × Nat × List V) := do
  let (c, h, vs₁) ← c.insertBegin key value charge
  let (c, vs₂) ← evictLoop c.lru.length c
  let (c, vs₃) ← c.insertEnd key
  some (c, h, vs₁ ++ vs₂ ++ vs₃)

/-! ## The invariant

The references of an entry are counted: one from the cache if it is there, and one from each
client that holds its handle. How many clients do is the parameter `ext`, by value, since values
are what users of the cache know. Idle entries, those that only the cache references, are the
ones in the list, and only they are ever evicted. -/

/-- The key and the value behind a live handle. -/
def item (c : LruCache V) (h : Nat) : Option (Slice × V) := (c.mem h).map fun e => (e.key, e.value)

theorem item_eq {c : LruCache V} {h : Nat} {k : Slice} {v : V} :
    c.item h = some (k, v) ↔ ∃ e, c.mem h = some e ∧ e.key = k ∧ e.value = v := by
  rw [item, Option.map_eq_some_iff]
  exact exists_congr fun e => and_congr_right fun _ => Prod.mk_inj

/-- The invariant of a cache whose values have `ext` client references. -/
structure Inv (c : LruCache V) (ext : V → Nat) : Prop where
  /-- a count is the clients' references and the cache's -/
  refs : ∀ {h e}, c.mem h = some e → e.refs = ext e.value + e.inCache.toNat
  pos : ∀ {h e}, c.mem h = some e → 0 < e.refs
  /-- the table holds the entries in the cache -/
  table : ∀ {k h}, c.table k = some h ↔ ∃ e, c.mem h = some e ∧ e.key = k ∧ e.inCache = true
  /-- the LRU list holds the idle entries -/
  idle : ∀ {h}, h ∈ c.lru ↔ ∃ e, c.mem h = some e ∧ e.inCache = true ∧ e.refs = 1
  nodup : c.lru.Nodup
  inj : ∀ {h h' e e'}, c.mem h = some e → c.mem h' = some e' → e.value = e'.value → h = h'
  fresh : ∀ {h e}, c.mem h = some e → h < c.next
  /-- a referenced value is live -/
  held : ∀ {v}, 0 < ext v → ∃ h e, c.mem h = some e ∧ e.value = v

variable {c c' : LruCache V} {ext ext' : V → Nat} {h : Nat} {e : LruEntry V}

theorem Inv.empty (capacity : Nat) (hext : ∀ v, ext v = 0) :
    Inv (LruCache.empty capacity : LruCache V) ext where
  refs he := by cases he
  pos he := by cases he
  table := by simp [LruCache.empty]
  idle := by simp [LruCache.empty]
  nodup := List.nodup_nil
  inj he := by cases he
  fresh he := by cases he
  held hv := by simp [hext] at hv

/-- **One address is written**: the entry there is new, changes or is deleted, and the table,
the LRU list and the client references follow at that address. Nothing else of the invariant
speaks of it, but for the values, which must stay apart. -/
theorem Inv.write (hi : c.Inv ext) {h : Nat} {o : Option (LruEntry V)}
    (hmem : c'.mem = Function.update c.mem h o) (hnext : c.next ≤ c'.next) (hlt : h < c'.next)
    (htable : ∀ k h', h' ≠ h → (c'.table k = some h' ↔ c.table k = some h'))
    (htableh : ∀ k, c'.table k = some h ↔ ∃ e', o = some e' ∧ e'.key = k ∧ e'.inCache = true)
    (hlru : ∀ h', h' ≠ h → (h' ∈ c'.lru ↔ h' ∈ c.lru))
    (hlruh : h ∈ c'.lru ↔ ∃ e', o = some e' ∧ e'.inCache = true ∧ e'.refs = 1)
    (hnodup : c'.lru.Nodup)
    (ho : ∀ e', o = some e' → e'.refs = ext' e'.value + e'.inCache.toNat ∧ 0 < e'.refs)
    (hapart : ∀ e', o = some e' → ∀ h₁ e₁, h₁ ≠ h → c.mem h₁ = some e₁ → e₁.value ≠ e'.value)
    (hext : ∀ h₁ e₁, h₁ ≠ h → c.mem h₁ = some e₁ → ext' e₁.value = ext e₁.value)
    (hheld : ∀ v, 0 < ext' v → (∃ e', o = some e' ∧ e'.value = v) ∨
      ∃ h₁ e₁, h₁ ≠ h ∧ c.mem h₁ = some e₁ ∧ e₁.value = v) :
    c'.Inv ext' := by
  -- every clause of the invariant is about one handle or two: at `h` it is what the
  -- hypotheses say of `o`, elsewhere what it was
  have hself : ∀ {e'}, c'.mem h = some e' ↔ o = some e' := by
    intro e'
    rw [hmem, Function.update_self]
  have hother : ∀ {h'}, h' ≠ h → c'.mem h' = c.mem h' := by
    intro h' hne
    rw [hmem, Function.update_of_ne hne]
  constructor
  case refs =>
    intro h' e' he'
    by_cases hh : h' = h
    · subst hh
      exact (ho e' (hself.mp he')).1
    · rw [hother hh] at he'
      rw [hi.refs he', hext h' e' hh he']
  case pos =>
    intro h' e' he'
    by_cases hh : h' = h
    · subst hh
      exact (ho e' (hself.mp he')).2
    · rw [hother hh] at he'
      exact hi.pos he'
  case table =>
    intro k h'
    by_cases hh : h' = h
    · subst hh
      rw [htableh]
      exact exists_congr fun e' => and_congr_left fun _ => hself.symm
    · rw [htable k h' hh, hi.table, hother hh]
  case idle =>
    intro h'
    by_cases hh : h' = h
    · subst hh
      rw [hlruh]
      exact exists_congr fun e' => and_congr_left fun _ => hself.symm
    · rw [hlru h' hh, hi.idle, hother hh]
  case nodup => exact hnodup
  case inj =>
    intro h₁ h₂ e₁ e₂ h₁e h₂e heq
    by_cases hh₁ : h₁ = h
    · by_cases hh₂ : h₂ = h
      · rw [hh₁, hh₂]
      · rw [hother hh₂] at h₂e
        rw [hh₁, hself] at h₁e
        exact absurd heq.symm (hapart e₁ h₁e h₂ e₂ hh₂ h₂e)
    · rw [hother hh₁] at h₁e
      by_cases hh₂ : h₂ = h
      · rw [hh₂, hself] at h₂e
        exact absurd heq (hapart e₂ h₂e h₁ e₁ hh₁ h₁e)
      · rw [hother hh₂] at h₂e
        exact hi.inj h₁e h₂e heq
  case fresh =>
    intro h' e' he'
    by_cases hh : h' = h
    · rw [hh]
      exact hlt
    · rw [hother hh] at he'
      exact (hi.fresh he').trans_le hnext
  case held =>
    intro v hv
    rcases hheld v hv with ⟨e', he', hval⟩ | ⟨h₁, e₁, hne, he₁, hval⟩
    · exact ⟨h, e', hself.mpr he', hval⟩
    · exact ⟨h₁, e₁, (hother hne).trans he₁, hval⟩

/-- **Local updates**: an entry changes or is deleted, with the table, the LRU
list and the client references following at that entry. -/
theorem Inv.set (hi : c.Inv ext) (he : c.mem h = some e) {o : Option (LruEntry V)}
    (hmem : c'.mem = Function.update c.mem h o) (hnext : c'.next = c.next)
    (htable : ∀ k h', h' ≠ h → (c'.table k = some h' ↔ c.table k = some h'))
    (htableh : ∀ k, c'.table k = some h ↔ ∃ e', o = some e' ∧ e'.key = k ∧ e'.inCache = true)
    (hlru : ∀ h', h' ≠ h → (h' ∈ c'.lru ↔ h' ∈ c.lru))
    (hlruh : h ∈ c'.lru ↔ ∃ e', o = some e' ∧ e'.inCache = true ∧ e'.refs = 1)
    (hnodup : c'.lru.Nodup)
    (ho : ∀ e', o = some e' →
      e'.value = e.value ∧ e'.refs = ext' e'.value + e'.inCache.toNat ∧ 0 < e'.refs)
    (hext : ∀ v, v ≠ e.value → ext' v = ext v) (hnone : o = none → ext' e.value = 0) :
    c'.Inv ext' := by
  have hapart : ∀ h₁ e₁, h₁ ≠ h → c.mem h₁ = some e₁ → e₁.value ≠ e.value :=
    fun h₁ e₁ hne he₁ heq => hne (hi.inj he₁ he heq)
  refine hi.write hmem hnext.ge (hnext ▸ hi.fresh he) htable htableh hlru hlruh hnodup
    (fun e' h => (ho e' h).2) ?_ (fun h₁ e₁ hne he₁ => hext _ (hapart h₁ e₁ hne he₁)) ?_
  · intro e' ho' h₁ e₁ hne he₁
    rw [(ho e' ho').1]
    exact hapart h₁ e₁ hne he₁
  · intro v hv
    by_cases hve : v = e.value
    · subst hve
      rcases ho' : o with _ | e'
      · rw [hnone ho'] at hv
        cases hv
      · exact .inl ⟨e', rfl, (ho e' ho').1⟩
    · rw [hext v hve] at hv
      obtain ⟨h', e', he', rfl⟩ := hi.held hv
      refine .inr ⟨h', e', ?_, he', rfl⟩
      rintro rfl
      exact hve (congrArg LruEntry.value (Option.some.inj (he'.symm.trans he)))

/-- The table of a cache with a new entry, in the cache when `b`: nothing changes at other
handles, and the new one is found under its key if it is there. -/
theorem Inv.table_alloc (hi : c.Inv ext) {key : Slice} {b : Bool}
    (hkey : b = true → c.table key = none)
    (htable : c'.table = if b then Function.update c.table key (some c.next) else c.table) :
    (∀ k h, h ≠ c.next → (c'.table k = some h ↔ c.table k = some h)) ∧
      ∀ k, c'.table k = some c.next ↔ key = k ∧ b = true := by
  have hold : ∀ k, c.table k ≠ some c.next := by
    intro k ht
    obtain ⟨e', he', -⟩ := hi.table.mp ht
    exact (hi.fresh he').ne rfl
  rw [htable]
  rcases b with _ | _
  · exact ⟨fun k h _ => .rfl, fun k => by simp [hold k]⟩
  · refine ⟨fun k h hne => ?_, fun k => ?_⟩
    · by_cases hk : k = key
      · subst hk
        rw [if_pos rfl, Function.update_self, hkey rfl]
        simp [Ne.symm hne]
      · rw [if_pos rfl, Function.update_of_ne hk]
    · by_cases hk : k = key
      · subst hk
        simp
      · rw [if_pos rfl, Function.update_of_ne hk]
        simp [hold k, Ne.symm hk]

/-- **Allocation**: a new entry with the client's reference, in the cache when
`b`. -/
theorem Inv.alloc (hi : c.Inv ext) {key : Slice} {v : V} {charge : Nat} {b : Bool}
    (hnew : ∀ h e, c.mem h = some e → e.value ≠ v)
    (hkey : b = true → c.table key = none)
    (hmem : c'.mem = Function.update c.mem c.next
      (some ⟨key, v, charge, 1 + b.toNat, b⟩))
    (hnext : c'.next = c.next + 1) (hlru : c'.lru = c.lru)
    (htable : c'.table = if b then Function.update c.table key (some c.next) else c.table)
    (hv : ext' v = 1) (hext : ∀ w, w ≠ v → ext' w = ext w) : c'.Inv ext' := by
  have hne : ∀ {h' e'}, c.mem h' = some e' → h' ≠ c.next := fun he' => (hi.fresh he').ne
  obtain ⟨htables, htableh⟩ := hi.table_alloc hkey htable
  refine hi.write hmem (by omega) (by omega) htables (fun k => ?_) (fun h' _ => by rw [hlru])
    ?_ (hlru ▸ hi.nodup) ?_ ?_ (fun h₁ e₁ _ he₁ => hext _ (hnew h₁ e₁ he₁)) ?_
  · rw [htableh]
    simp
  · -- the new entry is referenced, so it is not idle
    rw [hlru]
    constructor
    · intro hin
      obtain ⟨e', he', -⟩ := hi.idle.mp hin
      exact absurd rfl (hne he')
    · rintro ⟨e', he', hc, hr⟩
      obtain rfl := Option.some.inj he'
      simp only [] at hc hr
      rw [hc] at hr
      cases hr
  · rintro e' he'
    obtain rfl := Option.some.inj he'
    exact ⟨by simp only [hv], Nat.lt_add_right _ Nat.one_pos⟩
  · rintro e' he' h₁ e₁ - he₁
    obtain rfl := Option.some.inj he'
    exact hnew h₁ e₁ he₁
  · intro w hw
    by_cases hwv : w = v
    · exact .inl ⟨_, rfl, hwv.symm⟩
    · rw [hext w hwv] at hw
      obtain ⟨h', e', he', rfl⟩ := hi.held hw
      exact .inr ⟨h', e', hne he', he', rfl⟩

/-! ## What the operations do

To a user of the cache all operations look alike: some values are deleted, the table loses the
entries of these and perhaps others, and all that is referenced stays. `Effect` is this, and it
composes, which takes care of the eviction loop. The lemma of each operation adds what is its
own: which handle it returns, and how `ext` changes. -/

/-- `Effect c c' vs`: from `c` to `c'` exactly the entries of the values `vs`
were deleted, and the table only lost entries. -/
structure Effect (c c' : LruCache V) (vs : List V) : Prop where
  kept : ∀ {h k v}, c'.item h = some (k, v) → c.item h = some (k, v)
  rest : ∀ {h k v}, c.item h = some (k, v) → c'.item h = some (k, v) ∨ v ∈ vs ∧ c'.item h = none
  gone : ∀ {v}, v ∈ vs → ∃ h k, c.item h = some (k, v) ∧ c'.item h = none
  table : ∀ {k h}, c'.table k = some h → c.table k = some h
  capacity : c'.capacity = c.capacity
  next : c'.next = c.next

theorem Effect.refl (c : LruCache V) : Effect c c [] where
  kept := id
  rest := .inl
  gone hv := by cases hv
  table := id
  capacity := rfl
  next := rfl

theorem Effect.trans {c₁ c₂ c₃ : LruCache V} {vs ws : List V} (h₁ : Effect c₁ c₂ vs)
    (h₂ : Effect c₂ c₃ ws) : Effect c₁ c₃ (vs ++ ws) where
  kept := h₁.kept ∘ h₂.kept
  rest {h k v} hv := by
    rcases h₁.rest hv with hv | ⟨hin, hnone⟩
    · rcases h₂.rest hv with hv | ⟨hin, hnone⟩
      · exact .inl hv
      · exact .inr ⟨List.mem_append_right _ hin, hnone⟩
    · refine .inr ⟨List.mem_append_left _ hin, ?_⟩
      rcases hc : c₃.item h with _ | ⟨k', v'⟩
      · rfl
      · rw [h₂.kept hc] at hnone
        cases hnone
  gone {v} hv := by
    rcases List.mem_append.mp hv with hv | hv
    · obtain ⟨h, k, hin, hnone⟩ := h₁.gone hv
      refine ⟨h, k, hin, ?_⟩
      rcases hc : c₃.item h with _ | ⟨k', v'⟩
      · rfl
      · rw [h₂.kept hc] at hnone
        cases hnone
    · obtain ⟨h, k, hin, hnone⟩ := h₂.gone hv
      exact ⟨h, k, h₁.kept hin, hnone⟩
  table := h₁.table ∘ h₂.table
  capacity := h₂.capacity.trans h₁.capacity
  next := h₂.next.trans h₁.next

/-- An update at one live handle is an effect. -/
theorem Effect.of_update (he : c.mem h = some e) {o : Option (LruEntry V)} {vs : List V}
    (hmem : c'.mem = Function.update c.mem h o)
    (ho : (o = none ∧ vs = [e.value]) ∨ ∃ e', o = some e' ∧ e'.key = e.key ∧ e'.value = e.value ∧ vs = [])
    (htable : ∀ k h', c'.table k = some h' → c.table k = some h')
    (hcap : c'.capacity = c.capacity) (hnext : c'.next = c.next) : Effect c c' vs := by
  have hitem : c.item h = some (e.key, e.value) := by rw [item, he]; rfl
  have hother : ∀ {h'}, h' ≠ h → c'.item h' = c.item h' := by
    intro h' hne
    rw [item, item, hmem, Function.update_of_ne hne]
  rcases ho with ⟨rfl, rfl⟩ | ⟨e', rfl, hk, hv, rfl⟩
  · have hnone : c'.item h = none := by
      rw [item, hmem, Function.update_self]
      rfl
    refine ⟨fun {h' k v} hin => ?_, fun {h' k v} hin => ?_, fun {v} hin => ?_, fun ht => htable _ _ ht,
      hcap, hnext⟩
    · by_cases hh : h' = h
      · rw [hh, hnone] at hin
        cases hin
      · rwa [hother hh] at hin
    · by_cases hh : h' = h
      · subst hh
        rw [hitem] at hin
        cases hin
        exact .inr ⟨List.mem_singleton_self _, hnone⟩
      · rw [hother hh]
        exact .inl hin
    · obtain rfl := List.mem_singleton.mp hin
      exact ⟨h, e.key, hitem, hnone⟩
  · have hsame : c'.item h = c.item h := by
      rw [item, hmem, Function.update_self, hitem, ← hk, ← hv]
      rfl
    have hall : ∀ h', c'.item h' = c.item h' := by
      intro h'
      by_cases hh : h' = h
      · rw [hh, hsame]
      · exact hother hh
    refine ⟨fun {h' k v} hin => ?_, fun {h' k v} hin => ?_, fun {v} hin => ?_, fun ht => htable _ _ ht,
      hcap, hnext⟩
    · rwa [hall] at hin
    · rw [hall]
      exact .inl hin
    · cases hin

/-- A value has one entry. -/
theorem Inv.item_inj (hi : c.Inv ext) {h' : Nat} {k k' : Slice} {v : V}
    (hit : c.item h = some (k, v)) (hit' : c.item h' = some (k', v)) : h = h' := by
  obtain ⟨e, he, -, hv⟩ := item_eq.mp hit
  obtain ⟨e', he', -, hv'⟩ := item_eq.mp hit'
  exact hi.inj he he' (hv.trans hv'.symm)

/-- A value that was dropped has no entry any more. -/
theorem Effect.live {vs : List V} (heff : Effect c c' vs) (hi : c.Inv ext) {k : Slice} {v : V}
    (hit : c'.item h = some (k, v)) : v ∉ vs := by
  intro hin
  obtain ⟨h', k', hit', hnone⟩ := heff.gone hin
  obtain rfl := hi.item_inj (heff.kept hit) hit'
  rw [hit] at hnone
  cases hnone

/-- A deleted value is not referenced any more. -/
theorem Effect.unreferenced {vs : List V} (heff : Effect c c' vs) (hi : c.Inv ext)
    (hi' : c'.Inv ext') {v : V} (hv : v ∈ vs) : ext' v = 0 := by
  by_contra hne
  obtain ⟨h', e', he', hval⟩ := hi'.held (Nat.pos_of_ne_zero hne)
  exact heff.live hi (item_eq.mpr ⟨e', he', rfl, hval⟩) hv

/-! ### Releasing and finding

The operations that change the count of one entry. -/

/-- **`Release`** drops one client reference. What becomes of the entry depends on who
is left: nobody, and it is deleted; the cache alone, and it goes to the end of the list;
or other clients. -/
theorem Inv.release (hi : c.Inv ext) {k : Slice} {v : V} (hit : c.item h = some (k, v))
    (hv : ext' v + 1 = ext v) (hext : ∀ w, w ≠ v → ext' w = ext w) :
    ∃ c' vs, c.release h = some (c', vs) ∧ c'.Inv ext' ∧ Effect c c' vs ∧ c'.table = c.table ∧
      ∀ w ∈ vs, w = v := by
  obtain ⟨e, he, rfl, rfl⟩ := item_eq.mp hit
  have hrefs := hi.refs he
  have htableh : ∀ k, c.table k = some h ↔ ∃ e', some e = some e' ∧ e'.key = k ∧ e'.inCache = true := by
    intro k
    rw [hi.table, he]
  rw [LruCache.release, unref, he]
  simp only []
  split
  · -- the last reference: the cache has none
    have hout : e.inCache = false := by
      rcases hc : e.inCache with _ | _
      · rfl
      · rw [hc] at hrefs
        simp at hrefs
        omega
    have hidle : h ∉ c.lru := by
      rw [hi.idle]
      rintro ⟨e', he', hc', -⟩
      cases he.symm.trans he'
      rw [hout] at hc'
      cases hc'
    refine ⟨_, _, rfl, ?_, ?_, rfl, fun w hw => List.mem_singleton.mp hw⟩
    · refine hi.set he rfl rfl (fun _ _ _ => Iff.rfl) ?_ ?_ ?_ (hi.nodup.erase h) (by simp) hext ?_
      · intro k
        rw [htableh k]
        simp [hout]
      · intro h' hne
        exact List.mem_erase_of_ne hne
      · rw [List.erase_of_not_mem hidle]
        simp [hidle]
      · intro _
        rw [hout] at hrefs
        simp at hrefs
        omega
    · exact Effect.of_update he rfl (.inl ⟨rfl, rfl⟩) (fun _ _ ht => ht) rfl rfl
  split
  · -- the cache has the last reference: idle
    rename_i hne hidle
    simp only [Bool.and_eq_true, decide_eq_true_eq] at hidle
    have hbusy : h ∉ c.lru := by
      rw [hi.idle]
      rintro ⟨e', he', -, hr'⟩
      cases he.symm.trans he'
      omega
    refine ⟨_, _, rfl, ?_, ?_, rfl, fun w hw => by cases hw⟩
    · refine hi.set he rfl rfl (fun _ _ _ => Iff.rfl) ?_ ?_ ?_ ?_ ?_ hext (fun h => by cases h)
      · intro k
        rw [htableh k]
        simp
      · intro h' hne'
        simp only []
        rw [List.erase_of_not_mem hbusy]
        simp [hne']
      · simp [hidle.1, hidle.2]
      · simp only []
        rw [List.erase_of_not_mem hbusy]
        exact List.nodup_append_comm.mp (List.nodup_cons.mpr ⟨hbusy, hi.nodup⟩)
      · rintro e' he'
        obtain rfl := Option.some.inj he'
        refine ⟨rfl, ?_, ?_⟩
        · simp only []
          omega
        · simp only []
          omega
    · exact Effect.of_update he rfl (.inr ⟨_, rfl, rfl, rfl, rfl⟩) (fun _ _ ht => ht) rfl rfl
  · -- others still hold it, so it does not become idle: only the count changes
    rename_i hne hbusy
    refine ⟨_, _, rfl, ?_, ?_, rfl, fun w hw => by cases hw⟩
    · refine hi.set he rfl rfl (fun _ _ _ => Iff.rfl) ?_ (fun _ _ => Iff.rfl) ?_ hi.nodup ?_ hext
        (fun h => by cases h)
      · intro k
        rw [htableh k]
        simp
      · rw [hi.idle, he]
        simp only [Bool.and_eq_true, decide_eq_true_eq, not_and] at hbusy
        constructor
        · rintro ⟨e', he', hc', hr'⟩
          cases he'
          rw [hc'] at hrefs
          simp at hrefs
          omega
        · rintro ⟨e', he', hc', hr'⟩
          cases he'
          exact absurd hr' (hbusy hc')
      · rintro e' he'
        obtain rfl := Option.some.inj he'
        refine ⟨rfl, ?_, ?_⟩
        · simp only []
          omega
        · simp only []
          omega
    · exact Effect.of_update he rfl (.inr ⟨_, rfl, rfl, rfl, rfl⟩) (fun _ _ ht => ht) rfl rfl

/-- **`Ref`** adds one client reference. An idle entry leaves the list, so it cannot be
evicted as long as it is in use. -/
theorem Inv.ref (hi : c.Inv ext) {k : Slice} {v : V} (hit : c.item h = some (k, v))
    (hv : ext' v = ext v + 1) (hext : ∀ w, w ≠ v → ext' w = ext w) :
    ∃ c', c.ref h = some c' ∧ c'.Inv ext' ∧ Effect c c' [] ∧ c'.table = c.table := by
  obtain ⟨e, he, rfl, rfl⟩ := item_eq.mp hit
  have hrefs := hi.refs he
  have hpos := hi.pos he
  rw [LruCache.ref, he]
  refine ⟨_, rfl, ?_, ?_, rfl⟩
  · have hbusy : h ∉ (if e.refs = 1 && e.inCache then c.lru.erase h else c.lru) := by
      split
      · exact hi.nodup.not_mem_erase
      · rename_i hno
        rw [hi.idle, he]
        rintro ⟨e', he', hc', hr'⟩
        cases he'
        simp [hc', hr'] at hno
    refine hi.set he rfl rfl (fun _ _ _ => Iff.rfl) ?_ ?_ ?_ ?_ ?_ hext (fun h => by cases h)
    · intro k
      rw [hi.table, he]
      simp
    · intro h' hne
      simp only []
      split
      · exact List.mem_erase_of_ne hne
      · rfl
    · refine iff_of_false hbusy ?_
      rintro ⟨e', he', -, hr'⟩
      cases he'
      simp only [] at hr'
      omega
    · simp only []
      split
      · exact hi.nodup.erase h
      · exact hi.nodup
    · rintro e' he'
      obtain rfl := Option.some.inj he'
      refine ⟨rfl, ?_, Nat.succ_pos _⟩
      simp only []
      omega
  · exact Effect.of_update he rfl (.inr ⟨_, rfl, rfl, rfl, rfl⟩) (fun _ _ ht => ht) rfl rfl

/-- **`Lookup`** returns the entry in the table, with one more client
reference. -/
theorem Inv.lookup_some (hi : c.Inv ext) {k : Slice} (ht : c.table k = some h) :
    ∃ v, c.item h = some (k, v) ∧ ∀ ext', ext' v = ext v + 1 → (∀ w, w ≠ v → ext' w = ext w) →
      ∃ c', c.lookup k = some (c', some h) ∧ c'.Inv ext' ∧ Effect c c' [] ∧ c'.table = c.table := by
  obtain ⟨e, he, rfl, -⟩ := hi.table.mp ht
  have hit : c.item h = some (e.key, e.value) := item_eq.mpr ⟨e, he, rfl, rfl⟩
  refine ⟨e.value, hit, fun ext' hv hext => ?_⟩
  obtain ⟨c', hc, hrest⟩ := hi.ref hit hv hext
  refine ⟨c', ?_, hrest⟩
  rw [LruCache.lookup, ht]
  simp only [hc]
  rfl

theorem lookup_none {k : Slice} (ht : c.table k = none) : c.lookup k = some (c, none) := by
  rw [LruCache.lookup, ht]

/-! ### Leaving the table

An entry leaves the table when it is erased, when another takes its key, and when it is evicted.
It then loses the reference of the cache, which may have been the last. -/

/-- What is left of an entry that `Remove` has taken out of the cache. -/
def afterRemove (e : LruEntry V) : Option (LruEntry V) :=
  if e.refs - 1 = 0 then none else some { e with inCache := false, refs := e.refs - 1 }

/-- The entry that is left was referenced by others, and is not in the cache any more. -/
theorem afterRemove_eq_some {e' : LruEntry V} :
    afterRemove e = some e' ↔ e.refs - 1 ≠ 0 ∧ e' = { e with inCache := false, refs := e.refs - 1 } := by
  rw [afterRemove]
  split
  · rename_i h
    exact ⟨fun h' => (by cases h'), fun h' => absurd h h'.1⟩
  · rename_i h
    exact ⟨fun h' => ⟨h, (Option.some.inj h').symm⟩, fun h' => congrArg some h'.2.symm⟩

theorem afterRemove_eq_none : afterRemove e = none ↔ e.refs - 1 = 0 := by
  rw [afterRemove]
  split
  · rename_i h
    exact ⟨fun _ => h, fun _ => rfl⟩
  · rename_i h
    exact ⟨fun h' => (by cases h'), fun h' => absurd h' h⟩

/-- The effect of `Remove` on the entry and the LRU list. -/
theorem remove_eq (he : c.mem h = some e) :
    ∃ c', c.remove h = some (c', if e.refs - 1 = 0 then [e.value] else []) ∧
      c'.mem = Function.update c.mem h (afterRemove e) ∧
      c'.lru = (if e.refs - 1 = 0 then c.lru.erase h else c.lru) ∧
      c'.table = c.table ∧ c'.next = c.next ∧ c'.capacity = c.capacity := by
  rw [remove, he]
  simp only [unref, Function.update_self, afterRemove, Function.update_idem, Bool.false_and]
  split
  · exact ⟨_, rfl, rfl, rfl, rfl, rfl, rfl⟩
  · exact ⟨_, rfl, rfl, rfl, rfl, rfl, rfl⟩

/-- The table without the key of an entry: the entry is not in it, and the others are. -/
theorem Inv.table_removed (hi : c.Inv ext) (he : c.mem h = some e) (ht : c.table e.key = some h) :
    (∀ k h', h' ≠ h → (Function.update c.table e.key none k = some h' ↔ c.table k = some h')) ∧
      ∀ k, Function.update c.table e.key none k ≠ some h := by
  refine ⟨fun k h' hne => ?_, fun k hk => ?_⟩
  · by_cases hk : k = e.key
    · subst hk
      simp [ht, Ne.symm hne]
    · rw [Function.update_of_ne hk]
  · by_cases hkey : k = e.key
    · subst hkey
      simp at hk
    · rw [Function.update_of_ne hkey] at hk
      obtain ⟨e₁, he₁, rfl, -⟩ := hi.table.mp hk
      exact hkey (congrArg LruEntry.key (Option.some.inj (he₁.symm.trans he)))

/-- **An entry leaves the cache**: its key leaves the table, and it is deleted
unless a client references it. -/
theorem Inv.removeKey (hi : c.Inv ext) {k : Slice} (ht : c.table k = some h) :
    ∃ c' vs, c.removeKey k = some (c', vs) ∧ c'.Inv ext ∧ Effect c c' vs ∧
      c'.table = Function.update c.table k none ∧
      ∀ w ∈ vs, c.item h = some (k, w) := by
  obtain ⟨e, he, rfl, hin⟩ := hi.table.mp ht
  have hrefs := hi.refs he
  have hpos := hi.pos he
  rw [hin, Bool.toNat_true] at hrefs
  have he' : ({ c with table := Function.update c.table e.key none } : LruCache V).mem h = some e := he
  obtain ⟨c', hc, hmem, hlru, htable, hnext, hcap⟩ := remove_eq he'
  obtain ⟨hothers, hgone⟩ := hi.table_removed he ht
  -- if the entry stays in memory it is no longer in the cache
  have hout : ∀ {e'}, afterRemove e = some e' → e'.inCache ≠ true := by
    intro e' h
    rw [(afterRemove_eq_some.mp h).2]
    exact Bool.false_ne_true
  have hbusy : h ∉ c'.lru := by
    rw [hlru]
    split
    · exact hi.nodup.not_mem_erase
    · -- the entry is referenced by others than the cache
      rename_i hr
      show h ∉ c.lru
      rw [hi.idle, he]
      rintro ⟨e', he', -, hr'⟩
      cases he'
      omega
  rw [LruCache.removeKey, ht]
  refine ⟨c', _, hc, ?_, ?_, htable, ?_⟩
  · refine hi.set he hmem hnext (fun k h' hne => ?_) (fun k => ?_) (fun h' hne => ?_) ?_ ?_
      (fun e' h => ?_) (fun _ _ => rfl) fun hnone => ?_
    · rw [htable]
      exact hothers k h' hne
    · rw [htable]
      exact iff_of_false (hgone k) fun hex => hout hex.choose_spec.1 hex.choose_spec.2.2
    · rw [hlru]
      split
      · exact List.mem_erase_of_ne hne
      · rfl
    · exact iff_of_false hbusy fun hex => hout hex.choose_spec.1 hex.choose_spec.2.1
    · rw [hlru]
      split
      · exact hi.nodup.erase h
      · exact hi.nodup
    · obtain ⟨hr, rfl⟩ := afterRemove_eq_some.mp h
      refine ⟨rfl, ?_, Nat.pos_of_ne_zero hr⟩
      simp only [Bool.toNat_false]
      omega
    · have hr := afterRemove_eq_none.mp hnone
      omega
  · refine Effect.of_update he hmem ?_ (fun k h' hkt => ?_) hcap hnext
    · rw [afterRemove]
      split
      · exact .inl ⟨rfl, rfl⟩
      · exact .inr ⟨_, rfl, rfl, rfl, rfl⟩
    · rw [htable] at hkt
      by_cases hk : k = e.key
      · subst hk
        simp at hkt
      · simpa only [Function.update_of_ne hk] using hkt
  · intro w hw
    split at hw
    · rw [List.mem_singleton.mp hw]
      exact item_eq.mpr ⟨e, he, rfl, rfl⟩
    · cases hw

/-- `Erase(E*)` of a live entry: afterwards it is not in the table. -/
theorem Inv.erase (hi : c.Inv ext) {k : Slice} {v : V} (hit : c.item h = some (k, v)) :
    ∃ c' vs, c.erase h = some (c', vs) ∧ c'.Inv ext ∧ Effect c c' vs ∧
      (∀ k', c'.table k' ≠ some h) ∧
      (∀ k', k' ≠ k → c'.table k' = c.table k') ∧ ∀ w ∈ vs, w = v := by
  obtain ⟨e, he, rfl, rfl⟩ := item_eq.mp hit
  have honly : ∀ k', c.table k' = some h → k' = e.key := by
    intro k' hkt
    obtain ⟨e₁, he₁, rfl, -⟩ := hi.table.mp hkt
    exact congrArg LruEntry.key (Option.some.inj (he₁.symm.trans he))
  rw [LruCache.erase, he]
  simp only []
  split
  · rename_i ht
    obtain ⟨c', vs, hc, hi', heff, htable, hdel⟩ := hi.removeKey ht
    rw [LruCache.removeKey, ht] at hc
    refine ⟨c', vs, hc, hi', heff, fun k' hkt => ?_, fun k' hk' => ?_, fun w hw => ?_⟩
    · obtain rfl := honly k' (heff.table hkt)
      rw [htable] at hkt
      simp at hkt
    · rw [htable, Function.update_of_ne hk']
    · have hw' := hdel w hw
      rw [hit] at hw'
      exact (Prod.mk.inj (Option.some.inj hw')).2.symm
  · rename_i ht
    refine ⟨c, [], rfl, hi, Effect.refl c, fun k' hkt => ?_, fun _ _ => rfl, fun w hw => by cases hw⟩
    obtain rfl := honly k' hkt
    exact ht hkt

/-! ### Inserting

An insertion first makes an entry that the client references, so that it cannot be among those
evicted to make room (`Pinned`); then the entry that had the key goes, and then as many idle
ones as it takes. -/

/-- `Pinned c c' ext`: the entries in the cache that clients reference have
stayed in the table. -/
def Pinned (c c' : LruCache V) (ext : V → Nat) : Prop :=
  ∀ k h v, c.table k = some h → c.item h = some (k, v) → 0 < ext v → c'.table k = some h

/-- A referenced entry is not deleted. -/
theorem Effect.item_of_referenced {vs : List V} (heff : Effect c c' vs) (hi : c.Inv ext)
    (hi' : c'.Inv ext') {k : Slice} {v : V} (hit : c.item h = some (k, v)) (hv : 0 < ext' v) :
    c'.item h = some (k, v) := by
  rcases heff.rest hit with hit' | ⟨hin, -⟩
  · exact hit'
  · rw [heff.unreferenced hi hi' hin] at hv
    cases hv

/-- One eviction removes an idle entry. -/
theorem Inv.evict (hi : c.Inv ext) (hne : c.lru ≠ []) :
    ∃ c' vs, c.evict = some (c', vs) ∧ c'.Inv ext ∧ Effect c c' vs ∧ Pinned c c' ext := by
  obtain ⟨a, l, hl⟩ := List.exists_cons_of_ne_nil hne
  have hin : a ∈ c.lru := by
    rw [hl]
    exact List.mem_cons_self ..
  obtain ⟨e, he, hc, hr⟩ := hi.idle.mp hin
  have ht : c.table e.key = some a := hi.table.mpr ⟨e, he, rfl, hc⟩
  obtain ⟨c', vs, hrm, hi', heff, htable, -⟩ := hi.removeKey ht
  refine ⟨c', vs, ?_, hi', heff, ?_⟩
  · rw [LruCache.evict, hl]
    simp only [he, hrm]
  · intro k h v hkt hit hv
    rw [htable]
    by_cases hk : k = e.key
    · -- the evicted entry is not referenced
      subst hk
      obtain rfl := Option.some.inj (ht.symm.trans hkt)
      obtain ⟨e', he', -, rfl⟩ := item_eq.mp hit
      cases he.symm.trans he'
      have hrefs := hi.refs he
      rw [hc, Bool.toNat_true] at hrefs
      omega
    · rw [Function.update_of_ne hk]
      exact hkt

/-- The eviction loop only evicts. -/
theorem Inv.evictLoop (hi : c.Inv ext) (fuel : Nat) :
    ∃ c' vs, LruCache.evictLoop fuel c = some (c', vs) ∧ c'.Inv ext ∧ Effect c c' vs ∧
      Pinned c c' ext := by
  induction fuel generalizing c with
  | zero => exact ⟨c, [], rfl, hi, Effect.refl c, fun _ _ _ ht _ _ => ht⟩
  | succ fuel ih =>
    rw [LruCache.evictLoop]
    split
    · rename_i hmust
      have hne : c.lru ≠ [] := by
        intro hnil
        simp [mustEvict, hnil] at hmust
      obtain ⟨c₁, vs, he, hi₁, heff₁, hpin₁⟩ := hi.evict hne
      obtain ⟨c₂, ws, hl, hi₂, heff₂, hpin₂⟩ := ih hi₁
      refine ⟨c₂, vs ++ ws, ?_, hi₂, heff₁.trans heff₂, ?_⟩
      · simp only [he, hl]
        rfl
      · intro k h v ht hit hv
        exact hpin₂ k h v (hpin₁ k h v ht hit hv) (heff₁.item_of_referenced hi hi₁ hit hv) hv
    · exact ⟨c, [], rfl, hi, Effect.refl c, fun _ _ _ ht _ _ => ht⟩

/-- The end of an insertion only ejects the new entry. -/
theorem Inv.insertEnd (hi : c.Inv ext) {k : Slice} (ht : c.capacity ≠ 0 → c.table k = some h) :
    ∃ c' vs, c.insertEnd k = some (c', vs) ∧ c'.Inv ext ∧ Effect c c' vs := by
  rw [LruCache.insertEnd]
  split
  · exact ⟨c, [], rfl, hi, Effect.refl c⟩
  rename_i hcap
  split
  · obtain ⟨c', vs, hr, hi', heff, -⟩ := hi.removeKey (ht hcap)
    exact ⟨c', vs, hr, hi', heff⟩
  · exact ⟨c, [], rfl, hi, Effect.refl c⟩

/-- The allocation of an entry of a key that is not in the cache. -/
theorem Inv.insertBegin (hi : c.Inv ext) {key : Slice} {v : V} (charge : Nat)
    (hnew : ∀ h e, c.mem h = some e → e.value ≠ v) (hkey : c.table key = none)
    (hv : ext' v = 1) (hext : ∀ w, w ≠ v → ext' w = ext w) :
    ∃ c', c.insertBegin key v charge = some (c', c.next, []) ∧ c'.Inv ext' ∧
      c'.item c.next = some (key, v) ∧ (∀ h', h' ≠ c.next → c'.item h' = c.item h') ∧
      c'.table = (if c.capacity = 0 then c.table else Function.update c.table key (some c.next)) ∧
      c'.capacity = c.capacity := by
  rw [LruCache.insertBegin]
  split
  · rename_i hcap
    refine ⟨_, rfl, ?_, ?_, ?_, rfl, rfl⟩
    · exact hi.alloc (b := false) hnew (fun h => by cases h) rfl rfl rfl rfl hv hext
    · simp [item]
    · intro h' hne
      simp [item, Function.update_of_ne hne]
  · rename_i hcap
    simp only [hkey]
    refine ⟨_, rfl, ?_, ?_, ?_, rfl, rfl⟩
    · exact hi.alloc (b := true) hnew (fun _ => hkey) rfl rfl rfl rfl hv hext
    · simp [item]
    · intro h' hne
      simp [item, Function.update_of_ne hne]

/-- What an insertion does: a new entry behind a fresh handle, and evictions. -/
structure Inserted (c c' : LruCache V) (key : Slice) (v : V) (vs : List V) : Prop where
  new : c'.item c.next = some (key, v)
  kept : ∀ {h k w}, h ≠ c.next → c'.item h = some (k, w) → c.item h = some (k, w)
  rest : ∀ {h k w}, c.item h = some (k, w) → c'.item h = some (k, w) ∨ w ∈ vs ∧ c'.item h = none
  gone : ∀ {w}, w ∈ vs → ∃ h k, c.item h = some (k, w) ∧ c'.item h = none
  table : ∀ {k h}, c'.table k = some h → c.table k = some h ∨ k = key ∧ h = c.next

/-- A value that was evicted has no entry any more. -/
theorem Inserted.live {key : Slice} {v w : V} {vs : List V} (hI : Inserted c c' key v vs)
    (hi : c.Inv ext) (hnew : ∀ h k, c.item h ≠ some (k, v)) {k : Slice}
    (hit : c'.item h = some (k, w)) : w ∉ vs := by
  intro hin
  obtain ⟨h', k', hit', hnone⟩ := hI.gone hin
  have hne : h ≠ c.next := by
    rintro rfl
    rw [hI.new] at hit
    cases hit
    exact hnew h' k' hit'
  obtain rfl := hi.item_inj (hI.kept hne hit) hit'
  rw [hit] at hnone
  cases hnone

/-- And is not referenced any more. -/
theorem Inserted.unreferenced {key : Slice} {v w : V} {vs : List V} (hI : Inserted c c' key v vs)
    (hi : c.Inv ext) (hi' : c'.Inv ext') (hnew : ∀ h k, c.item h ≠ some (k, v)) (hw : w ∈ vs) :
    ext' w = 0 := by
  by_contra hne
  obtain ⟨h', e', he', hval⟩ := hi'.held (Nat.pos_of_ne_zero hne)
  exact hI.live hi hnew (item_eq.mpr ⟨e', he', rfl, hval⟩) hw

/-- A handle the allocator has not returned yet is not live. -/
theorem Inv.item_next (hi : c.Inv ext) : c.item c.next = none := by
  rcases hit : c.item c.next with _ | ⟨k, v⟩
  · rfl
  · obtain ⟨e, he, -⟩ := item_eq.mp hit
    exact absurd (hi.fresh he) (Nat.lt_irrefl _)

/-- Evictions leave the entry in the cache that has just been made. -/
theorem new_pinned {c₁ c₂ : LruCache V} {key : Slice} {v : V} {vs : List V}
    (hcap : c₁.capacity = c.capacity)
    (htable : c₁.table =
      if c.capacity = 0 then c.table else Function.update c.table key (some c.next))
    (hnew : c₁.item c.next = some (key, v)) (heff : Effect c₁ c₂ vs) (hpin : Pinned c₁ c₂ ext)
    (hpos : 0 < ext v) (hcap₂ : c₂.capacity ≠ 0) : c₂.table key = some c.next := by
  rw [heff.capacity, hcap] at hcap₂
  rw [if_neg hcap₂] at htable
  refine hpin key c.next v ?_ hnew hpos
  rw [htable, Function.update_self]

/-- **`Insert`** of a new value under a key that is not in the cache. The entry is
referenced by the client when room is made, so the eviction takes others, and what it
deletes was referenced by nobody. -/
theorem Inv.insert (hi : c.Inv ext) {key : Slice} {v : V} (charge : Nat)
    (hnew : ∀ h e, c.mem h = some e → e.value ≠ v) (hkey : c.table key = none)
    (hv : ext' v = 1) (hext : ∀ w, w ≠ v → ext' w = ext w) :
    ∃ c' vs, c.insert key v charge = some (c', c.next, vs) ∧ c'.Inv ext' ∧ Inserted c c' key v vs := by
  obtain ⟨c₁, h₁, hi₁, hnew₁, hold₁, htable₁, hcap₁⟩ := hi.insertBegin charge hnew hkey hv hext
  obtain ⟨c₂, vs₂, h₂, hi₂, heff₂, hpin₂⟩ := hi₁.evictLoop c₁.lru.length
  have hpos : 0 < ext' v := by omega
  have hkey₂ := new_pinned hcap₁ htable₁ hnew₁ heff₂ hpin₂ hpos
  obtain ⟨c₃, vs₃, h₃, hi₃, heff₃⟩ := hi₂.insertEnd hkey₂
  have heff := heff₂.trans heff₃
  have hnext : c.item c.next = none := hi.item_next
  refine ⟨c₃, vs₂ ++ vs₃, ?_, hi₃, ?_, ?_, ?_, ?_, ?_⟩
  · rw [LruCache.insert]
    simp only [h₁, h₂, h₃, Option.bind_eq_bind, Option.bind_some, List.nil_append]
  · exact heff.item_of_referenced hi₁ hi₃ hnew₁ hpos
  · intro h k w hne hit
    rw [← hold₁ h hne]
    exact heff.kept hit
  · intro h k w hit
    have hne : h ≠ c.next := by
      rintro rfl
      rw [hnext] at hit
      cases hit
    rw [← hold₁ h hne] at hit
    exact heff.rest hit
  · intro w hw
    obtain ⟨h, k, hit, hnone⟩ := heff.gone hw
    have hne : h ≠ c.next := by
      rintro rfl
      rw [heff.item_of_referenced hi₁ hi₃ hnew₁ hpos] at hnone
      cases hnone
    exact ⟨h, k, (hold₁ h hne).symm.trans hit, hnone⟩
  · intro k h hkt
    have hkt₁ := heff.table hkt
    rw [htable₁] at hkt₁
    split at hkt₁
    · exact .inl hkt₁
    · by_cases hk : k = key
      · subst hk
        rw [Function.update_self] at hkt₁
        exact .inr ⟨rfl, (Option.some.inj hkt₁).symm⟩
      · rw [Function.update_of_ne hk] at hkt₁
        exact .inl hkt₁

/-! ## No value is dropped twice

A deleter runs once for each value. Operations list what they delete, and the lists of two
operations in a row have nothing in common, because what has been deleted has no entry any more. -/

theorem unref_nodup {vs : List V} (h' : c.unref h = some (c', vs)) : vs.Nodup := by
  rw [unref] at h'
  split at h'
  · cases h'
  dsimp only at h'
  split at h'
  · cases h'
    exact List.nodup_singleton _
  · split at h'
    · cases h'
      exact List.nodup_nil
    · cases h'
      exact List.nodup_nil

theorem removeKey_nodup {k : Slice} {vs : List V} (h' : c.removeKey k = some (c', vs)) :
    vs.Nodup := by
  rw [removeKey] at h'
  split at h'
  · cases h'
  rw [remove] at h'
  split at h'
  · cases h'
  · exact unref_nodup h'

/-- What two operations in a row drop is different. -/
theorem Effect.nodup_append {c₁ c₂ c₃ : LruCache V} {vs ws : List V} (h₁ : Effect c₁ c₂ vs)
    (h₂ : Effect c₂ c₃ ws) (hi : c₁.Inv ext) (hvs : vs.Nodup) (hws : ws.Nodup) :
    (vs ++ ws).Nodup := by
  refine List.nodup_append'.mpr ⟨hvs, hws, fun v hv hw => ?_⟩
  obtain ⟨h, k, hit, hnone⟩ := h₁.gone hv
  obtain ⟨h', k', hit', -⟩ := h₂.gone hw
  obtain ⟨e, he, -, hev⟩ := item_eq.mp hit
  obtain ⟨e', he', -, hev'⟩ := item_eq.mp (h₁.kept hit')
  obtain rfl := hi.inj he he' (hev.trans hev'.symm)
  rw [hnone] at hit'
  cases hit'

theorem Inv.evictLoop_nodup (fuel : Nat) : ∀ {c c' : LruCache V} {vs : List V}, c.Inv ext →
    LruCache.evictLoop fuel c = some (c', vs) → vs.Nodup := by
  induction fuel with
  | zero =>
    intro c c' vs _ h
    cases h
    exact List.nodup_nil
  | succ fuel ih =>
    intro c c' vs hi h
    rw [LruCache.evictLoop] at h
    split at h
    · rename_i hmust
      have hne : c.lru ≠ [] := by
        intro hnil
        simp [mustEvict, hnil] at hmust
      obtain ⟨c₁, ws, he, hi₁, heff, -⟩ := hi.evict hne
      obtain ⟨c₂, us, hl, -, heff', -⟩ := hi₁.evictLoop fuel
      have hws : ws.Nodup := by
        rw [LruCache.evict] at he
        split at he
        · cases he
          exact List.nodup_nil
        · split at he
          · cases he
          · exact removeKey_nodup he
      simp only [he, hl, Option.map_some] at h
      cases h
      exact heff.nodup_append heff' hi hws (ih hi₁ hl)
    · cases h
      exact List.nodup_nil

/-- An insertion drops no value twice. -/
theorem Inv.insert_nodup (hi : c.Inv ext) {key : Slice} {v : V} {charge : Nat}
    (hnew : ∀ h e, c.mem h = some e → e.value ≠ v) (hkey : c.table key = none)
    (hv : ext' v = 1) (hext : ∀ w, w ≠ v → ext' w = ext w) {hd : Nat} {vs : List V}
    (h : c.insert key v charge = some (c', hd, vs)) : vs.Nodup := by
  obtain ⟨c₁, h₁, hi₁, hnew₁, -, htable₁, hcap₁⟩ := hi.insertBegin charge hnew hkey hv hext
  obtain ⟨c₂, vs₂, h₂, hi₂, heff₂, hpin₂⟩ := hi₁.evictLoop c₁.lru.length
  have hpos : 0 < ext' v := by omega
  have hkey₂ := new_pinned hcap₁ htable₁ hnew₁ heff₂ hpin₂ hpos
  obtain ⟨c₃, vs₃, h₃, -, heff₃⟩ := hi₂.insertEnd hkey₂
  have hvs₃ : vs₃.Nodup := by
    rw [LruCache.insertEnd] at h₃
    split at h₃
    · cases h₃
      exact List.nodup_nil
    · split at h₃
      · exact removeKey_nodup h₃
      · cases h₃
        exact List.nodup_nil
  rw [LruCache.insert] at h
  simp only [h₁, h₂, h₃, Option.bind_eq_bind, Option.bind_some, List.nil_append] at h
  cases h
  exact heff₂.nodup_append heff₃ hi₁ (Inv.evictLoop_nodup _ hi₁ h₂) hvs₃

end LruCache

end DeltaFs
