import DeltaFs.LruCache
import DeltaFs.Types

/-!
# The leases of a partition

`fscli.cc`: a client keeps a lease for each directory it has looked up. The
leases of a directory partition are in a hash table, `leases`, and the recent
ones in an LRU cache, `cached_leases`, as well; a lease that is *out* has been
removed from both, and lives on for those that hold a reference to it. A lease
of a batch or of a bulk insertion carries the context of the operation, which
counts the handles that are open on it.

Each definition is what a client does to a partition in one section under the
partition's mutex. `DeleteLease` runs on every lease that loses its last
reference there; the sections return the leases it ran on, as it found them.

The invariant `Leases.Inv P t ext` relates the leases to `ext`, the number of
references to each of them that clients hold.
-/

namespace DeltaFs

namespace FilesystemCli

/-! ## The leases and their table

A lease is known by its address, which the table and the cache store. An address is never used
again in the model, so what is said of a lease that has been deleted cannot come true of another
one by accident. -/

/-- `BatchedCreates` and `BulkInserts`, as far as their life cycle goes. -/
structure BatchContext where
  /-- the user of `ctx` -/
  who : User
  /-- `uint32_t`: of fewer than 2^32 handles at once -/
  refs : Nat

/-- `FilesystemCli::Lease`. -/
structure Lease where
  lruHandle : Nat
  rep : LookupStat
  batch : Option BatchContext
  bk : Option BatchContext
  key : Slice
  mode : LokupMode
  out : Bool

/-- The leases of a partition. -/
structure Leases where
  /-- `cached_leases` -/
  cached : LruCache Nat
  /-- `leases` -/
  table : Slice → Option Nat
  /-- the leases, by pointer -/
  mem : Nat → Option Lease
  /-- the next pointer the allocator returns -/
  next : Nat

/-- A lease that has been deleted, with what it was by then. -/
abbrev Deleted := Nat × Lease

/-- `refs++` of the context a mode is about, which must be there. -/
def Lease.addRef (lease : Lease) : LokupMode → Option Lease
  | .kBulkIn => lease.bk.map fun bk => { lease with bk := some { bk with refs := bk.refs + 1 } }
  | .kBatchedCreats =>
    lease.batch.map fun batch => { lease with batch := some { batch with refs := batch.refs + 1 } }
  | .kRegular => some lease

/-- No context is left in a lease. -/
def Lease.Clean (lease : Lease) : Prop := lease.batch = none ∧ lease.bk = none

/-- What does not change of a lease while somebody references it. -/
structure Lease.Same (lease lease' : Lease) : Prop where
  key : lease'.key = lease.key
  mode : lease'.mode = lease.mode
  rep : lease'.rep = lease.rep
  batch : lease'.batch.map BatchContext.who = lease.batch.map BatchContext.who
  bk : lease'.bk.map BatchContext.who = lease.bk.map BatchContext.who

theorem Lease.Same.refl (lease : Lease) : lease.Same lease := ⟨rfl, rfl, rfl, rfl, rfl⟩

theorem Lease.Same.trans {a b c : Lease} (h : a.Same b) (h' : b.Same c) : a.Same c :=
  ⟨h'.key.trans h.key, h'.mode.trans h.mode, h'.rep.trans h.rep, h'.batch.trans h.batch,
    h'.bk.trans h.bk⟩

/-- The context of a lease is that of its mode, and counts `n` handles. -/
def Lease.Counts (lease : Lease) (n : Nat) : Prop :=
  match lease.mode with
  | .kRegular => lease.Clean
  | .kBatchedCreats => lease.bk = none ∧ ∃ bc, lease.batch = some bc ∧ bc.refs = n
  | .kBulkIn => lease.batch = none ∧ ∃ bk, lease.bk = some bk ∧ bk.refs = n

namespace Leases

/-! ## The sections

Every definition up to the next heading is one section under the mutex of the partition, or a
function called in one. The order of the steps inside is that of the code; `none` is an
assertion that fails. -/

/-- No lease. -/
def empty (capacity : Nat) : Leases where
  cached := LruCache.empty capacity
  table _ := none
  mem _ := none
  next := 0

/-- Write the lease at `l`. -/
def setLease (t : Leases) (l : Nat) (lease : Lease) : Leases :=
  { t with mem := Function.update t.mem l (some lease) }

/-- `leases->Remove(lease)`: no effect when the lease is not in the table. -/
def removeLease (t : Leases) (l : Nat) (lease : Lease) : Leases :=
  if t.table lease.key = some l then
    { t with table := Function.update t.table lease.key none }
  else t

/-- `DeleteLease`. -/
def deleteLease (t : Leases) (l : Nat) (lease : Lease) : Leases :=
  let t := if lease.out then t else t.removeLease l lease
  { t with mem := Function.update t.mem l none }

/-- The deleter, on all the values a cache operation dropped. -/
def deleteLeases (t : Leases) : List Nat → Leases × List Deleted
  | [] => (t, [])
  | l :: ls =>
    match t.mem l with
    | none => t.deleteLeases ls
    | some lease =>
      let r := (t.deleteLease l lease).deleteLeases ls
      (r.1, (l, lease) :: r.2)

/-- `cached_leases->Release(h)`. -/
def release (t : Leases) (h : Nat) : Option (Leases × List Deleted) :=
  (t.cached.release h).map fun r => { t with cached := r.1 }.deleteLeases r.2

/-- `cached_leases->Erase(h)`. -/
def erase (t : Leases) (h : Nat) : Option (Leases × List Deleted) :=
  (t.cached.erase h).map fun r => { t with cached := r.1 }.deleteLeases r.2

/-- An expired lease leaves the table. -/
def expire (t : Leases) (l : Nat) (lease : Lease) : Leases :=
  (t.removeLease l lease).setLease l { lease with out := true }

/-- The check `Lokup2` makes before and after it has waited: the lease of a
name, in the cache or else in the table, with a new reference to it; no lease
if there is none or if it has expired. -/
def check (t : Leases) (name : Slice) (now : UInt64) :
    Option (Leases × Option Nat × List Deleted) := do
  match ← t.cached.lookup name with
  | (c, some h) =>
    let e ← c.mem h
    let lease ← t.mem e.value
    let t := { t with cached := c }
    if lease.rep.leaseDue < now then
      let (t, d₁) ← (t.expire e.value lease).erase h
      let (t, d₂) ← t.release h
      some (t, none, d₁ ++ d₂)
    else some (t, some e.value, [])
  | (_, none) =>
    match t.table name with
    | none => some (t, none, [])
    | some l =>
      let lease ← t.mem l
      if lease.rep.leaseDue < now then some (t.expire l lease, none, [])
      else
        let c ← t.cached.ref lease.lruHandle
        some ({ t with cached := c }, some l, [])

/-- The message for a lease of another mode. -/
def modeMismatch : Slice := Status.joinMsg (str "Lease mode mismatch")
  (str "Dir locked for regular operations, batched creates, or bulk insertion")

/-- The end of `Lokup1`: a lease of another mode is given back, and the context
of one of the right mode gets a reference. -/
def grant (t : Leases) (l : Nat) (mode : LokupMode) : Option (Leases × Status × List Deleted) := do
  let lease ← t.mem l
  if lease.mode ≠ mode then
    let (t, deleted) ← t.release lease.lruHandle
    some (t, .err .accessDenied modeMismatch, deleted)
  else
    let lease ← lease.addRef mode
    some (t.setLease l lease, .ok, [])

/-- The last part of `Lokup2`: a new lease enters the table and the cache, and
leaves both again if it cannot be cached. Returns what `leases->Insert` did. -/
def install (t : Leases) (name : Slice) (mode : LokupMode) (batch bk : Option BatchContext)
    (rep : LookupStat) : Option (Leases × Nat × Option Nat × List Deleted) := do
  let l := t.next
  let old := t.table name
  let (c, h, vs) ← t.cached.insert name l 1
  let lease : Lease := ⟨h, rep, batch, bk, name, mode, false⟩
  let (t, d₁) := Leases.deleteLeases ⟨c, Function.update t.table name (some l),
    Function.update t.mem l (some lease), l + 1⟩ vs
  if rep.leaseDue = 0 then
    let (t, d₂) ← (t.expire l lease).erase h
    some (t, l, old, d₁ ++ d₂)
  else some (t, l, old, d₁)

/-- `Release(Lease*)`, under the partition's mutex. -/
def releaseLease (t : Leases) (l : Nat) : Option (Leases × List Deleted) := do
  let lease ← t.mem l
  t.release lease.lruHandle

/-- A lease whose context is destroyed is removed from the client. -/
def dissociate (t : Leases) (l : Nat) (lease lease' : Lease) : Option (Leases × List Deleted) := do
  let (t, deleted) ← t.erase lease.lruHandle
  some ((t.removeLease l lease).setLease l lease', deleted)

/-- `Destroy(BAT*)`, under the partition's mutex. Returns the context if this
was the last reference to it. -/
def destroyBat (t : Leases) (l : Nat) : Option (Leases × Option BatchContext × List Deleted) := do
  let lease ← t.mem l
  let bc ← lease.batch
  let r := bc.refs - 1
  if r = 0 then
    let (t, d₁) ← t.dissociate l lease { lease with out := true, batch := none }
    let (t, d₂) ← t.release lease.lruHandle
    some (t, some bc, d₁ ++ d₂)
  else
    let t := t.setLease l { lease with batch := some { bc with refs := r } }
    let (t, deleted) ← t.release lease.lruHandle
    some (t, none, deleted)

/-- `Destroy(BULK*)`, under the partition's mutex. The lease is dissociated
from its context only if it is not out. -/
def destroyBulk (t : Leases) (l : Nat) : Option (Leases × Option BatchContext × List Deleted) := do
  let lease ← t.mem l
  let bk ← lease.bk
  let r := bk.refs - 1
  let last := if r = 0 then some bk else none
  let lease' := { lease with bk := some { bk with refs := r } }
  if r = 0 ∧ lease.out = false then
    let (t, d₁) ← (t.setLease l lease').dissociate l lease' { lease' with out := true, bk := none }
    let (t, d₂) ← t.release lease.lruHandle
    some (t, last, d₁ ++ d₂)
  else
    let (t, deleted) ← (t.setLease l lease').release lease.lruHandle
    some (t, last, deleted)

/-! ## The table and the cache

`Listed` says that the table lists the leases that are not out, each under its name, and
`Core` that the cache and the counts go with it. Neither knows what a lease is for. -/

/-- The table holds exactly the leases that are not out, each under its own
name. -/
def Listed (t : Leases) : Prop :=
  ∀ k l, t.table k = some l ↔ ∃ lease, t.mem l = some lease ∧ lease.key = k ∧ lease.out = false

variable {t t' : Leases} {ext ext' : Nat → Nat} {l : Nat} {lease lease' : Lease} {k : Slice}

theorem setLease_self (t : Leases) (l : Nat) (lease : Lease) :
    (t.setLease l lease).mem l = some lease := Function.update_self ..

theorem setLease_of_ne {q : Nat} (hq : q ≠ l) (lease : Lease) :
    (t.setLease l lease).mem q = t.mem q := Function.update_of_ne hq ..

theorem removeLease_mem (t : Leases) (l : Nat) (lease : Lease) :
    (t.removeLease l lease).mem = t.mem := by
  rw [removeLease]
  split <;> rfl

theorem removeLease_cached (t : Leases) (l : Nat) (lease : Lease) :
    (t.removeLease l lease).cached = t.cached := by
  rw [removeLease]
  split <;> rfl

theorem removeLease_next (t : Leases) (l : Nat) (lease : Lease) :
    (t.removeLease l lease).next = t.next := by
  rw [removeLease]
  split <;> rfl

theorem removeLease_setLease_mem (t : Leases) (l : Nat) (lease lease' : Lease) :
    ((t.removeLease l lease).setLease l lease').mem = Function.update t.mem l (some lease') := by
  rw [Leases.setLease, removeLease_mem]

/-- A lease is only listed under its own name. -/
theorem Listed.key (hi : t.Listed) (hl : t.mem l = some lease) (hk : t.table k = some l) :
    k = lease.key := by
  obtain ⟨lease₁, h₁, rfl, -⟩ := (hi k l).mp hk
  obtain rfl := Option.some.inj (h₁.symm.trans hl)
  rfl

/-- `leases->Remove(lease)` removes that lease. -/
theorem Listed.table_removeLease (hi : t.Listed) (hl : t.mem l = some lease) {q : Nat} :
    (t.removeLease l lease).table k = some q ↔ t.table k = some q ∧ q ≠ l := by
  rw [removeLease]
  split
  · rename_i hlist
    by_cases hk : k = lease.key
    · subst hk
      rw [hlist]
      simp
      exact fun h => h.symm
    · simp only [Function.update_of_ne hk]
      refine ⟨fun hq => ⟨hq, ?_⟩, And.left⟩
      rintro rfl
      exact hk (hi.key hl hq)
  · rename_i hlist
    refine ⟨fun hq => ⟨hq, ?_⟩, And.left⟩
    rintro rfl
    exact hlist (hi.key hl hq ▸ hq)

/-- The lease at `l` is written anew: it is listed as it says. -/
theorem Listed.write (hi : t.Listed) (hl : t.mem l = some lease) (hkey : lease'.key = lease.key)
    (hmem : t'.mem = Function.update t.mem l (some lease'))
    (htable : ∀ k q, t'.table k = some q ↔ t.table k = some q ∧ (q = l → lease'.out = false))
    (hout : lease'.out = false → lease.out = false) : t'.Listed := by
  intro k q
  rw [htable, hi]
  by_cases hq : q = l
  · subst hq
    rw [hmem, Function.update_self]
    constructor
    · rintro ⟨⟨lease₁, h₁, rfl, -⟩, ho⟩
      obtain rfl := Option.some.inj (h₁.symm.trans hl)
      exact ⟨lease', rfl, hkey, ho rfl⟩
    · rintro ⟨lease₁, h₁, rfl, ho⟩
      cases h₁
      exact ⟨⟨lease, hl, hkey.symm, hout ho⟩, fun _ => ho⟩
  · rw [hmem, Function.update_of_ne hq]
    exact and_iff_left fun h => absurd h hq

theorem deleteLease_mem (t : Leases) (l : Nat) (lease : Lease) :
    (t.deleteLease l lease).mem = Function.update t.mem l none := by
  rw [deleteLease]
  split
  · rfl
  · simp only [removeLease_mem]

theorem deleteLease_cached (t : Leases) (l : Nat) (lease : Lease) :
    (t.deleteLease l lease).cached = t.cached := by
  rw [deleteLease]
  split
  · rfl
  · exact removeLease_cached ..

theorem deleteLease_next (t : Leases) (l : Nat) (lease : Lease) :
    (t.deleteLease l lease).next = t.next := by
  rw [deleteLease]
  split
  · rfl
  · exact removeLease_next ..

/-- **`DeleteLease`** removes a lease from the table whether it is out or
not. -/
theorem Listed.table_deleteLease (hi : t.Listed) (hl : t.mem l = some lease) {q : Nat} :
    (t.deleteLease l lease).table k = some q ↔ t.table k = some q ∧ q ≠ l := by
  rw [deleteLease]
  split
  · rename_i hout
    refine ⟨fun hq => ⟨hq, ?_⟩, And.left⟩
    rintro rfl
    obtain ⟨lease₁, h₁, -, ho⟩ := (hi k q).mp hq
    obtain rfl := Option.some.inj (h₁.symm.trans hl)
    rw [hout] at ho
    cases ho
  · exact hi.table_removeLease hl

theorem Listed.deleteLease (hi : t.Listed) (hl : t.mem l = some lease) :
    (t.deleteLease l lease).Listed := by
  intro k q
  rw [hi.table_deleteLease hl, hi, deleteLease_mem]
  by_cases hq : q = l
  · subst hq
    simp
  · rw [Function.update_of_ne hq]
    exact and_iff_left hq

/-- What deleting leases does. -/
structure DeletedFrom (t t' : Leases) (ls : List Nat) (ds : List Deleted) : Prop where
  listed : t'.Listed
  table : ∀ {k q}, t'.table k = some q → t.table k = some q
  mem : ∀ q, t'.mem q = if q ∈ ls then none else t.mem q
  cached : t'.cached = t.cached
  next : t'.next = t.next
  deleted : ∀ d ∈ ds, d.1 ∈ ls ∧ t.mem d.1 = some d.2

theorem Listed.deleteLeases (hi : t.Listed) (ls : List Nat) :
    ∃ t' ds, t.deleteLeases ls = (t', ds) ∧ DeletedFrom t t' ls ds := by
  induction ls generalizing t with
  | nil =>
    refine ⟨t, [], rfl, hi, id, fun q => ?_, rfl, rfl, fun d hd => by cases hd⟩
    rw [if_neg (List.not_mem_nil)]
  | cons l ls ih =>
    rw [Leases.deleteLeases]
    rcases hl : t.mem l with _ | lease
    · obtain ⟨t', ds, he, hd⟩ := ih hi
      refine ⟨t', ds, he, hd.listed, hd.table, fun q => ?_, hd.cached, hd.next, fun d hin => ?_⟩
      · rw [hd.mem]
        by_cases hq : q = l
        · subst hq
          simp [hl]
        · simp [hq]
      · obtain ⟨hls, hm⟩ := hd.deleted d hin
        exact ⟨List.mem_cons_of_mem _ hls, hm⟩
    · obtain ⟨t', ds, he, hd⟩ := ih (hi.deleteLease hl)
      have hmem : ∀ q, (t.deleteLease l lease).mem q = if q = l then none else t.mem q := by
        intro q
        rw [deleteLease_mem, Function.update_apply]
      refine ⟨t', (l, lease) :: ds, ?_, hd.listed, fun hq => ?_, fun q => ?_, ?_, ?_,
        fun d hin => ?_⟩
      · simp only [he]
      · exact ((hi.table_deleteLease hl).mp (hd.table hq)).1
      · rw [hd.mem, hmem]
        by_cases hq : q = l
        · simp [hq]
        · simp [hq]
      · rw [hd.cached, deleteLease_cached]
      · rw [hd.next, deleteLease_next]
      · rcases List.mem_cons.mp hin with rfl | hin
        · exact ⟨List.mem_cons_self .., hl⟩
        · obtain ⟨hls, hm⟩ := hd.deleted d hin
          rw [hmem] at hm
          split at hm
          · cases hm
          · exact ⟨List.mem_cons_of_mem _ hls, hm⟩

/-! ### The table, the cache and the references

`Core` leaves out what the leases say and is about where they are: in the table iff not out, an
entry of the cache each for as long as they live. It survives within a section, where `Inv` may
be broken for a moment. -/

/-- The invariant of the table and the cache, for leases with `ext`
references. -/
structure Core (t : Leases) (ext : Nat → Nat) : Prop where
  lru : t.cached.Inv ext
  listed : t.Listed
  /-- a lease knows its entry of the cache -/
  handle : ∀ {l lease}, t.mem l = some lease →
    t.cached.item lease.lruHandle = some (lease.key, l)
  /-- and every entry stands for a lease -/
  item : ∀ {h k l}, t.cached.item h = some (k, l) → ∃ lease, t.mem l = some lease
  /-- a lease in the cache is not out -/
  cached : ∀ {k h l lease}, t.cached.table k = some h → t.cached.item h = some (k, l) →
    t.mem l = some lease → lease.out = false
  fresh : ∀ {l lease}, t.mem l = some lease → l < t.next

theorem Core.empty (capacity : Nat) : Core (Leases.empty capacity) fun _ => 0 where
  lru := LruCache.Inv.empty capacity fun _ => rfl
  listed k l := by
    constructor
    · intro h
      cases h
    · rintro ⟨lease, h, -⟩
      cases h
  handle hl := by cases hl
  item hit := by cases hit
  cached hk := by cases hk
  fresh hl := by cases hl

/-- A referenced lease is in memory. -/
theorem Core.live (hi : Core t ext) (hl : 0 < ext l) : ∃ lease, t.mem l = some lease := by
  obtain ⟨h, e, he, rfl⟩ := hi.lru.held hl
  exact hi.item (LruCache.item_eq.mpr ⟨e, he, rfl, rfl⟩)

/-- **The cache changed**, and the leases it dropped are deleted. The caches and the counts
are those of `LruCache`; what is new is that a lease it drops leaves the table as well. -/
theorem Core.effect (hi : Core t ext) {c : LruCache Nat} {ls : List Nat} (hc : c.Inv ext')
    (heff : t.cached.Effect c ls) :
    ∃ t' ds, { t with cached := c }.deleteLeases ls = (t', ds) ∧ Core t' ext' ∧
      DeletedFrom { t with cached := c } t' ls ds := by
  have hlisted : ({ t with cached := c } : Leases).Listed := hi.listed
  obtain ⟨t', ds, he, hd⟩ := hlisted.deleteLeases ls
  refine ⟨t', ds, he, ⟨?_, hd.listed, ?_, ?_, ?_, ?_⟩, hd⟩
  · rw [hd.cached]
    exact hc
  · intro q lease hq
    rw [hd.mem] at hq
    split at hq
    · cases hq
    rename_i hin
    rw [hd.cached]
    rcases heff.rest (hi.handle hq) with h | ⟨h, -⟩
    · exact h
    · exact absurd h hin
  · intro h k q hit
    rw [hd.cached] at hit
    obtain ⟨lease, hq⟩ := hi.item (heff.kept hit)
    refine ⟨lease, ?_⟩
    rw [hd.mem, if_neg (heff.live hi.lru hit)]
    exact hq
  · intro k h q lease hk hit hq
    rw [hd.cached] at hk hit
    rw [hd.mem] at hq
    split at hq
    · cases hq
    · exact hi.cached (heff.table hk) (heff.kept hit) hq
  · intro q lease hq
    rw [hd.mem] at hq
    rw [hd.next]
    split at hq
    · cases hq
    · exact hi.fresh hq

/-- A lease changes, but neither its name nor its place. -/
theorem Core.setLease (hi : Core t ext) (hl : t.mem l = some lease) (hkey : lease'.key = lease.key)
    (hh : lease'.lruHandle = lease.lruHandle) (hout : lease'.out = lease.out) :
    Core (t.setLease l lease') ext := by
  have hmem : ∀ {q lease₁}, (t.setLease l lease').mem q = some lease₁ →
      ∃ lease₀, t.mem q = some lease₀ ∧ lease₁.key = lease₀.key ∧
        lease₁.lruHandle = lease₀.lruHandle ∧ lease₁.out = lease₀.out := by
    intro q lease₁ hq
    by_cases hql : q = l
    · subst hql
      rw [setLease_self] at hq
      cases hq
      exact ⟨lease, hl, hkey, hh, hout⟩
    · rw [setLease_of_ne hql] at hq
      exact ⟨lease₁, hq, rfl, rfl, rfl⟩
  refine ⟨hi.lru, ?_, ?_, ?_, ?_, ?_⟩
  · refine hi.listed.write hl hkey rfl (fun k q => ?_) fun h => hout ▸ h
    refine ⟨fun hq => ⟨hq, ?_⟩, And.left⟩
    rintro rfl
    obtain ⟨lease₁, h₁, -, ho⟩ := (hi.listed k q).mp hq
    obtain rfl := Option.some.inj (h₁.symm.trans hl)
    exact hout.trans ho
  · intro q lease₁ hq
    obtain ⟨lease₀, h₀, hk, hhandle, -⟩ := hmem hq
    rw [hk, hhandle]
    exact hi.handle h₀
  · intro h k q hit
    by_cases hql : q = l
    · subst hql
      exact ⟨lease', setLease_self ..⟩
    · rw [setLease_of_ne hql]
      exact hi.item hit
  · intro k h q lease₁ hk hit hq
    obtain ⟨lease₀, h₀, -, -, ho⟩ := hmem hq
    rw [ho]
    exact hi.cached hk hit h₀
  · intro q lease₁ hq
    obtain ⟨lease₀, h₀, -⟩ := hmem hq
    exact hi.fresh h₀

/-- `Erase` of a lease somebody holds: it leaves the cache, and nothing is
deleted. -/
theorem Core.erase_held (hi : Core t ext) (hl : t.mem l = some lease) (hpos : 0 < ext l) :
    ∃ c, t.cached.erase lease.lruHandle = some (c, []) ∧ c.Inv ext ∧ t.cached.Effect c [] ∧
      ∀ k, c.table k ≠ some lease.lruHandle := by
  obtain ⟨c, vs, he, hc, heff, hgone, -, hvs⟩ := hi.lru.erase (hi.handle hl)
  cases vs with
  | nil => exact ⟨c, he, hc, heff, hgone⟩
  | cons v vs =>
    -- what is deleted is not referenced
    have hzero := heff.unreferenced hi.lru hc (List.mem_cons_self ..)
    rw [hvs v (List.mem_cons_self ..)] at hzero
    omega

/-- **A lease leaves the table and the cache.** It stays in memory, for those that
reference it, and nobody finds it any more. -/
theorem Core.retire (hi : Core t ext) (hl : t.mem l = some lease) (lease' : Lease)
    (hkey : lease'.key = lease.key) (hh : lease'.lruHandle = lease.lruHandle)
    (hout : lease'.out = true) {c : LruCache Nat}
    (hc : c.Inv ext) (heff : t.cached.Effect c []) (hgone : ∀ k, c.table k ≠ some lease.lruHandle) :
    Core { (t.removeLease l lease).setLease l lease' with cached := c } ext := by
  have hmem : ∀ q, ((t.removeLease l lease).setLease l lease').mem q =
      if q = l then some lease' else t.mem q := by
    intro q
    rw [removeLease_setLease_mem]
    exact Function.update_apply ..
  have hitem : ∀ {h k q}, t.cached.item h = some (k, q) → c.item h = some (k, q) := by
    intro h k q hit
    rcases heff.rest hit with h | ⟨h, -⟩
    · exact h
    · cases h
  refine ⟨hc, ?_, ?_, ?_, ?_, ?_⟩
  · refine hi.listed.write hl hkey ?_ (fun k q => ?_) fun h => ?_
    · exact removeLease_setLease_mem ..
    · refine (hi.listed.table_removeLease hl).trans (and_congr_right fun _ => ?_)
      exact ⟨fun hq h => absurd h hq, fun h hq => by rw [h hq] at hout; cases hout⟩
    · rw [hout] at h
      cases h
  · intro q lease₁ hq
    have hq : ((t.removeLease l lease).setLease l lease').mem q = some lease₁ := hq
    rw [hmem] at hq
    split at hq
    · rename_i hql
      cases hq
      rw [hh, hkey, hql]
      exact hitem (hi.handle hl)
    · exact hitem (hi.handle hq)
  · intro h k q hit
    obtain ⟨lease₁, hq⟩ := hi.item (heff.kept hit)
    show ∃ lease₂, ((t.removeLease l lease).setLease l lease').mem q = some lease₂
    rw [hmem]
    split
    · exact ⟨_, rfl⟩
    · exact ⟨_, hq⟩
  · intro k h q lease₁ hk hit hq
    have hq : ((t.removeLease l lease).setLease l lease').mem q = some lease₁ := hq
    rw [hmem] at hq
    split at hq
    · rename_i hql
      -- the lease's own entry is not in the cache any more
      subst hql
      obtain ⟨e, he, -, hv⟩ := LruCache.item_eq.mp (heff.kept hit)
      obtain ⟨e', he', -, hv'⟩ := LruCache.item_eq.mp (hi.handle hl)
      obtain rfl := hi.lru.inj he he' (hv.trans hv'.symm)
      exact absurd hk (hgone k)
    · exact hi.cached (heff.table hk) (heff.kept hit) hq
  · intro q lease₁ hq
    have hq : ((t.removeLease l lease).setLease l lease').mem q = some lease₁ := hq
    show q < (t.removeLease l lease).next
    rw [hmem] at hq
    rw [removeLease_next]
    split at hq
    · rename_i hql
      rw [hql]
      exact hi.fresh hl
    · exact hi.fresh hq

/-- **A reference is dropped.** The lease may be deleted with the last one, and then it
leaves the table as well; nothing else is deleted. -/
theorem Core.release (hi : Core t ext) (hl : t.mem l = some lease) (hv : ext' l + 1 = ext l)
    (hext : ∀ q, q ≠ l → ext' q = ext q) :
    ∃ t' ds, t.release lease.lruHandle = some (t', ds) ∧ Core t' ext' ∧
      (∀ {k q}, t'.table k = some q → t.table k = some q) ∧ t'.next = t.next ∧
      (∀ q, t'.mem q = t.mem q ∨ q = l ∧ t'.mem l = none ∧ ext' l = 0) ∧
      ∀ d ∈ ds, d = (l, lease) ∧ t'.mem l = none ∧ ext' l = 0 := by
  obtain ⟨c, vs, hr, hc, heff, -, hvs⟩ := hi.lru.release (hi.handle hl) hv hext
  obtain ⟨t', ds, he, hi', hd⟩ := hi.effect hc heff
  have hgone : ∀ {q}, q ∈ vs → q = l ∧ t'.mem l = none ∧ ext' l = 0 := by
    intro q hq
    obtain rfl := hvs q hq
    exact ⟨rfl, by rw [hd.mem, if_pos hq], heff.unreferenced hi.lru hc hq⟩
  refine ⟨t', ds, ?_, hi', hd.table, hd.next, fun q => ?_, fun d hin => ?_⟩
  · rw [Leases.release, hr, Option.map_some, he]
  · by_cases hq : q ∈ vs
    · exact .inr (hgone hq)
    · rw [hd.mem, if_neg hq]
      exact .inl rfl
  · obtain ⟨hin, hm⟩ := hd.deleted d hin
    obtain ⟨hq, hrest⟩ := hgone hin
    refine ⟨Prod.ext hq ?_, hrest⟩
    rw [hq] at hm
    exact Option.some.inj (hm.symm.trans hl)

/-- A reference is added, through the cache. -/
theorem Core.cached_ref (hi : Core t ext) {c : LruCache Nat} (hc : c.Inv ext')
    (heff : t.cached.Effect c []) : Core { t with cached := c } ext' := by
  obtain ⟨t', ds, he, hi', -⟩ := hi.effect hc heff
  obtain ⟨rfl, -⟩ := Prod.mk.inj he
  exact hi'

/-! ## The invariant

What a lease says and the contexts it has come on top. `Moved` is what a section leaves of
the leases that somebody holds: they stay, and change only as a lease may. -/

/-- The references after one more on `l`. -/
def more (ext : Nat → Nat) (l : Nat) : Nat → Nat := Function.update ext l (ext l + 1)

@[simp] theorem more_self (ext : Nat → Nat) (l : Nat) : more ext l l = ext l + 1 :=
  Function.update_self ..

theorem more_of_ne (ext : Nat → Nat) {q : Nat} (h : q ≠ l) : more ext l q = ext q :=
  Function.update_of_ne h ..

/-- What holds of a lease with `n` references, when the stats the server
returns for a name and a lookup mode satisfy `P`. -/
structure Ok (P : Slice → LokupMode → LookupStat → Prop) (lease : Lease) (n : Nat) : Prop where
  rep : P lease.key lease.mode lease.rep
  /-- a lease that is not out can be cached -/
  due : lease.out = false → lease.rep.leaseDue ≠ 0
  /-- a lease that is out could not be cached, or has expired -/
  out : lease.out = true → lease.rep.leaseDue ≠ -1
  counts : lease.Counts n
  /-- a context is there because of the handles that are open on it -/
  pos : lease.mode ≠ .kRegular → 0 < n

/-- The invariant of the leases of a partition, with `ext` references to
each. -/
structure Inv (P : Slice → LokupMode → LookupStat → Prop) (t : Leases) (ext : Nat → Nat) : Prop
    extends Core t ext where
  ok : ∀ {l lease}, t.mem l = some lease → Ok P lease (ext l)

/-- What a section does to the leases others hold and look for. Only a section
that installs a lease of `new` lists one. -/
structure Moved (t t' : Leases) (ext' : Nat → Nat) (new : Option Slice) (ds : List Deleted) :
    Prop where
  stays : ∀ {l lease}, t.mem l = some lease → 0 < ext' l →
    ∃ lease', t'.mem l = some lease' ∧ lease.Same lease'
  table : ∀ {k l}, t'.table k = some l → t.table k = some l ∨ new = some k
  /-- a lease is deleted with the last reference to it -/
  gone : ∀ d ∈ ds, ext' d.1 = 0

/-- All of the deleted leases had been dissociated from their contexts. -/
def AllClean (ds : List Deleted) : Prop := ∀ d ∈ ds, d.2.Clean

variable {P : Slice → LokupMode → LookupStat → Prop} {name : Slice} {now : UInt64}
  {ds : List Deleted}

theorem Inv.empty (P : Slice → LokupMode → LookupStat → Prop) (capacity : Nat) :
    Inv P (Leases.empty capacity) fun _ => 0 where
  toCore := Core.empty capacity
  ok hl := by cases hl

theorem Moved.refl (t : Leases) (ext : Nat → Nat) : Moved t t ext none [] where
  stays hl _ := ⟨_, hl, .refl _⟩
  table := .inl
  gone d hd := by cases hd

theorem allClean_nil : AllClean [] := fun d hd => by cases hd

/-- A lease nobody references has no context. -/
theorem Ok.clean (ho : Ok P lease 0) : lease.Clean := by
  have hc := ho.counts
  rw [Lease.Counts] at hc
  cases hm : lease.mode with
  | kRegular =>
    rw [hm] at hc
    exact hc
  | kBatchedCreats => exact absurd (ho.pos (by rw [hm]; decide)) (Nat.lt_irrefl 0)
  | kBulkIn => exact absurd (ho.pos (by rw [hm]; decide)) (Nat.lt_irrefl 0)

/-- The largest due never passes. -/
theorem due_ne_of_lt {due : UInt64} (h : due < now) : due ≠ -1 := by
  rintro rfl
  have hlt := UInt64.lt_iff_toNat_lt.mp h
  have hnow := now.toNat_lt
  have hmax : (-1 : UInt64).toNat = 18446744073709551615 := by decide
  omega

theorem Ok.expire {n : Nat} (ho : Ok P lease n) (hdue : lease.rep.leaseDue < now) :
    Ok P { lease with out := true } n where
  rep := ho.rep
  due h := by cases h
  out _ := due_ne_of_lt hdue
  counts := ho.counts
  pos := ho.pos

/-! ## The check of a lookup

`Lokup2` looks in the cache first and then in the table, and its branches come to two results:
nothing to be found, or a lease that the caller now references. An expired lease is taken out of
the table by the lookup that meets it, so nobody finds it afterwards; those that hold it keep
it. -/

/-- What the check of `Lokup2` finds. -/
inductive Checked (P : Slice → LokupMode → LookupStat → Prop) (t : Leases) (ext : Nat → Nat)
    (name : Slice) (now : UInt64) : Leases → Option Nat → List Deleted → Prop where
  /-- no lease, or one that has expired -/
  | missing {t' : Leases} {ds : List Deleted} : Inv P t' ext → Moved t t' ext none ds →
      AllClean ds → t'.table name = none → Checked P t ext name now t' none ds
  /-- the lease in the table, which has not expired -/
  | found {t' : Leases} {l : Nat} {lease : Lease} :
      Core t' (more ext l) → t'.mem = t.mem → t'.table = t.table →
      t.mem l = some lease → t.table name = some l → ¬lease.rep.leaseDue < now →
      Checked P t ext name now t' (some l) []

/-- An expired lease leaves the table, and with its last reference it is
deleted: nothing changes for those that look for other leases. -/
theorem Inv.expired (hi : Inv P t ext) (hl : t.mem l = some lease) (hlist : t.table name = some l)
    (hdue : lease.rep.leaseDue < now) (hc : Core t' ext)
    (hmem : ∀ q, q ≠ l → t'.mem q = t.mem q)
    (hself : t'.mem l = some { lease with out := true } ∨ t'.mem l = none ∧ ext l = 0)
    (htable : ∀ {k q}, t'.table k = some q → t.table k = some q)
    (hds : ∀ d ∈ ds, d = (l, { lease with out := true }) ∧ ext l = 0) :
    Checked P t ext name now t' none ds := by
  have hex := (hi.ok hl).expire hdue
  have hsome : ∀ {lease'}, t'.mem l = some lease' → lease' = { lease with out := true } := by
    intro lease' h
    rcases hself with h' | ⟨h', -⟩
    · exact Option.some.inj (h.symm.trans h')
    · rw [h'] at h
      cases h
  apply Checked.missing
  · refine ⟨hc, fun {q lease'} hq => ?_⟩
    by_cases hql : q = l
    · subst hql
      obtain rfl := hsome hq
      exact hex
    · rw [hmem q hql] at hq
      exact hi.ok hq
  · refine ⟨fun {q lease'} hq hpos => ?_, fun h => .inl (htable h), fun d hd => ?_⟩
    · by_cases hql : q = l
      · subst hql
        obtain rfl := Option.some.inj (hl.symm.trans hq)
        rcases hself with h | ⟨-, h⟩
        · exact ⟨_, h, rfl, rfl, rfl, rfl, rfl⟩
        · omega
      · exact ⟨lease', (hmem q hql).trans hq, .refl _⟩
    · obtain ⟨rfl, h⟩ := hds d hd
      exact h
  · intro d hd
    obtain ⟨rfl, h⟩ := hds d hd
    rw [h] at hex
    exact hex.clean
  · rcases hn : t'.table name with _ | q
    · rfl
    · -- the table had nothing else under this name
      obtain ⟨lease', hq, -, ho⟩ := (hc.listed name q).mp hn
      obtain rfl := Option.some.inj (hlist.symm.trans (htable hn))
      rw [hsome hq] at ho
      cases ho

theorem expire_cached (t : Leases) (l : Nat) (lease : Lease) :
    (t.expire l lease).cached = t.cached := removeLease_cached ..

/-- An erasure that deletes nothing. -/
theorem erase_of_erase {h : Nat} {c : LruCache Nat} (he : t.cached.erase h = some (c, [])) :
    t.erase h = some ({ t with cached := c }, []) := by
  rw [Leases.erase, he]
  rfl

/-- The entry of the cache under a name is that of the lease in the table. -/
theorem Core.cached_lease (hi : Core t ext) {h : Nat} (ht : t.cached.table name = some h)
    {l : Nat} (hit : t.cached.item h = some (name, l)) :
    ∃ lease, t.mem l = some lease ∧ lease.lruHandle = h ∧ lease.key = name ∧ lease.out = false ∧
      t.table name = some l := by
  obtain ⟨lease, hl⟩ := hi.item hit
  obtain ⟨e, he, rfl, hv⟩ := LruCache.item_eq.mp hit
  obtain ⟨e', he', hkey, hv'⟩ := LruCache.item_eq.mp (hi.handle hl)
  have hh := hi.lru.inj he' he (hv'.trans hv.symm)
  rw [hh, he] at he'
  cases he'
  have hout := hi.cached ht hit hl
  exact ⟨lease, hl, hh, hkey.symm, hout, (hi.listed _ _).mpr ⟨lease, hl, hkey.symm, hout⟩⟩

/-- A check that finds the lease in the cache. If it has expired, it leaves the table and the
cache, and the reference the cache has just given goes last. -/
theorem Inv.check_cached (hi : Inv P t ext) {h : Nat} (ht : t.cached.table name = some h)
    (now : UInt64) :
    ∃ t' o ds, t.check name now = some (t', o, ds) ∧ Checked P t ext name now t' o ds := by
  obtain ⟨l, hit, hlookup⟩ := hi.lru.lookup_some ht
  obtain ⟨lease, hl, rfl, hkey, hout, hlist⟩ := hi.toCore.cached_lease ht hit
  obtain ⟨e, he, -, rfl⟩ := LruCache.item_eq.mp hit
  obtain ⟨c, hc, hcinv, heff, -⟩ := hlookup (more ext e.value)
    (more_self ext e.value) fun w hw => more_of_ne ext hw
  have hcore := hi.toCore.cached_ref hcinv heff
  have hitem : c.item lease.lruHandle = some (lease.key, e.value) := hcore.handle hl
  obtain ⟨e', he', -, hval⟩ := LruCache.item_eq.mp hitem
  by_cases hdue : lease.rep.leaseDue < now
  · have hpos : 0 < Function.update ext e.value (ext e.value + 1) e.value := by
      rw [Function.update_self]
      omega
    obtain ⟨c', herase, hcinv', heff', hgone⟩ := hcore.erase_held hl hpos
    -- the lease leaves the table and the cache, the reference just taken goes last
    have hcore' : Core { ({ t with cached := c } : Leases).expire e.value lease with
        cached := c' } (more ext e.value) :=
      hcore.retire hl { lease with out := true } rfl rfl rfl hcinv' heff' hgone
    have hl' : ({ ({ t with cached := c } : Leases).expire e.value lease with
        cached := c' } : Leases).mem e.value = some { lease with out := true } :=
      setLease_self ..
    obtain ⟨t', ds, hrel, hcore'', htable, -, hmem, hds⟩ := hcore'.release hl'
      (show ext e.value + 1 = more ext e.value e.value by rw [more_self])
      fun q hq => (more_of_ne ext hq).symm
    have hmem' : ∀ q, ({ ({ t with cached := c } : Leases).expire e.value lease with
        cached := c' } : Leases).mem q =
          if q = e.value then some { lease with out := true } else t.mem q := by
      intro q
      show (({ t with cached := c } : Leases).expire e.value lease).mem q = _
      rw [Leases.expire, removeLease_setLease_mem]
      exact Function.update_apply ..
    refine ⟨t', none, ds, ?_, hi.expired hl hlist hdue hcore'' ?_ ?_ ?_ ?_⟩
    · rw [← expire_cached _ e.value lease] at herase
      have herase' := erase_of_erase herase
      simp only [Leases.check, hc, Option.bind_eq_bind, Option.bind_some, he', hval, hl,
        if_pos hdue, herase']
      exact congrArg (fun o : Option (Leases × List Deleted) =>
        o.bind fun a => some (a.1, (none : Option Nat), [] ++ a.2)) hrel
    · intro q hq
      cases hmem q with
      | inl h => exact (h.trans (hmem' q)).trans (if_neg hq)
      | inr h => exact absurd h.1 hq
    · cases hmem e.value with
      | inl h => exact .inl ((h.trans (hmem' e.value)).trans (if_pos rfl))
      | inr h => exact .inr h.2
    · intro k q hq
      exact ((hcore.listed.table_removeLease hl).mp (htable hq)).1
    · intro d hd
      obtain ⟨rfl, -, hzero⟩ := hds d hd
      exact ⟨rfl, hzero⟩
  · refine ⟨_, some e.value, [], ?_, .found hcore rfl rfl hl hlist hdue⟩
    simp only [Leases.check, hc, Option.bind_eq_bind, Option.bind_some, he', hval, hl,
      if_neg hdue]

/-- A check that finds the lease in the table only: it is in use, and its entry is given a
reference if it has not expired. -/
theorem Inv.check_listed (hi : Inv P t ext) (ht : t.cached.table name = none) {l : Nat}
    (hlist : t.table name = some l) (now : UInt64) :
    ∃ t' o ds, t.check name now = some (t', o, ds) ∧ Checked P t ext name now t' o ds := by
  have hnone := LruCache.lookup_none ht
  obtain ⟨lease, hl, hkey, hout⟩ := (hi.listed _ _).mp hlist
  have hitem := hi.handle hl
  have hgone : ∀ k, t.cached.table k ≠ some lease.lruHandle := by
    intro k hk
    obtain ⟨e, he, hek, -⟩ := hi.lru.table.mp hk
    obtain ⟨e', he', hek', -⟩ := LruCache.item_eq.mp hitem
    rw [he] at he'
    cases he'
    rw [← hek, hek', hkey, ht] at hk
    cases hk
  by_cases hdue : lease.rep.leaseDue < now
  · have hcore : Core { (t.removeLease l lease).setLease l { lease with out := true } with
        cached := t.cached } ext :=
      hi.toCore.retire hl { lease with out := true } rfl rfl rfl hi.lru
        (LruCache.Effect.refl _) hgone
    refine ⟨t.expire l lease, none, [], ?_, hi.expired hl hlist hdue ?_ ?_ ?_ ?_ ?_⟩
    · simp only [Leases.check, hnone, Option.bind_eq_bind, Option.bind_some, hlist, hl,
        if_pos hdue]
    · have heq : t.expire l lease = { (t.removeLease l lease).setLease l
          { lease with out := true } with cached := t.cached } := by
        rw [← expire_cached t l lease]
        rfl
      rw [heq]
      exact hcore
    · intro q hq
      rw [Leases.expire, removeLease_setLease_mem, Function.update_of_ne hq]
    · rw [Leases.expire, removeLease_setLease_mem, Function.update_self]
      exact .inl rfl
    · intro k q hq
      exact ((hi.listed.table_removeLease hl).mp hq).1
    · intro d hd
      cases hd
  · obtain ⟨c, hc, hcinv, heff, -⟩ := hi.lru.ref hitem
      (more_self ext l) fun w hw => more_of_ne ext hw
    refine ⟨{ t with cached := c }, some l, [], ?_,
      .found (hi.toCore.cached_ref hcinv heff) rfl rfl hl hlist hdue⟩
    simp only [Leases.check, hnone, Option.bind_eq_bind, Option.bind_some, hlist, hl,
      if_neg hdue, hc]

/-- **The check of `Lokup2`** never faults, and finds what is there. What it finds in the
cache is in the table; what it finds in the table may have left the cache, or be due. -/
theorem Inv.check (hi : Inv P t ext) (name : Slice) (now : UInt64) :
    ∃ t' o ds, t.check name now = some (t', o, ds) ∧ Checked P t ext name now t' o ds := by
  cases ht : t.cached.table name with
  | some h => exact hi.check_cached ht now
  | none =>
    cases hlist : t.table name with
    | none =>
      refine ⟨t, none, [], ?_, .missing hi (.refl t ext) allClean_nil hlist⟩
      simp only [Leases.check, LruCache.lookup_none ht, Option.bind_eq_bind, Option.bind_some,
        hlist]
    | some l => exact hi.check_listed ht hlist now

/-! ## The end of a lookup

A lease that has been found comes with a reference already. If its mode is the one asked for,
its context gets a reference too; otherwise the reference is given back, as if the lease had not
been looked for. -/

/-- A context gets a reference. -/
theorem addRef_counts {n : Nat} (h : lease.Counts n) :
    ∃ lease', lease.addRef lease.mode = some lease' ∧ lease.Same lease' ∧ lease'.Counts (n + 1) ∧
      lease'.lruHandle = lease.lruHandle ∧ lease'.out = lease.out := by
  obtain ⟨lruHandle, rep, batch, bk, key, mode, out⟩ := lease
  cases mode with
  | kRegular => exact ⟨_, rfl, .refl _, h, rfl, rfl⟩
  | kBatchedCreats =>
    obtain ⟨hbk, bc, hbc, hrefs⟩ := h
    cases hbc
    exact ⟨_, rfl, ⟨rfl, rfl, rfl, rfl, rfl⟩, ⟨hbk, _, rfl, congrArg (· + 1) hrefs⟩, rfl, rfl⟩
  | kBulkIn =>
    obtain ⟨hbatch, bc, hbc, hrefs⟩ := h
    cases hbc
    exact ⟨_, rfl, ⟨rfl, rfl, rfl, rfl, rfl⟩, ⟨hbatch, _, rfl, congrArg (· + 1) hrefs⟩, rfl, rfl⟩

/-- A lease of another mode is given back. -/
theorem grant_other (hc : Core t (more ext l)) (hok : ∀ {q lease'}, t.mem q = some lease' →
    Ok P lease' (ext q)) (hl : t.mem l = some lease) {mode : LokupMode}
    (hmode : lease.mode ≠ mode) :
    ∃ t' ds, t.grant l mode = some (t', .err .accessDenied modeMismatch, ds) ∧ Inv P t' ext ∧
      Moved t t' ext none ds ∧ AllClean ds := by
  obtain ⟨t', ds, hrel, hcore, htable, -, hmem, hds⟩ := hc.release hl
    (show ext l + 1 = more ext l l by rw [more_self]) fun q hq => (more_of_ne ext hq).symm
  refine ⟨t', ds, ?_, ⟨hcore, fun {q lease'} hq => ?_⟩, ⟨fun {q lease'} hq hpos => ?_,
    fun h => .inl (htable h), fun d hd => ?_⟩, fun d hd => ?_⟩
  · simp only [Leases.grant, hl, Option.bind_eq_bind, Option.bind_some, if_pos hmode, hrel]
  · cases hmem q with
    | inl h => rw [h] at hq; exact hok hq
    | inr h => rw [h.1, h.2.1] at hq; cases hq
  · cases hmem q with
    | inl h => exact ⟨lease', h.trans hq, .refl _⟩
    | inr h => rw [h.1, h.2.2] at hpos; exact absurd hpos (Nat.lt_irrefl 0)
  · obtain ⟨rfl, -, hzero⟩ := hds d hd
    exact hzero
  · obtain ⟨rfl, -, hzero⟩ := hds d hd
    have h := hok hl
    rw [hzero] at h
    exact h.clean

/-- The context of a lease of the right mode gets a reference. -/
theorem grant_same (hc : Core t (more ext l)) (hok : ∀ {q lease'}, q ≠ l → t.mem q = some lease' →
    Ok P lease' (ext q)) (hl : t.mem l = some lease) (hrep : P lease.key lease.mode lease.rep)
    (hdue : lease.out = false → lease.rep.leaseDue ≠ 0)
    (hout : lease.out = true → lease.rep.leaseDue ≠ -1) (hcount : lease.Counts (ext l)) :
    ∃ t' lease', t.grant l lease.mode = some (t', .ok, []) ∧ Inv P t' (more ext l) ∧
      Moved t t' (more ext l) none [] ∧ t'.mem l = some lease' ∧ lease.Same lease' ∧
      t'.table = t.table := by
  obtain ⟨lease', hadd, hsame, hcount', hhandle, hout'⟩ := addRef_counts hcount
  refine ⟨t.setLease l lease', lease', ?_, ⟨hc.setLease hl hsame.key hhandle hout',
    fun {q lease₁} hq => ?_⟩, ⟨fun {q lease₁} hq _ => ?_, .inl, fun d hd => by cases hd⟩,
    setLease_self .., hsame, rfl⟩
  · simp only [Leases.grant, hl, Option.bind_eq_bind, Option.bind_some, ne_eq, not_true_eq_false,
      if_false, hadd]
  · by_cases hql : q = l
    · subst hql
      rw [setLease_self] at hq
      cases hq
      rw [more_self]
      refine ⟨?_, fun h => ?_, fun h => ?_, hcount', fun _ => Nat.succ_pos _⟩
      · rw [hsame.key, hsame.mode, hsame.rep]
        exact hrep
      · rw [hsame.rep]
        exact hdue (hout'.symm.trans h)
      · rw [hsame.rep]
        exact hout (hout'.symm.trans h)
    · rw [setLease_of_ne hql] at hq
      rw [more_of_ne ext hql]
      exact hok hql hq
  · by_cases hql : q = l
    · subst hql
      obtain rfl := Option.some.inj (hl.symm.trans hq)
      exact ⟨lease', setLease_self .., hsame⟩
    · exact ⟨lease₁, (setLease_of_ne hql lease').trans hq, .refl _⟩

/-! ## A new lease

The cache may evict another lease for it, which is then deleted if nobody holds it. The new
one comes with a reference for the caller. -/

/-- A number the allocator has not returned yet belongs to no lease. -/
theorem Core.mem_next (hi : Core t ext) : t.mem t.next = none := by
  cases hl : t.mem t.next with
  | none => rfl
  | some lease => exact absurd (hi.fresh hl) (Nat.lt_irrefl _)

theorem Core.ext_next (hi : Core t ext) : ext t.next = 0 := by
  by_contra hne
  obtain ⟨lease, hl⟩ := hi.live (Nat.pos_of_ne_zero hne)
  rw [hi.mem_next] at hl
  cases hl

/-- What `Lokup2` leaves after it has installed the lease `lease` at `l`. -/
structure Installed (t t' : Leases) (ext : Nat → Nat) (l : Nat) (lease : Lease)
    (ds : List Deleted) : Prop where
  core : Core t' (more ext l)
  self : t'.mem l = some lease
  new : t.mem l = none
  free : ext l = 0
  old : ∀ {q lease'}, q ≠ l → t'.mem q = some lease' → t.mem q = some lease'
  held : ∀ {q}, q ≠ l → 0 < ext q → t'.mem q = t.mem q
  table : ∀ {k q}, t'.table k = some q → t.table k = some q ∨ k = lease.key
  deleted : ∀ d ∈ ds, t.mem d.1 = some d.2 ∧ d.1 ≠ l ∧ ext d.1 = 0

/-- The table with a lease of a name it did not have. -/
theorem Core.listed_new (hi : Core t ext) (hname : t.table lease.key = none)
    (hout : lease.out = false) (c : LruCache Nat) (n : Nat) :
    Listed ⟨c, Function.update t.table lease.key (some t.next),
      Function.update t.mem t.next (some lease), n⟩ := by
  intro k q
  show Function.update t.table lease.key (some t.next) k = some q ↔ ∃ lease',
    Function.update t.mem t.next (some lease) q = some lease' ∧ lease'.key = k ∧ lease'.out = false
  by_cases hk : k = lease.key
  · rw [hk, Function.update_self]
    by_cases hq : q = t.next
    · rw [hq, Function.update_self]
      exact iff_of_true rfl ⟨lease, rfl, rfl, hout⟩
    · rw [Function.update_of_ne hq]
      refine iff_of_false (fun h => hq (Option.some.inj h).symm) fun h => ?_
      rw [(hi.listed lease.key q).mpr h] at hname
      cases hname
  · rw [Function.update_of_ne hk, hi.listed k q]
    by_cases hq : q = t.next
    · rw [hq, Function.update_self, hi.mem_next]
      refine iff_of_false (fun h => ?_) fun h => ?_
      · obtain ⟨lease', h, -⟩ := h
        cases h
      · obtain ⟨lease', h, hkey, -⟩ := h
        cases h
        exact hk hkey.symm
    · rw [Function.update_of_ne hq]

/-- The next pointer is no lease of the cache. -/
theorem Core.value_ne_next (hi : Core t ext) {h : Nat} {k : Slice} {q : Nat}
    (hit : t.cached.item h = some (k, q)) : q ≠ t.next := by
  intro hq
  obtain ⟨lease', hl⟩ := hi.item hit
  exact absurd (hi.fresh hl) (hq ▸ Nat.lt_irrefl _)

/-- The cache takes a new lease, and evicts leases that nobody references for it. -/
theorem Core.cache_insert (hi : Core t ext) (hname : t.table name = none) :
    ∃ c vs, t.cached.insert name t.next 1 = some (c, t.cached.next, vs) ∧ c.Inv (more ext t.next) ∧
      LruCache.Inserted t.cached c name t.next vs ∧ t.next ∉ vs ∧
      (∀ {h k q}, c.item h = some (k, q) → q ∉ vs) ∧ ∀ {q}, q ∈ vs → ext q = 0 := by
  have hcached : t.cached.table name = none := by
    cases ht : t.cached.table name with
    | none => rfl
    | some h =>
      obtain ⟨l, hit, -⟩ := hi.lru.lookup_some ht
      obtain ⟨-, -, -, -, -, hlist⟩ := hi.cached_lease ht hit
      rw [hname] at hlist
      cases hlist
  obtain ⟨c, vs, hins, hc, hI⟩ := hi.lru.insert 1
    (fun h e he hv => hi.value_ne_next (LruCache.item_eq.mpr ⟨e, he, rfl, rfl⟩) hv) hcached
    (show more ext t.next t.next = 1 by rw [more_self, hi.ext_next])
    fun w hw => more_of_ne ext hw
  have hself : t.next ∉ vs := by
    intro hin
    obtain ⟨h, k, hit, -⟩ := hI.gone hin
    exact hi.value_ne_next hit rfl
  refine ⟨c, vs, hins, hc, hI, hself,
    fun hit => hI.live hi.lru (fun h k hit => hi.value_ne_next hit rfl) hit, fun {q} hin => ?_⟩
  have hq : q ≠ t.next := fun h => hself (h ▸ hin)
  have hzero := hI.unreferenced hi.lru hc (fun h k hit => hi.value_ne_next hit rfl) hin
  rwa [more_of_ne ext hq] at hzero

/-- A new lease enters the table and the cache. -/
theorem Core.inserted (hi : Core t ext) (lease : Lease) (hname : t.table name = none)
    (hkey : lease.key = name)
    (hout : lease.out = false) (hhandle : lease.lruHandle = t.cached.next) :
    ∃ c vs t' ds, t.cached.insert name t.next 1 = some (c, t.cached.next, vs) ∧
      Leases.deleteLeases ⟨c, Function.update t.table name (some t.next),
        Function.update t.mem t.next (some lease), t.next + 1⟩ vs = (t', ds) ∧
      Installed t t' ext t.next lease ds := by
  -- first the cache alone: what it drops are leases nobody references
  obtain ⟨c, vs, hins, hc, hI, hself, hlive, hunref⟩ := hi.cache_insert hname
  subst hkey
  -- then the leases dropped are deleted from the table
  obtain ⟨t', ds, hdel, hd⟩ := (hi.listed_new hname hout c (t.next + 1)).deleteLeases vs
  have hmem : ∀ q, t'.mem q = if q ∈ vs then none else
      Function.update t.mem t.next (some lease) q := hd.mem
  have hold : ∀ {q lease'}, q ≠ t.next → t'.mem q = some lease' →
      q ∉ vs ∧ t.mem q = some lease' := by
    intro q lease' hq h
    rw [hmem, Function.update_of_ne hq] at h
    split at h
    · cases h
    · rename_i hin
      exact ⟨hin, h⟩
  refine ⟨c, vs, t', ds, hins, hdel, ⟨⟨?_, hd.listed, ?_, ?_, ?_, ?_⟩, ?_, hi.mem_next,
    hi.ext_next, fun hq h => (hold hq h).2, ?_, ?_, ?_⟩⟩
  · rw [hd.cached]
    exact hc
  · intro q lease' h
    rw [hd.cached]
    by_cases hq : q = t.next
    · subst hq
      rw [hmem, if_neg hself, Function.update_self] at h
      cases h
      rw [hhandle]
      exact hI.new
    · obtain ⟨hin, h⟩ := hold hq h
      cases hI.rest (hi.handle h) with
      | inl h => exact h
      | inr h => exact absurd h.1 hin
  · intro h k q hit
    rw [hd.cached] at hit
    rw [hmem, if_neg (hlive hit)]
    by_cases hq : q = t.next
    · exact ⟨lease, by rw [hq, Function.update_self]⟩
    · rw [Function.update_of_ne hq]
      have hne : h ≠ t.cached.next := by
        rintro rfl
        rw [hI.new] at hit
        cases hit
        exact hq rfl
      exact hi.item (hI.kept hne hit)
  · intro k h q lease' hk hit hl
    rw [hd.cached] at hk hit
    by_cases hq : q = t.next
    · subst hq
      rw [hmem, if_neg hself, Function.update_self] at hl
      cases hl
      exact hout
    · obtain ⟨-, hl⟩ := hold hq hl
      have hne : h ≠ t.cached.next := by
        rintro rfl
        rw [hI.new] at hit
        cases hit
        exact hq rfl
      cases hI.table hk with
      | inl hk => exact hi.cached hk (hI.kept hne hit) hl
      | inr hk => exact absurd hk.2 hne
  · intro q lease' hl
    rw [hd.next]
    by_cases hq : q = t.next
    · rw [hq]
      exact Nat.lt_succ_self _
    · exact Nat.lt_succ_of_lt (hi.fresh (hold hq hl).2)
  · rw [hmem, if_neg hself, Function.update_self]
  · intro q hq hpos
    rw [hmem, if_neg, Function.update_of_ne hq]
    intro hin
    rw [hunref hin] at hpos
    exact absurd hpos (Nat.lt_irrefl 0)
  · intro k q hk
    by_cases hkey : k = lease.key
    · exact .inr hkey
    · refine .inl ?_
      have h : Function.update t.table lease.key (some t.next) k = some q := hd.table hk
      rwa [Function.update_of_ne hkey] at h
  · intro d hin
    obtain ⟨hvs, hm⟩ := hd.deleted d hin
    have hq : d.1 ≠ t.next := fun h => hself (h ▸ hvs)
    have hm : Function.update t.mem t.next (some lease) d.1 = some d.2 := hm
    rw [Function.update_of_ne hq] at hm
    exact ⟨hm, hq, hunref hvs⟩

/-- **The installation of a lease** never finds an older one. A lease that
cannot be cached is out from the start. -/
theorem Core.install (hi : Core t ext) (hname : t.table name = none) (mode : LokupMode)
    (batch bk : Option BatchContext) (rep : LookupStat) :
    ∃ t' l ds lease, t.install name mode batch bk rep = some (t', l, none, ds) ∧
      Installed t t' ext l lease ds ∧ lease.key = name ∧ lease.mode = mode ∧ lease.rep = rep ∧
      lease.batch = batch ∧ lease.bk = bk ∧ (lease.out = true ↔ rep.leaseDue = 0) := by
  obtain ⟨c, vs, t', ds, hins, hdel, hI⟩ :=
    hi.inserted ⟨t.cached.next, rep, batch, bk, name, mode, false⟩ hname rfl rfl rfl
  by_cases hdue : rep.leaseDue = 0
  · obtain ⟨c', herase, hc', heff', hgone⟩ := hI.core.erase_held hI.self
      (by rw [more_self]; exact Nat.succ_pos _)
    have hcore := hI.core.retire hI.self
      ⟨t.cached.next, rep, batch, bk, name, mode, true⟩ rfl rfl rfl hc' heff' hgone
    rw [← expire_cached _ t.next ⟨t.cached.next, rep, batch, bk, name, mode, false⟩] at herase
    refine ⟨_, t.next, ds, _, ?_, ⟨hcore, setLease_self .., hI.new, hI.free, ?_, ?_, ?_,
      hI.deleted⟩, rfl, rfl, rfl, rfl, rfl, iff_of_true rfl hdue⟩
    · simp only [Leases.install, hins, Option.bind_eq_bind, Option.bind_some, hdel, if_pos hdue,
        erase_of_erase herase, hname, List.append_nil]
      rfl
    · intro q lease' hq hm
      have hm : ((t'.removeLease t.next _).setLease t.next _).mem q = some lease' := hm
      rw [setLease_of_ne hq, removeLease_mem] at hm
      exact hI.old hq hm
    · intro q hq hpos
      show ((t'.removeLease t.next _).setLease t.next _).mem q = t.mem q
      rw [setLease_of_ne hq, removeLease_mem]
      exact hI.held hq hpos
    · intro k q hk
      exact hI.table ((hI.core.listed.table_removeLease hI.self).mp hk).1
  · refine ⟨t', t.next, ds, _, ?_, hI, rfl, rfl, rfl, rfl, rfl, iff_of_false (by simp) hdue⟩
    simp only [Leases.install, hins, Option.bind_eq_bind, Option.bind_some, hdel, if_neg hdue,
      hname]

/-- **A new lease is granted** to the caller it was looked up for. No lease of the name was
there, since the one who asks the server has the way of the name to itself. -/
theorem Inv.installed (hi : Inv P t ext) (hname : t.table name = none) {mode : LokupMode}
    {batch bk : Option BatchContext} {rep : LookupStat} (hrep : P name mode rep)
    (hcount : Lease.Counts ⟨0, rep, batch, bk, name, mode, false⟩ 0) :
    ∃ t₁ l ds t' lease, t.install name mode batch bk rep = some (t₁, l, none, ds) ∧
      t₁.grant l mode = some (t', .ok, []) ∧ Inv P t' (more ext l) ∧
      Moved t t' (more ext l) (some name) ds ∧ AllClean ds ∧ ext l = 0 ∧ t'.mem l = some lease ∧
      Lease.Same ⟨0, rep, batch, bk, name, mode, false⟩ lease := by
  obtain ⟨t₁, l, ds, lease, hins, hI, hkey, hmode, hr, hb, hk, hout⟩ :=
    hi.toCore.install hname mode batch bk rep
  have hcount' : lease.Counts (ext l) := by
    rw [hI.free]
    obtain ⟨lruHandle, rep', batch', bk', key', mode', out'⟩ := lease
    obtain ⟨rfl, rfl, rfl, rfl, rfl⟩ : key' = name ∧ mode' = mode ∧ rep' = rep ∧
      batch' = batch ∧ bk' = bk := ⟨hkey, hmode, hr, hb, hk⟩
    exact hcount
  obtain ⟨t', lease', hgrant, hinv, hmoved, hl', hsame, htable⟩ :=
    grant_same hI.core (fun hq h => hi.ok (hI.old hq h)) hI.self
      (by rw [hkey, hmode, hr]; exact hrep)
      (by
        intro ho hz
        rw [hr] at hz
        rw [hout.mpr hz] at ho
        cases ho)
      (by
        intro ho hz
        rw [hr, hout.mp ho] at hz
        cases hz)
      hcount'
  rw [hmode] at hgrant
  refine ⟨t₁, l, ds, t', lease', hins, hgrant, hinv, ⟨fun {q lease₁} hq hpos => ?_, fun h => ?_,
    fun d hd => ?_⟩, fun d hd => ?_, hI.free, hl', ?_⟩
  · have hne : q ≠ l := by
      rintro rfl
      rw [hI.new] at hq
      cases hq
    refine hmoved.stays ?_ hpos
    rw [more_of_ne ext hne] at hpos
    rw [hI.held hne hpos]
    exact hq
  · rw [htable] at h
    cases hI.table h with
    | inl h => exact .inl h
    | inr h => exact .inr (by rw [h, hkey])
  · obtain ⟨-, hne, hzero⟩ := hI.deleted d hd
    rw [more_of_ne ext hne]
    exact hzero
  · obtain ⟨hm, -, hzero⟩ := hI.deleted d hd
    have h := hi.ok hm
    rw [hzero] at h
    exact h.clean
  · refine ⟨hsame.key.trans hkey, hsame.mode.trans hmode, hsame.rep.trans hr, ?_, ?_⟩
    · rw [hsame.batch, hb]
    · rw [hsame.bk, hk]

/-! ## Giving references back

The last reference to a lease that is out deletes it. A handle of a context gives the
context back first, and the last one takes the lease out. -/

/-- A lease that is out is there for those that reference it. -/
theorem Core.held_of_out (hi : Core t ext) (hl : t.mem l = some lease) (hout : lease.out = true) :
    0 < ext l := by
  obtain ⟨e, he, -, hv⟩ := LruCache.item_eq.mp (hi.handle hl)
  have hrefs := hi.lru.refs he
  have hpos := hi.lru.pos he
  cases hc : e.inCache with
  | false =>
    rw [hc, hv] at hrefs
    simp only [Bool.toNat_false, Nat.add_zero] at hrefs
    omega
  | true =>
    -- an entry in the cache stands for a lease that is not out
    have hk := hi.lru.table.mpr ⟨e, he, rfl, hc⟩
    have hfalse := hi.cached hk (LruCache.item_eq.mpr ⟨e, he, rfl, hv⟩) hl
    rw [hout] at hfalse
    cases hfalse

/-- **A reference to a lease is given back**, to one that is well after it or
that nobody finds any more. -/
theorem Core.given_back (hc : Core t ext) (hl : t.mem l = some lease) (hv : ext' l + 1 = ext l)
    (hext : ∀ q, q ≠ l → ext' q = ext q)
    (hok : ∀ {q lease'}, q ≠ l → t.mem q = some lease' → Ok P lease' (ext q))
    (hself : Ok P lease (ext' l) ∨ lease.out = true ∧ ext' l = 0) :
    ∃ t' ds, t.release lease.lruHandle = some (t', ds) ∧ Inv P t' ext' ∧ Moved t t' ext' none ds ∧
      ∀ d ∈ ds, d = (l, lease) ∧ ext' l = 0 := by
  obtain ⟨t', ds, hrel, hcore, htable, -, hmem, hds⟩ := hc.release hl hv hext
  refine ⟨t', ds, hrel, ⟨hcore, fun {q lease'} hq => ?_⟩, ⟨fun {q lease'} hq hpos => ?_,
    fun h => .inl (htable h), fun d hd => ?_⟩, fun d hd => ?_⟩
  · by_cases hql : q = l
    · subst hql
      cases hmem q with
      | inl h =>
        rw [h] at hq
        obtain rfl := Option.some.inj (hl.symm.trans hq)
        cases hself with
        | inl h' => exact h'
        | inr h' =>
          have hpos := hcore.held_of_out (h.trans hq) h'.1
          rw [h'.2] at hpos
          exact absurd hpos (Nat.lt_irrefl 0)
      | inr h => rw [h.2.1] at hq; cases hq
    · rw [hext q hql]
      cases hmem q with
      | inl h => exact hok hql (h.symm.trans hq)
      | inr h => exact absurd h.1 hql
  · cases hmem q with
    | inl h => exact ⟨lease', h.trans hq, .refl _⟩
    | inr h => rw [h.1, h.2.2] at hpos; exact absurd hpos (Nat.lt_irrefl 0)
  · obtain ⟨rfl, -, hzero⟩ := hds d hd
    exact hzero
  · exact ⟨(hds d hd).1, (hds d hd).2.2⟩

/-- **`Release(Lease*)`**, of a lease without a context. If this was the last reference
to a lease that is out, the lease is deleted, and it has no context then. -/
theorem Inv.releaseLease (hi : Inv P t ext) (hl : t.mem l = some lease)
    (hmode : lease.mode = .kRegular) (hv : ext' l + 1 = ext l)
    (hext : ∀ q, q ≠ l → ext' q = ext q) :
    ∃ t' ds, t.releaseLease l = some (t', ds) ∧ Inv P t' ext' ∧ Moved t t' ext' none ds ∧
      AllClean ds := by
  have ho := hi.ok hl
  have hclean : lease.Clean := by
    have h := ho.counts
    rw [Lease.Counts, hmode] at h
    exact h
  have hok : Ok P lease (ext' l) := by
    refine ⟨ho.rep, ho.due, ho.out, ?_, fun h => absurd hmode h⟩
    rw [Lease.Counts, hmode]
    exact hclean
  obtain ⟨t', ds, hrel, hinv, hmoved, hds⟩ :=
    hi.toCore.given_back hl hv hext (fun _ h => hi.ok h) (.inl hok)
  refine ⟨t', ds, ?_, hinv, hmoved, fun d hd => ?_⟩
  · simp only [Leases.releaseLease, hl, Option.bind_eq_bind, Option.bind_some, hrel]
  · obtain ⟨rfl, -⟩ := hds d hd
    exact hclean

/-- A lease that loses its context leaves the client, with the last handle. -/
theorem Core.dissociated (hi : Core t ext) (hl : t.mem l = some lease) (lease' : Lease)
    (hok : ∀ {q lease₁}, q ≠ l → t.mem q = some lease₁ → Ok P lease₁ (ext q))
    (hkey : lease'.key = lease.key) (hh : lease'.lruHandle = lease.lruHandle)
    (hout : lease'.out = true) (hclean : lease'.Clean) (hone : ext l = 1) (hzero : ext' l = 0)
    (hext : ∀ q, q ≠ l → ext' q = ext q) :
    ∃ t₁ t' ds, t.dissociate l lease lease' = some (t₁, []) ∧
      t₁.release lease.lruHandle = some (t', ds) ∧ Inv P t' ext' ∧ Moved t t' ext' none ds ∧
      AllClean ds := by
  obtain ⟨c, herase, hc, heff, hgone⟩ := hi.erase_held hl (by omega)
  have hcore := hi.retire hl lease' hkey hh hout hc heff hgone
  have hl' : ({ (t.removeLease l lease).setLease l lease' with cached := c } : Leases).mem l =
      some lease' := setLease_self ..
  have hother : ∀ {q}, q ≠ l →
      ({ (t.removeLease l lease).setLease l lease' with cached := c } : Leases).mem q = t.mem q := by
    intro q hq
    show ((t.removeLease l lease).setLease l lease').mem q = t.mem q
    rw [setLease_of_ne hq, removeLease_mem]
  obtain ⟨t', ds, hrel, hinv, hmoved, hds⟩ := hcore.given_back hl' (show ext' l + 1 = ext l by omega)
    hext (fun hq h => hok hq ((hother hq).symm.trans h)) (.inr ⟨hout, hzero⟩)
  rw [hh] at hrel
  refine ⟨_, t', ds, ?_, hrel, hinv, ⟨fun {q lease₁} hq hpos => ?_, fun {k q} h => ?_, hmoved.gone⟩,
    fun d hd => ?_⟩
  · have heq : ({ t with cached := c } : Leases).removeLease l lease =
        { t.removeLease l lease with cached := c } := by
      rw [removeLease, removeLease]
      split <;> rfl
    simp only [Leases.dissociate, erase_of_erase herase, Option.bind_eq_bind, Option.bind_some, heq]
    rfl
  · have hne : q ≠ l := by
      rintro rfl
      rw [hzero] at hpos
      exact absurd hpos (Nat.lt_irrefl 0)
    exact hmoved.stays ((hother hne).trans hq) hpos
  · cases hmoved.table h with
    | inl h => exact .inl ((hi.listed.table_removeLease hl).mp h).1
    | inr h => cases h
  · obtain ⟨rfl, -⟩ := hds d hd
    exact hclean

/-- A context that has handles left stays. -/
theorem Inv.kept (hi : Inv P t ext) (hl : t.mem l = some lease) {lease' : Lease}
    (hsame : lease.Same lease') (hh : lease'.lruHandle = lease.lruHandle)
    (hout : lease'.out = lease.out) (hcount : lease'.Counts (ext' l)) (hpos : 0 < ext' l)
    (hv : ext' l + 1 = ext l) (hext : ∀ q, q ≠ l → ext' q = ext q) :
    ∃ t' ds, (t.setLease l lease').release lease.lruHandle = some (t', ds) ∧ Inv P t' ext' ∧
      Moved t t' ext' none ds ∧ AllClean ds := by
  have ho := hi.ok hl
  have hok : Ok P lease' (ext' l) := by
    refine ⟨?_, fun h => ?_, fun h => ?_, hcount, fun _ => hpos⟩
    · rw [hsame.key, hsame.mode, hsame.rep]
      exact ho.rep
    · rw [hsame.rep]
      exact ho.due (hout.symm.trans h)
    · rw [hsame.rep]
      exact ho.out (hout.symm.trans h)
  obtain ⟨t', ds, hrel, hinv, hmoved, hds⟩ := (hi.toCore.setLease hl hsame.key hh hout).given_back
    (setLease_self ..) hv hext (fun hq h => hi.ok ((setLease_of_ne hq lease').symm.trans h))
    (.inl hok)
  rw [hh] at hrel
  refine ⟨t', ds, hrel, hinv, ⟨fun {q lease₁} hq hp => ?_, hmoved.table, hmoved.gone⟩,
    fun d hd => ?_⟩
  · by_cases hql : q = l
    · subst hql
      obtain rfl := Option.some.inj (hl.symm.trans hq)
      obtain ⟨lease₂, h₂, hsame₂⟩ := hmoved.stays (setLease_self ..) hp
      exact ⟨lease₂, h₂, hsame.trans hsame₂⟩
    · exact hmoved.stays ((setLease_of_ne hql lease').trans hq) hp
  · obtain ⟨-, hzero⟩ := hds d hd
    omega

/-- **`Destroy(BAT*)`**: the last handle dissociates the lease from its
context. -/
theorem Inv.destroyBat (hi : Inv P t ext) (hl : t.mem l = some lease)
    (hmode : lease.mode = .kBatchedCreats) (hv : ext' l + 1 = ext l)
    (hext : ∀ q, q ≠ l → ext' q = ext q) :
    ∃ t' last ds, t.destroyBat l = some (t', last, ds) ∧ Inv P t' ext' ∧ Moved t t' ext' none ds ∧
      AllClean ds := by
  have hcount := (hi.ok hl).counts
  rw [Lease.Counts, hmode] at hcount
  obtain ⟨hbk, bc, hbc, hrefs⟩ := hcount
  by_cases hr : bc.refs - 1 = 0
  · obtain ⟨t₁, t', ds, hdis, hrel, hinv, hmoved, hclean⟩ := hi.toCore.dissociated hl
      { lease with out := true, batch := none } (fun _ h => hi.ok h) rfl rfl rfl ⟨rfl, hbk⟩
      (by omega) (by omega) hext
    refine ⟨t', some bc, [] ++ ds, ?_, hinv, hmoved, hclean⟩
    simp only [Leases.destroyBat, hl, hbc, Option.bind_eq_bind, Option.bind_some, if_pos hr, hdis,
      hrel]
  · have hsame : lease.Same { lease with batch := some { bc with refs := bc.refs - 1 } } :=
      ⟨rfl, rfl, rfl, by rw [hbc]; rfl, rfl⟩
    obtain ⟨t', ds, hrel, hinv, hmoved, hclean⟩ := hi.kept hl hsame rfl rfl
      (by
        rw [Lease.Counts, hmode]
        exact ⟨hbk, _, rfl, show bc.refs - 1 = ext' l by omega⟩)
      (by omega) hv hext
    refine ⟨t', none, ds, ?_, hinv, hmoved, hclean⟩
    simp only [Leases.destroyBat, hl, hbc, Option.bind_eq_bind, Option.bind_some, if_neg hr, hrel]

/-- **`Destroy(BULK*)`**: the last handle dissociates the lease from its context
unless the lease is out, and is then deleted with it. -/
theorem Inv.destroyBulk (hi : Inv P t ext) (hl : t.mem l = some lease)
    (hmode : lease.mode = .kBulkIn) (hv : ext' l + 1 = ext l)
    (hext : ∀ q, q ≠ l → ext' q = ext q) :
    ∃ t' last ds, t.destroyBulk l = some (t', last, ds) ∧ Inv P t' ext' ∧ Moved t t' ext' none ds ∧
      (lease.out = false ∨ 0 < ext' l → AllClean ds) := by
  have hcount := (hi.ok hl).counts
  rw [Lease.Counts, hmode] at hcount
  obtain ⟨hbatch, bk, hbk, hrefs⟩ := hcount
  have hsame : lease.Same { lease with bk := some { bk with refs := bk.refs - 1 } } :=
    ⟨rfl, rfl, rfl, rfl, by rw [hbk]; rfl⟩
  by_cases hr : bk.refs - 1 = 0
  · have hset := hi.toCore.setLease hl hsame.key rfl rfl
    have hother : ∀ {q lease₁}, q ≠ l → (t.setLease l { lease with
        bk := some { bk with refs := bk.refs - 1 } }).mem q = some lease₁ → Ok P lease₁ (ext q) :=
      fun hq h => hi.ok ((setLease_of_ne hq _).symm.trans h)
    have hmove : ∀ {t' ds}, Moved (t.setLease l { lease with
        bk := some { bk with refs := bk.refs - 1 } }) t' ext' none ds → Moved t t' ext' none ds := by
      refine fun h => ⟨fun {q lease₁} hq hpos => h.stays ?_ hpos, h.table, h.gone⟩
      refine (setLease_of_ne ?_ _).trans hq
      rintro rfl
      omega
    cases hout : lease.out with
    | false =>
      obtain ⟨t₁, t', ds, hdis, hrel, hinv, hmoved, hclean⟩ := hset.dissociated (setLease_self ..)
        { lease with bk := none, out := true } hother rfl rfl rfl ⟨hbatch, rfl⟩ (by omega)
        (by omega) hext
      refine ⟨t', some bk, [] ++ ds, ?_, hinv, hmove hmoved, fun _ => hclean⟩
      simp only [Leases.destroyBulk, hl, hbk, Option.bind_eq_bind, Option.bind_some, if_pos hr,
        if_pos (And.intro hr hout), hdis, hrel]
    | true =>
      -- the lease is deleted with its context
      obtain ⟨t', ds, hrel, hinv, hmoved, hds⟩ := hset.given_back (setLease_self ..) hv hext hother
        (.inr ⟨hout, by omega⟩)
      refine ⟨t', some bk, ds, ?_, hinv, hmove hmoved, fun h => ?_⟩
      · have hne : ¬(bk.refs - 1 = 0 ∧ lease.out = false) := by
          rw [hout]
          exact fun h => Bool.noConfusion h.2
        simp only [Leases.destroyBulk, hl, hbk, Option.bind_eq_bind, Option.bind_some, if_pos hr,
          if_neg hne, hrel]
      · cases h with
        | inl h => cases h
        | inr h => omega
  · obtain ⟨t', ds, hrel, hinv, hmoved, hclean⟩ := hi.kept hl hsame rfl rfl
      (by
        rw [Lease.Counts, hmode]
        exact ⟨hbatch, _, rfl, show bk.refs - 1 = ext' l by omega⟩)
      (by omega) hv hext
    refine ⟨t', none, ds, ?_, hinv, hmoved, fun _ => hclean⟩
    have hne : ¬(bk.refs - 1 = 0 ∧ lease.out = false) := fun h => hr h.1
    simp only [Leases.destroyBulk, hl, hbk, Option.bind_eq_bind, Option.bind_some, if_neg hr,
      if_neg hne, hrel]

end Leases

end FilesystemCli

end DeltaFs
