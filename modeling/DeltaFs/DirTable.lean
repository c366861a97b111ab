import DeltaFs.DirIndex
import DeltaFs.LruCache
import DeltaFs.Registry

/-!
# Directory control blocks

`fs.cc`: a server keeps a control block for each directory some operation works
in. The most recent ones stay in an LRU cache, `dlru_`; a hash table, `dirs_`,
indexes all blocks in memory, those evicted from the cache but still in use
included. `AcquireDir` looks in the cache, then in the table, and only then
makes a new block; `DeleteDir` runs when the last reference to a block is
dropped.

The invariant `DirTable.Inv t ext` says that the table indexes exactly the
blocks there are and that each of them stands behind one entry of the cache,
where `ext` counts the references operations hold. `AcquireDir` and `Release`
have one lemma each.

The cache and the table are two views of one heap. A block that is in use may have left
the cache, and a new block may push out one that is not; what the two never disagree about
is which block a directory has.
-/

namespace DeltaFs

/-- `Filesystem::Dir`, a directory control block. The index is there once it
has been fetched. -/
structure Dir where
  id : DirId
  lruHandle : Nat
  giga : Option DirIndex
  /-- true if a name subset is busy -/
  busy : Nat → Bool

/-- The control blocks of a server. -/
structure DirTable where
  dlru : LruCache Nat
  dirs : Slice → Option Nat
  /-- the blocks, by pointer -/
  mem : Nat → Option Dir
  /-- the next pointer the allocator returns -/
  next : Nat

namespace DirTable

/-- `DeleteDir`. -/
def deleteDir (t : DirTable) (p : Nat) : DirTable :=
  match t.mem p with
  | none => t
  | some d =>
    { t with
      dirs := Function.update t.dirs d.id.key none
      mem := Function.update t.mem p none }

/-- The deleter, on all the values a cache operation dropped. -/
def deleteDirs (t : DirTable) : List Nat → DirTable
  | [] => t
  | p :: ps => (t.deleteDir p).deleteDirs ps

/-- `Release`. -/
def release (t : DirTable) (p : Nat) : Option DirTable :=
  match t.mem p with
  | none => none
  | some d => (t.dlru.release d.lruHandle).map fun r => { t with dlru := r.1 }.deleteDirs r.2

/-- The table with a new block of `id`, and what the cache has become. -/
def inject (t : DirTable) (id : DirId) (dlru : LruCache Nat) (h : Nat) : DirTable where
  dlru := dlru
  dirs := Function.update t.dirs id.key (some t.next)
  mem := Function.update t.mem t.next (some ⟨id, h, none, fun _ => false⟩)
  next := t.next + 1

/-- The last part of `AcquireDir`: a new block, in the table and in the
cache. -/
def createDir (t : DirTable) (id : DirId) : Option (DirTable × Nat) :=
  (t.dlru.insert id.key t.next 1).map fun (dlru, h, deleted) =>
    ((t.inject id dlru h).deleteDirs deleted, t.next)

/-- `AcquireDir`. -/
def acquireDir (t : DirTable) (id : DirId) : Option (DirTable × Nat) :=
  match t.dlru.lookup id.key with
  | none => none
  | some (dlru, some h) => (dlru.mem h).map fun e => ({ t with dlru := dlru }, e.value)
  | some (_, none) =>
    match t.dirs id.key with
    | none => t.createDir id
    | some p =>
      match t.mem p with
      | none => none
      | some d => (t.dlru.ref d.lruHandle).map fun dlru => ({ t with dlru := dlru }, p)

/-- Write the block at `p`. -/
def setDir (t : DirTable) (p : Nat) (d : Dir) : DirTable :=
  { t with mem := Function.update t.mem p (some d) }

/-! ## The table indexes the blocks

A block is in the table from when it is made until it is deleted, and nothing else is there.
That is all that is asked of the table; the hash table itself is a module of its own, where it
is shown to be a finite map. -/

/-- The table holds exactly the blocks there are, each under its own key. -/
def Indexed (t : DirTable) : Prop := Registry.Indexed (fun d : Dir => d.id.key) t.dirs t.mem

variable {t t' : DirTable} {ext ext' : Nat → Nat} {p : Nat} {id : DirId}

theorem deleteDir_dlru (t : DirTable) (p : Nat) : (t.deleteDir p).dlru = t.dlru := by
  rw [deleteDir]
  split <;> rfl

theorem deleteDir_next (t : DirTable) (p : Nat) : (t.deleteDir p).next = t.next := by
  rw [deleteDir]
  split <;> rfl

theorem deleteDir_mem (t : DirTable) (p q : Nat) :
    (t.deleteDir p).mem q = if q = p then none else t.mem q := by
  rw [deleteDir]
  split
  · rename_i hp
    split
    · rename_i hq
      rw [hq, hp]
    · rfl
  · simp only [Function.update_apply]

theorem Indexed.deleteDir (hi : t.Indexed) (p : Nat) : (t.deleteDir p).Indexed := by
  rw [DirTable.deleteDir]
  split
  · exact hi
  · rename_i d hd
    exact hi.remove hd

/-- **What deleting blocks does.** The table and the memory lose them and keep the
others, whatever the order. -/
theorem Indexed.deleteDirs (hi : t.Indexed) (ps : List Nat) :
    (t.deleteDirs ps).Indexed ∧ (t.deleteDirs ps).dlru = t.dlru ∧
      (t.deleteDirs ps).next = t.next ∧
      ∀ q, (t.deleteDirs ps).mem q = if q ∈ ps then none else t.mem q := by
  induction ps generalizing t with
  | nil => exact ⟨hi, rfl, rfl, fun q => rfl⟩
  | cons p ps ih =>
    obtain ⟨hi', hdlru, hnext, hmem⟩ := ih (hi.deleteDir p)
    rw [deleteDir_dlru] at hdlru
    rw [deleteDir_next] at hnext
    refine ⟨hi', hdlru, hnext, fun q => ?_⟩
    rw [DirTable.deleteDirs, hmem, deleteDir_mem]
    by_cases hq : q = p
    · simp [hq]
    · simp [hq]

/-! ## The invariant

A block in memory is cached or referenced. The cache has references of its own, and gives one to
each operation that finds the block there. What the operations hold is the parameter `ext`, so
that `AcquireDir` and `Release` are specified by adding one to it and by taking one away. -/

/-- The invariant of a server's blocks, on which operations hold `ext`
references. -/
structure Inv (t : DirTable) (ext : Nat → Nat) : Prop where
  indexed : t.Indexed
  lru : t.dlru.Inv ext
  /-- a block knows its entry of the cache -/
  handle : ∀ {p d}, t.mem p = some d → t.dlru.item d.lruHandle = some (d.id.key, p)
  /-- and every entry stands for a block -/
  item : ∀ {h k p}, t.dlru.item h = some (k, p) → ∃ d, t.mem p = some d ∧ d.lruHandle = h
  fresh : ∀ {p d}, t.mem p = some d → p < t.next

/-- No block, and nothing in the cache. -/
def empty (dirLruSize : Nat) : DirTable where
  dlru := LruCache.empty dirLruSize
  dirs _ := none
  mem _ := none
  next := 0

theorem Inv.empty (dirLruSize : Nat) : (DirTable.empty dirLruSize).Inv fun _ => 0 where
  indexed := Registry.Indexed.empty _
  lru := LruCache.Inv.empty dirLruSize fun _ => rfl
  handle hp := by cases hp
  item hp := by cases hp
  fresh hp := by cases hp

/-- A referenced block is in memory. -/
theorem Inv.live (hi : t.Inv ext) (hp : 0 < ext p) : ∃ d, t.mem p = some d := by
  obtain ⟨h, e, he, rfl⟩ := hi.lru.held hp
  obtain ⟨d, hd, -⟩ := hi.item (LruCache.item_eq.mpr ⟨e, he, rfl, rfl⟩)
  exact ⟨d, hd⟩

/-- The blocks operations reference stay as they are. -/
def Keeps (t t' : DirTable) (ext : Nat → Nat) : Prop :=
  ∀ q, t'.mem q = t.mem q ∨ t'.mem q = none ∧ ext q = 0

theorem Keeps.mem {q : Nat} (hk : Keeps t t' ext) (hq : 0 < ext q) : t'.mem q = t.mem q := by
  rcases hk q with h | ⟨-, h⟩
  · exact h
  · omega

/-- The cache changed with the blocks it dropped deleted. -/
theorem Inv.effect (hi : t.Inv ext) {c : LruCache Nat} {ps : List Nat} (hc : c.Inv ext')
    (heff : t.dlru.Effect c ps) :
    ({ t with dlru := c }.deleteDirs ps).Inv ext' ∧ Keeps t ({ t with dlru := c }.deleteDirs ps) ext' := by
  have hind : ({ t with dlru := c } : DirTable).Indexed := hi.indexed
  obtain ⟨hi', hdlru, hnext, hmem⟩ := hind.deleteDirs ps
  refine ⟨⟨hi', ?_, ?_, ?_, ?_⟩, fun q => ?_⟩
  · rw [hdlru]
    exact hc
  · intro q d hd
    rw [hmem] at hd
    split at hd
    · cases hd
    rename_i hq
    rw [hdlru]
    rcases heff.rest (hi.handle hd) with h | ⟨hin, -⟩
    · exact h
    · exact absurd hin hq
  · intro h k q hit
    rw [hdlru] at hit
    obtain ⟨d, hd, hh⟩ := hi.item (heff.kept hit)
    have hq : q ∉ ps := heff.live hi.lru hit
    exact ⟨d, by rw [hmem, if_neg hq]; exact hd, hh⟩
  · intro q d hd
    rw [hmem] at hd
    rw [hnext]
    split at hd
    · cases hd
    · exact hi.fresh hd
  · rw [hmem]
    split
    · rename_i hin
      exact .inr ⟨rfl, heff.unreferenced hi.lru hc hin⟩
    · exact .inl rfl

/-- **`Release`** drops one reference. With the last one the block is deleted, and leaves
the table. -/
theorem Inv.release (hi : t.Inv ext) (hp : 0 < ext p) :
    ∃ t', t.release p = some t' ∧ t'.Inv (Function.update ext p (ext p - 1)) ∧
      Keeps t t' (Function.update ext p (ext p - 1)) := by
  obtain ⟨d, hd⟩ := hi.live hp
  have hself : Function.update ext p (ext p - 1) p + 1 = ext p := by
    rw [Function.update_self]
    omega
  obtain ⟨c, ps, hr, hc, heff, -⟩ := hi.lru.release (hi.handle hd) hself
    fun q hq => Function.update_of_ne hq ..
  obtain ⟨hi', hk⟩ := hi.effect hc heff
  refine ⟨_, ?_, hi', hk⟩
  rw [DirTable.release, hd]
  simp only [hr, Option.map_some]

/-- What `AcquireDir` does: the block `p` of `id` is there, one more reference
to it is held, and it is new if there was none. -/
structure Acquired (t t' : DirTable) (ext : Nat → Nat) (id : DirId) (p : Nat) : Prop where
  inv : t'.Inv (Function.update ext p (ext p + 1))
  block : (∃ d, t.mem p = some d ∧ t'.mem p = some d ∧ d.id = id) ∨
    (t.mem p = none ∧ ∃ h, t'.mem p = some ⟨id, h, none, fun _ => false⟩)
  keeps : ∀ q, q ≠ p → t'.mem q = t.mem q ∨ t'.mem q = none ∧ ext q = 0

/-- A block that is there gets one more reference. -/
theorem Inv.acquired_old (hi : t.Inv ext) {d : Dir} (hd : t.mem p = some d) (hid : d.id = id)
    {c : LruCache Nat} (hc : c.Inv (Function.update ext p (ext p + 1)))
    (heff : t.dlru.Effect c []) : Acquired t { t with dlru := c } ext id p where
  inv := (hi.effect hc heff).1
  block := .inl ⟨d, hd, hd, hid⟩
  keeps _ _ := .inl rfl

/-- The next pointer is not in use. -/
theorem Inv.mem_next (hi : t.Inv ext) : t.mem t.next = none := by
  rcases hn : t.mem t.next with _ | d
  · rfl
  · exact absurd (hi.fresh hn) (Nat.lt_irrefl _)

theorem Inv.ext_next (hi : t.Inv ext) : ext t.next = 0 := by
  by_contra hne
  obtain ⟨d, hd⟩ := hi.live (Nat.pos_of_ne_zero hne)
  rw [hi.mem_next] at hd
  cases hd

/-- The entries of a directory without a block are not in the cache. -/
theorem Inv.table_none (hi : t.Inv ext) (hdirs : t.dirs id.key = none) :
    t.dlru.table id.key = none := by
  rcases ht : t.dlru.table id.key with _ | h
  · rfl
  obtain ⟨e, he, hek, -⟩ := hi.lru.table.mp ht
  have hit : t.dlru.item h = some (id.key, e.value) := LruCache.item_eq.mpr ⟨e, he, hek, rfl⟩
  obtain ⟨d, hd, hh⟩ := hi.item hit
  have hhd := hi.handle hd
  rw [hh, hit] at hhd
  have hdk : d.id.key = id.key := (Prod.mk.inj (Option.some.inj hhd)).1.symm
  rw [← hdk, hi.indexed.object hd] at hdirs
  cases hdirs

theorem inject_self (t : DirTable) (id : DirId) (c : LruCache Nat) (h : Nat) :
    (t.inject id c h).mem t.next = some ⟨id, h, none, fun _ => false⟩ := Function.update_self ..

theorem inject_of_ne {q : Nat} (hq : q ≠ t.next) (c : LruCache Nat) (h : Nat) :
    (t.inject id c h).mem q = t.mem q := Function.update_of_ne hq ..

theorem Inv.inject (hi : t.Inv ext) (hdirs : t.dirs id.key = none) (c : LruCache Nat) (h : Nat) :
    (t.inject id c h).Indexed := by
  have hkey : (fun d : Dir => d.id.key) ⟨id, h, none, fun _ => false⟩ = id.key := rfl
  exact Registry.Indexed.insert hi.indexed hkey hdirs hi.mem_next

/-- An insertion into the cache drops only blocks no operation references. -/
theorem Inv.inserted_gone (hi : t.Inv ext) {c : LruCache Nat} {ps : List Nat} {k : Slice} {q : Nat}
    (hI : t.dlru.Inserted c k t.next ps) (hc : c.Inv ext') (hq : q ∈ ps) : ext' q = 0 := by
  refine hI.unreferenced hi.lru hc (fun h k hit => ?_) hq
  obtain ⟨d, hd, -⟩ := hi.item hit
  exact (hi.fresh hd).ne rfl

/-- A new block is entered in the table and in the cache, and the cache may
evict old ones. -/
theorem Inv.createDir (hi : t.Inv ext) (hdirs : t.dirs id.key = none) :
    ∃ t', t.createDir id = some (t', t.next) ∧ Acquired t t' ext id t.next := by
  -- the new block's address is in nobody's hands yet
  have hfree : ∀ {h k q}, t.dlru.item h = some (k, q) → q ≠ t.next := by
    intro h k q hit
    obtain ⟨d, hd, -⟩ := hi.item hit
    exact (hi.fresh hd).ne
  have hunused : ∀ h e, t.dlru.mem h = some e → e.value ≠ t.next := fun h e he =>
    hfree (LruCache.item_eq.mpr ⟨e, he, rfl, rfl⟩)
  have hone : Function.update ext t.next (ext t.next + 1) t.next = 1 := by
    rw [Function.update_self, hi.ext_next]
  obtain ⟨c, ps, hins, hc, hI⟩ := hi.lru.insert 1 hunused (hi.table_none hdirs) hone
    fun q hq => Function.update_of_ne hq ..
  obtain ⟨hind, hdlru, hnext, hmem⟩ := (hi.inject hdirs c t.dlru.next).deleteDirs ps
  -- the blocks the cache drops are older ones, and are deleted
  have hgone : ∀ {q}, q ∈ ps → q ≠ t.next := by
    intro q hq
    obtain ⟨h, k, hit, -⟩ := hI.gone hq
    obtain ⟨d, hd, -⟩ := hi.item hit
    exact (hi.fresh hd).ne
  have hself := (hmem t.next).trans (if_neg fun hin => hgone hin rfl)
  rw [inject_self] at hself
  have hother : ∀ {q}, q ≠ t.next →
      ((t.inject id c t.dlru.next).deleteDirs ps).mem q = if q ∈ ps then none else t.mem q := by
    intro q hq
    rw [hmem, inject_of_ne hq]
  refine ⟨_, ?_, ⟨hind, ?_, ?_, ?_, ?_⟩, ?_, ?_⟩
  · rw [DirTable.createDir, hins, Option.map_some]
  · rw [hdlru]
    exact hc
  · intro q d hd
    rw [hdlru]
    by_cases hq : q = t.next
    · subst hq
      rw [hself] at hd
      cases hd
      exact hI.new
    · rw [hother hq] at hd
      split at hd
      · cases hd
      rename_i hin
      rcases hI.rest (hi.handle hd) with h | ⟨h, -⟩
      · exact h
      · exact absurd h hin
  · intro h k q hit
    rw [hdlru] at hit
    have hit : c.item h = some (k, q) := hit
    by_cases hh : h = t.dlru.next
    · subst hh
      rw [hI.new] at hit
      obtain ⟨-, rfl⟩ := Prod.mk.inj (Option.some.inj hit)
      exact ⟨_, hself, rfl⟩
    · obtain ⟨d, hd, hdh⟩ := hi.item (hI.kept hh hit)
      have hin : q ∉ ps := hI.live hi.lru (fun h k hit => hfree hit rfl) hit
      exact ⟨d, by rw [hother (hi.fresh hd).ne, if_neg hin]; exact hd, hdh⟩
  · intro q d hd
    rw [hnext]
    by_cases hq : q = t.next
    · rw [hq]
      exact Nat.lt_succ_self _
    · rw [hother hq] at hd
      split at hd
      · cases hd
      · exact (hi.fresh hd).trans (Nat.lt_succ_self _)
  · exact .inr ⟨hi.mem_next, _, hself⟩
  · intro q hq
    rw [hother hq]
    split
    · rename_i hin
      -- a dropped block had no reference left
      have hzero := hi.inserted_gone hI hc hin
      rw [Function.update_of_ne hq] at hzero
      exact .inr ⟨rfl, hzero⟩
    · exact .inl rfl

/-- **`AcquireDir`** always finds or makes the block. It is in the cache, in the table only,
or new. A new block may evict another one, which goes on living as long as an operation has
it. -/
theorem Inv.acquireDir (hi : t.Inv ext) (id : DirId) :
    ∃ t' p, t.acquireDir id = some (t', p) ∧ Acquired t t' ext id p := by
  rcases ht : t.dlru.table id.key with _ | h
  · have hl := LruCache.lookup_none ht
    rcases hdirs : t.dirs id.key with _ | p
    · obtain ⟨t', ha, hacq⟩ := hi.createDir hdirs
      refine ⟨t', t.next, ?_, hacq⟩
      rw [DirTable.acquireDir, hl]
      simp only [hdirs, ha]
    · obtain ⟨d, hd, hk⟩ := hi.indexed.index hdirs
      have hself : Function.update ext p (ext p + 1) p = ext p + 1 := Function.update_self ..
      obtain ⟨c, hr, hc, heff, -⟩ := hi.lru.ref (hi.handle hd) hself
        fun q hq => Function.update_of_ne hq ..
      refine ⟨_, p, ?_, hi.acquired_old hd (DirId.key_injective hk) hc heff⟩
      rw [DirTable.acquireDir, hl]
      simp only [hdirs, hd, hr, Option.map_some]
  · obtain ⟨p, hit, hlook⟩ := hi.lru.lookup_some ht
    obtain ⟨d, hd, hh⟩ := hi.item hit
    have hk : id.key = d.id.key := by
      have hhd := hi.handle hd
      rw [hh, hit] at hhd
      exact (Prod.mk.inj (Option.some.inj hhd)).1
    obtain ⟨c, hl, hc, heff, -⟩ := hlook (Function.update ext p (ext p + 1))
      (Function.update_self ..) fun q hq => Function.update_of_ne hq ..
    have hpos : 0 < Function.update ext p (ext p + 1) p := by
      rw [Function.update_self]
      exact Nat.succ_pos _
    obtain ⟨e, he, -, hv⟩ := LruCache.item_eq.mp (heff.item_of_referenced hi.lru hc hit hpos)
    refine ⟨_, p, ?_, hi.acquired_old hd (DirId.key_injective hk.symm) hc heff⟩
    rw [DirTable.acquireDir, hl]
    simp only [he, hv, Option.map_some]

theorem setDir_self (t : DirTable) (p : Nat) (d : Dir) : (t.setDir p d).mem p = some d :=
  Function.update_self ..

theorem setDir_of_ne {q : Nat} (hq : q ≠ p) (d : Dir) : (t.setDir p d).mem q = t.mem q :=
  Function.update_of_ne hq ..

/-- Changing the index or the flags of a block keeps the invariant. -/
theorem Inv.setDir (hi : t.Inv ext) {d₀ d₁ : Dir} (h₀ : t.mem p = some d₀) (hid : d₁.id = d₀.id)
    (hh : d₁.lruHandle = d₀.lruHandle) : (t.setDir p d₁).Inv ext := by
  have hmem : ∀ {q e}, (t.setDir p d₁).mem q = some e →
      ∃ d, t.mem q = some d ∧ e.id = d.id ∧ e.lruHandle = d.lruHandle := by
    intro q e he
    by_cases hq : q = p
    · subst hq
      rw [setDir_self] at he
      cases he
      exact ⟨d₀, h₀, hid, hh⟩
    · rw [setDir_of_ne hq] at he
      exact ⟨e, he, rfl, rfl⟩
  have hback : ∀ {q d}, t.mem q = some d →
      ∃ e, (t.setDir p d₁).mem q = some e ∧ e.id = d.id ∧ e.lruHandle = d.lruHandle := by
    intro q d hd
    by_cases hq : q = p
    · subst hq
      obtain rfl := Option.some.inj (h₀.symm.trans hd)
      exact ⟨d₁, setDir_self .., hid, hh⟩
    · exact ⟨d, (setDir_of_ne hq d₁).trans hd, rfl, rfl⟩
  constructor
  case indexed =>
    have hk : d₁.id.key = d₀.id.key := by rw [hid]
    exact Registry.Indexed.modify hi.indexed h₀ hk
  case lru => exact hi.lru
  case handle =>
    intro q e he
    obtain ⟨d, hd, hde, hdh⟩ := hmem he
    rw [hde, hdh]
    exact hi.handle hd
  case item =>
    intro h k q hit
    obtain ⟨d, hd, rfl⟩ := hi.item hit
    obtain ⟨e, he, -, hdh⟩ := hback hd
    exact ⟨e, he, hdh⟩
  case fresh =>
    intro q e he
    obtain ⟨d, hd, -⟩ := hmem he
    exact hi.fresh hd

end DirTable

end DeltaFs
