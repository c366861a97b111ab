import DeltaFs.References
import DeltaFs.Transition

/-!
# The partitions of a client, with threads

`fscli.cc`: the threads of a client share its partitions. A step is what one
thread does while it holds `mutex_`, so the states between the steps are those
in which nobody holds it.

`DeletePartition` lets go of the mutex in the middle: once the block has left
`pars_` other threads go on, and the thread takes the mutex again to drop the
reference to the directory and to free the block. `Release` runs it at its end.
`LRUCache::Insert` runs it from its loop, for an entry it evicts, and
`AcquirePartition` stores the handle of the new block when `Insert` has
returned. Such an insertion takes several steps, with `Resume` saying what is
left of it.

The leases of a partition have a mutex of their own, and are left out.
-/

namespace DeltaFs

namespace FilesystemCli

/-! ## Threads in the table of partitions

Elsewhere a section of the mutex of the client is one step. But `DeletePartition` drops the
mutex while it empties the partition, and it is called in the middle of an insertion into the
cache and of a release. Other threads may come in between, so `Resume` says what a thread has
left to do when it has the mutex again. -/

/-- `FilesystemCli::Partition`, without its leases. -/
structure PartitionBlock where
  /-- the block of the directory -/
  dir : Nat
  index : Nat
  /-- not set before `AcquirePartition` does it -/
  lruHandle : Option Nat
  key : Slice

/-- What a thread goes on with when `DeletePartition` returns. -/
inductive Resume where
  /-- the end of `Release` -/
  | released
  /-- the loop of `Insert`, for a block and its entry -/
  | insert (part handle : Nat)
  /-- the end of `Insert`, for a block and its entry -/
  | inserted (part handle : Nat)

/-- Where a thread is when it does not hold `mutex_`. -/
inductive PartitionThread where
  /-- not in an operation on partitions -/
  | running
  /-- in `DeletePartition` -/
  | deleting (part : Nat) (next : Resume)

/-- What `mutex_` protects, and the references and the threads that are there. -/
structure Partitions where
  dirs : Dirs
  /-- `plru_` -/
  plru : LruCache Nat
  /-- `pars_` -/
  pars : List Nat
  /-- the blocks, by pointer -/
  parts : Nat → Option PartitionBlock
  /-- the next pointer the allocator returns -/
  next : Nat
  /-- the references to partitions -/
  held : List Nat
  /-- the references to directories, other than those of partitions -/
  heldDirs : List Nat
  threads : Nat → PartitionThread

/-- The operations on directories and partitions, and the return to one. -/
inductive PartitionOp where
  | acquireDir (id : DirId)
  | releaseDir (d : Nat)
  | acquirePartition (d ix : Nat)
  | ref (p : Nat)
  | release (p : Nat)
  | resume

namespace Partitions

/-! ## The sections

`AcquirePartition`, `Release` and `DeletePartition`, up to the point where the mutex is dropped.
An insertion goes on evicting in `insertLoop`, from wherever it has been left. -/

/-- A new client. -/
def empty (partitionLruSize : Nat) : Partitions where
  dirs := Dirs.empty
  plru := LruCache.empty partitionLruSize
  pars := []
  parts _ := none
  next := 0
  held := []
  heldDirs := []
  threads _ := .running

/-- The key of a block. -/
def keyOf (s : Partitions) (p : Nat) : Option Slice := (s.parts p).map PartitionBlock.key

/-- Write what thread `t` is doing. -/
def setThread (s : Partitions) (t : Nat) (c : PartitionThread) : Partitions :=
  { s with threads := Function.update s.threads t c }

/-- Write `plru_`. -/
def setCache (s : Partitions) (c : LruCache Nat) : Partitions := { s with plru := c }

/-- `DeletePartition`, until it unlocks `mutex_`. -/
def beginDelete (s : Partitions) (t p : Nat) (next : Resume) : Option Partitions := do
  let part ← s.parts p
  some { s.setThread t (.deleting p next) with
    pars := s.pars.eraseP fun q => decide (s.keyOf q = some part.key) }

/-- The rest of `DeletePartition`, once it has locked `mutex_` again. -/
def endDelete (s : Partitions) (p : Nat) : Option Partitions := do
  let part ← s.parts p
  let dirs ← s.dirs.release part.dir
  some { s with dirs := dirs, parts := Function.update s.parts p none }

/-- The end of `AcquirePartition` for a new block `p`, whose entry is `h`. -/
def store (s : Partitions) (t p h : Nat) : Option Partitions := do
  let part ← s.parts p
  some { s.setThread t .running with
    parts := Function.update s.parts p (some { part with lruHandle := some h })
    held := p :: s.held }

/-- The end of `Insert`. -/
def insertEnd (s : Partitions) (t p h : Nat) : Option Partitions := do
  let part ← s.parts p
  match ← s.plru.insertEnd part.key with
  | (c, []) => (s.setCache c).store t p h
  | (c, v :: _) => (s.setCache c).beginDelete t v (.inserted p h)

/-- The loop of `Insert`. An idle entry that is removed is deleted. -/
def insertLoop (s : Partitions) (t p h : Nat) : Option Partitions :=
  if s.plru.capacity ≠ 0 ∧ s.plru.mustEvict = true then do
    match ← s.plru.evict with
    | (_, []) => none
    | (c, v :: _) => (s.setCache c).beginDelete t v (.insert p h)
  else s.insertEnd t p h

/-- The block and its entry of a new partition are made. -/
def newPartition (s : Partitions) (t d ix : Nat) (key : Slice) : Option Partitions := do
  let p := s.next
  let dirs ← s.dirs.ref d
  let (c, h, vs) ← s.plru.insertBegin key p 1
  let s := { s with
    dirs := dirs
    plru := c
    pars := s.pars ++ [p]
    parts := Function.update s.parts p (some ⟨d, ix, none, key⟩)
    next := p + 1 }
  match vs with
  | [] => s.insertLoop t p h
  | v :: _ => s.beginDelete t v (.insert p h)

/-- `Ref`. -/
def refPartition (s : Partitions) (p : Nat) : Option Partitions := do
  let part ← s.parts p
  let h ← part.lruHandle
  let c ← s.plru.ref h
  some { s with plru := c, held := p :: s.held }

/-- `AcquirePartition`, with its assertions. -/
def acquirePartition (s : Partitions) (t d ix : Nat) : Option Partitions := do
  let dir ← s.dirs.mem d
  let key := lruKey dir.id ix
  match ← s.plru.lookup key with
  | (c, some h) =>
    let e ← c.mem h
    let part ← s.parts e.value
    if part.lruHandle = some h then some { s with plru := c, held := e.value :: s.held } else none
  | (_, none) =>
    match s.pars.find? fun p => decide (s.keyOf p = some key) with
    | some p =>
      let part ← s.parts p
      let h ← part.lruHandle
      let e ← s.plru.mem h
      if e.value = p then s.refPartition p else none
    | none => s.newPartition t d ix key

/-- `Release(Partition*)`. -/
def releasePartition (s : Partitions) (t p : Nat) : Option Partitions := do
  let part ← s.parts p
  let h ← part.lruHandle
  let s := { s with held := s.held.erase p }
  match ← s.plru.release h with
  | (c, []) => some (s.setCache c)
  | (c, v :: _) => (s.setCache c).beginDelete t v .released

/-- Thread `t` goes on when `DeletePartition` returns. -/
def proceed (s : Partitions) (t : Nat) : Resume → Option Partitions
  | .released => some (s.setThread t .running)
  | .insert p h => s.insertLoop t p h
  | .inserted p h => s.store t p h

/-- One operation of thread `t`. A reference is released by who has it, and a
partition acquired by who has a reference to the directory. -/
def step (s : Partitions) (t : Nat) (op : PartitionOp) : Option Partitions :=
  match s.threads t, op with
  | .running, .acquireDir id =>
    (s.dirs.acquireDir id).map fun x => { s with dirs := x.1, heldDirs := x.2 :: s.heldDirs }
  | .running, .releaseDir d =>
    if d ∈ s.heldDirs then
      (s.dirs.release d).map fun dirs => { s with dirs := dirs, heldDirs := s.heldDirs.erase d }
    else none
  | .running, .acquirePartition d ix => if d ∈ s.heldDirs then s.acquirePartition t d ix else none
  | .running, .ref p => if p ∈ s.held then s.refPartition p else none
  | .running, .release p => if p ∈ s.held then s.releasePartition t p else none
  | .deleting p next, .resume => (s.endDelete p).bind fun s => s.proceed t next
  | _, _ => none

/-- The threads of a client that keeps `partitionLruSize` partitions cached. -/
def system (partitionLruSize : Nat) : TransitionSystem Partitions (Nat × PartitionOp) Unit where
  init s := s = empty partitionLruSize
  step s k := (s.step k.1 k.2).map fun s' => (s', [])

/-! ## The handles

A partition has to know its handle in the cache before it can be released. `Handled` is that
every partition that can be found does, and `Roomy` when a step keeps it. -/

/-- The handle of the block at `p` is `h`, a live entry that stands for it. -/
def HasHandle (s : Partitions) (p h : Nat) : Prop :=
  ∃ part e, s.parts p = some part ∧ part.lruHandle = some h ∧ s.plru.mem h = some e ∧ e.value = p

/-- Whether the block at `p` is the partition `ix` of the directory `id`. -/
def isPartition (s : Partitions) (id : DirId) (ix p : Nat) : Bool :=
  (s.parts p).any fun part => decide (part.index = ix) &&
    (s.dirs.mem part.dir).any fun dir => decide (dir.id = id)

/-- **The blocks that can be found** have their handles, and there is one block
for a directory and an index. -/
structure Handled (s : Partitions) : Prop where
  /-- what `Lookup` finds -/
  cached : ∀ {key h}, s.plru.table key = some h → ∃ e, s.plru.mem h = some e ∧ s.HasHandle e.value h
  /-- what is in `pars_` -/
  listed : ∀ {p}, p ∈ s.pars → ∃ h, s.HasHandle p h
  unique : ∀ id ix, s.pars.countP (s.isPartition id ix) ≤ 1

/-- A new block goes into a cache that is full and has an idle entry. -/
def MustEvict (c : LruCache Nat) : Prop := c.capacity ≠ 0 ∧ c.capacity < c.usage + 1 ∧ c.lru ≠ []

/-- The step does not evict: there is the block, or room for it, or no idle one. -/
def Roomy (s : Partitions) (k : Nat × PartitionOp) : Prop :=
  match k.2 with
  | .acquirePartition d ix => ∀ dir, s.dirs.mem d = some dir →
      s.plru.table (lruKey dir.id ix) = none →
      (∀ p ∈ s.pars, s.keyOf p ≠ some (lruKey dir.id ix)) → ¬MustEvict s.plru
  | _ => True

/-! ## The invariant

`Handled` does not stand on its own. What is in `pars_` knows its entry of the cache, each
entry stands for something in `pars_`, and the block that a thread in the middle of
`DeletePartition` works on cannot be found by anybody. -/

/-- The number of blocks of the directory at `d`. -/
def partsOn (s : Partitions) (d : Nat) : Nat :=
  (List.range s.next).countP fun p => (s.parts p).any fun part => part.dir = d

/-- The invariant of the partitions between steps that do not evict. -/
structure Inv (xx : XXHash) (srvs : Nat) (s : Partitions) : Prop where
  dirs : s.dirs.Inv xx srvs fun d => s.partsOn d + s.heldDirs.count d
  plru : s.plru.Inv fun p => s.held.count p
  /-- a block in `pars_` knows its entry -/
  listed : ∀ {p}, p ∈ s.pars → ∃ part h, s.parts p = some part ∧ part.lruHandle = some h ∧
    s.plru.item h = some (part.key, p)
  /-- and every entry stands for one -/
  item : ∀ {h k p}, s.plru.item h = some (k, p) → p ∈ s.pars
  keys : (s.pars.map s.keyOf).Nodup
  fresh : ∀ {p part}, s.parts p = some part → p < s.next
  key : ∀ {p part}, s.parts p = some part → ∃ dir, s.dirs.mem part.dir = some dir ∧
    part.key = lruKey dir.id part.index
  /-- nobody finds a block that is being deleted -/
  deleting : ∀ {t p r}, s.threads t = .deleting p r → p ∉ s.pars ∧ p < s.next ∧ r = .released

variable {xx : XXHash} {srvs : Nat} {s s' : Partitions} {t p d : Nat} {part : PartitionBlock}

theorem Inv.empty (xx : XXHash) (srvs partitionLruSize : Nat) :
    (Partitions.empty partitionLruSize).Inv xx srvs where
  dirs := Dirs.Inv.empty xx srvs
  plru := LruCache.Inv.empty partitionLruSize fun _ => rfl
  listed hp := absurd hp List.not_mem_nil
  item hit := by cases hit
  keys := List.nodup_nil
  fresh hp := by cases hp
  key hp := by cases hp
  deleting ht := by cases ht

theorem partsOn_pos (hp : s.parts p = some part) (hlt : p < s.next) : 0 < s.partsOn part.dir :=
  List.countP_pos_iff.mpr ⟨p, List.mem_range.mpr hlt, by rw [hp]; simp⟩

/-- The blocks of a directory, after a block has come or gone. -/
theorem partsOn_update {o : Option PartitionBlock} (hp : p < s.next)
    (hs : s'.parts = Function.update s.parts p o) (hnext : s'.next = s.next) (d : Nat) :
    s'.partsOn d + ((s.parts p).any fun part => part.dir = d).toNat =
      s.partsOn d + (o.any fun part => part.dir = d).toNat := by
  rw [partsOn, partsOn, hnext]
  exact countP_any_update _ hp hs

/-- The blocks of a directory, with a new one. -/
theorem partsOn_new (hpart : s'.parts = Function.update s.parts s.next (some part))
    (hnext : s'.next = s.next + 1) (q : Nat) :
    s'.partsOn q = s.partsOn q + (decide (part.dir = q)).toNat := by
  rw [partsOn, partsOn, hnext]
  exact countP_any_new _ hpart

/-- **No block without its handle** is found under the invariant: what is in `pars_` has
been stored with it. -/
theorem Inv.handled (hi : s.Inv xx srvs) : s.Handled where
  cached {key h} ht := by
    obtain ⟨e, he, -, -⟩ := hi.plru.table.mp ht
    have hit : s.plru.item h = some (e.key, e.value) := LruCache.item_eq.mpr ⟨e, he, rfl, rfl⟩
    obtain ⟨part, h', hp, hh, hit'⟩ := hi.listed (hi.item hit)
    obtain rfl := hi.plru.item_inj hit hit'
    exact ⟨e, he, part, e, hp, hh, he, rfl⟩
  listed {p} hp := by
    obtain ⟨part, h, hpart, hh, hit⟩ := hi.listed hp
    obtain ⟨e, he, -, hv⟩ := LruCache.item_eq.mp hit
    exact ⟨h, part, e, hpart, hh, he, hv⟩
  unique id ix := by
    -- the block of a directory and an index has their key
    have hle : s.pars.countP (s.isPartition id ix) ≤
        (s.pars.map s.keyOf).count (some (lruKey id ix)) := by
      rw [List.count, List.countP_map]
      refine List.countP_mono_left fun p hp his => ?_
      obtain ⟨part, hpart, his⟩ := (Option.any_eq_true ..).mp his
      obtain ⟨hix, hid⟩ := (Bool.and_eq_true ..).mp his
      obtain ⟨dir, hdir, hkey⟩ := hi.key hpart
      rw [hdir, Option.any_some, decide_eq_true_iff] at hid
      rw [decide_eq_true_iff] at hix
      show (s.keyOf p == some (lruKey id ix)) = true
      rw [keyOf, hpart, Option.map_some, hkey, hid, hix, beq_self_eq_true]
    exact hle.trans (List.nodup_iff_count_le_one.mp hi.keys _)

/-- A partition that is referenced is in `pars_`. -/
theorem Inv.live (hi : s.Inv xx srvs) (hp : p ∈ s.held) : p ∈ s.pars := by
  obtain ⟨h, e, he, rfl⟩ := hi.plru.held (List.count_pos_iff.mpr hp)
  exact hi.item (LruCache.item_eq.mpr ⟨e, he, rfl, rfl⟩)

/-! ### Parts of a step

The pieces that several sections share: another cache, another table of directories, and one
more or one less reference to a directory. -/

/-- The cache changes without dropping anything, as the references do. -/
theorem Inv.setCache (hi : s.Inv xx srvs) {c : LruCache Nat} {held : List Nat}
    (hc : c.Inv fun p => held.count p) (heff : s.plru.Effect c []) :
    ({ s with plru := c, held := held } : Partitions).Inv xx srvs where
  dirs := hi.dirs
  plru := hc
  listed hp := by
    obtain ⟨part, h, hpart, hh, hit⟩ := hi.listed hp
    cases heff.rest hit with
    | inl hit => exact ⟨part, h, hpart, hh, hit⟩
    | inr h => exact absurd h.1 List.not_mem_nil
  item hit := hi.item (heff.kept hit)
  keys := hi.keys
  fresh := hi.fresh
  key := hi.key
  deleting := hi.deleting

/-- The directories change, but not those of a block. -/
theorem Inv.setDirs (hi : s.Inv xx srvs) {dirs : Dirs} {heldDirs : List Nat}
    (hd : dirs.Inv xx srvs fun d => s.partsOn d + heldDirs.count d)
    (hk : s.dirs.Keeps dirs fun d => s.partsOn d + heldDirs.count d) :
    ({ s with dirs := dirs, heldDirs := heldDirs } : Partitions).Inv xx srvs where
  dirs := hd
  plru := hi.plru
  listed := hi.listed
  item := hi.item
  keys := hi.keys
  fresh := hi.fresh
  key hp := by
    obtain ⟨dir, hdir, hkey⟩ := hi.key hp
    obtain ⟨dir', hdir', hid⟩ := hk hdir (Nat.add_pos_left (partsOn_pos hp (hi.fresh hp)) _)
    exact ⟨dir', hdir', by rw [hid]; exact hkey⟩
  deleting := hi.deleting

/-- **`AcquireDir`**. -/
theorem Inv.acquireDir (hi : s.Inv xx srvs) {id : DirId} {x : Dirs × Nat}
    (h : s.dirs.acquireDir id = some x) :
    ({ s with dirs := x.1, heldDirs := x.2 :: s.heldDirs } : Partitions).Inv xx srvs := by
  obtain ⟨dirs, d, dir, hacq, hd, -, -, hk⟩ := hi.dirs.acquireDir id
  obtain rfl := Option.some.inj (hacq.symm.trans h)
  have hrefs : Function.update (fun d => s.partsOn d + s.heldDirs.count d) d
      (s.partsOn d + s.heldDirs.count d + 1) = fun q => s.partsOn q + (d :: s.heldDirs).count q := by
    refine update_add_one fun q => ?_
    rw [List.count_cons, Nat.add_assoc]
    by_cases hq : d = q
    · simp [hq]
    · simp [hq]
  rw [hrefs] at hd hk
  exact hi.setDirs hd hk

/-- **`Release(Dir*)`**. -/
theorem Inv.releaseDir (hi : s.Inv xx srvs) (hheld : d ∈ s.heldDirs) {dirs : Dirs}
    (h : s.dirs.release d = some dirs) :
    ({ s with dirs := dirs, heldDirs := s.heldDirs.erase d } : Partitions).Inv xx srvs := by
  have hpos := List.count_pos_iff.mpr hheld
  obtain ⟨dirs', hrel, hd, hk⟩ := hi.dirs.release (p := d) (Nat.add_pos_right _ hpos)
  obtain rfl := Option.some.inj (hrel.symm.trans h)
  have hrefs : Function.update (fun d => s.partsOn d + s.heldDirs.count d) d
      (s.partsOn d + s.heldDirs.count d - 1) =
        fun q => s.partsOn q + (s.heldDirs.erase d).count q := by
    refine update_sub_one fun q => ?_
    by_cases hq : q = d
    · subst hq
      rw [List.count_erase_self, decide_eq_true rfl, Bool.toNat_true]
      omega
    · rw [List.count_erase_of_ne hq, decide_eq_false (Ne.symm hq)]
      rfl
  rw [hrefs] at hd hk
  exact hi.setDirs hd hk

/-- **`Ref`**, of a partition in `pars_`. It needs the handle of the block, which is why
a block without one must not be found. -/
theorem Inv.refPartition (hi : s.Inv xx srvs) (hp : p ∈ s.pars)
    (h : s.refPartition p = some s') : s'.Inv xx srvs := by
  obtain ⟨part, hd, hpart, hh, hit⟩ := hi.listed hp
  obtain ⟨c, href, hc, heff, -⟩ : ∃ c, s.plru.ref hd = some c ∧
      (c.Inv fun q => (p :: s.held).count q) ∧ s.plru.Effect c [] ∧ c.table = s.plru.table :=
    hi.plru.ref hit List.count_cons_self fun q hq => List.count_cons_of_ne (Ne.symm hq)
  simp only [Partitions.refPartition, hpart, hh, href, Option.bind_eq_bind, Option.bind_some] at h
  obtain rfl := Option.some.inj h
  exact hi.setCache hc heff

/-- The block that leaves `pars_` in `DeletePartition` is the one to delete. -/
theorem Inv.mem_eraseP (hi : s.Inv xx srvs) (hp : p ∈ s.pars) (hpart : s.parts p = some part)
    {q : Nat} :
    q ∈ s.pars.eraseP (fun q => decide (s.keyOf q = some part.key)) ↔ q ∈ s.pars ∧ q ≠ p := by
  have hkey : s.keyOf p = some part.key := by rw [keyOf, hpart, Option.map_some]
  have hself : ∀ {q}, q ∈ s.pars → s.keyOf q = some part.key → q = p := fun hq hk =>
    List.inj_on_of_nodup_map hi.keys hq hp (hk.trans hkey.symm)
  constructor
  · intro hq
    refine ⟨List.mem_of_mem_eraseP hq, ?_⟩
    rintro rfl
    obtain ⟨a, l₁, l₂, -, ha, hl, hl'⟩ := List.exists_of_eraseP
      (p := fun q => decide (s.keyOf q = some part.key)) hp (decide_eq_true hkey)
    obtain rfl := hself (hl ▸ List.mem_append_right _ List.mem_cons_self) (of_decide_eq_true ha)
    have hnodup := hl ▸ hi.keys.of_map
    rw [hl'] at hq
    exact (List.nodup_cons.mp (List.perm_middle.nodup_iff.mp hnodup)).1 hq
  · rintro ⟨hq, hne⟩
    refine (List.mem_eraseP_of_neg fun hk => ?_).mpr hq
    exact hne (hself hq (of_decide_eq_true hk))

/-- **`Release(Partition*)`**: the last reference to a block that is not in the
cache leads into `DeletePartition`. -/
theorem Inv.releasePartition (hi : s.Inv xx srvs) (hheld : p ∈ s.held)
    (h : s.releasePartition t p = some s') : s'.Inv xx srvs := by
  have hp := hi.live hheld
  obtain ⟨part, hd, hpart, hh, hit⟩ := hi.listed hp
  have hpos := List.count_pos_iff.mpr hheld
  obtain ⟨c, vs, hrel, hc, heff, -, hvs⟩ : ∃ c vs, s.plru.release hd = some (c, vs) ∧
      (c.Inv fun q => (s.held.erase p).count q) ∧ s.plru.Effect c vs ∧ c.table = s.plru.table ∧
      ∀ w ∈ vs, w = p :=
    hi.plru.release hit (by rw [List.count_erase_self]; omega) fun q hq => List.count_erase_of_ne hq
  simp only [Partitions.releasePartition, hpart, hh, hrel, Option.bind_eq_bind,
    Option.bind_some] at h
  cases vs with
  | nil =>
    obtain rfl := Option.some.inj h
    exact hi.setCache hc heff
  | cons v vs =>
    obtain rfl := hvs v List.mem_cons_self
    obtain ⟨part', hpart', h⟩ := Option.bind_eq_some_iff.mp h
    obtain rfl := Option.some.inj (hpart.symm.trans hpart')
    obtain rfl := Option.some.inj h
    have hself : Function.update s.threads t (.deleting v .released) t = .deleting v .released :=
      Function.update_self ..
    refine ⟨hi.dirs, hc, ?_, ?_, ?_, hi.fresh, hi.key, ?_⟩
    · intro q hq
      obtain ⟨hq, hne⟩ := (hi.mem_eraseP hp hpart).mp hq
      obtain ⟨part', h', hpart', hh', hit'⟩ := hi.listed hq
      cases heff.rest hit' with
      | inl hit' => exact ⟨part', h', hpart', hh', hit'⟩
      | inr hin => exact absurd (hvs q hin.1) hne
    · intro h' k q hit'
      refine (hi.mem_eraseP hp hpart).mpr ⟨hi.item (heff.kept hit'), ?_⟩
      rintro rfl
      exact heff.live hi.plru hit' List.mem_cons_self
    · exact hi.keys.sublist (List.eraseP_sublist.map _)
    · intro t' q r ht'
      by_cases heq : t' = t
      · subst heq
        cases hself.symm.trans ht'
        exact ⟨fun hq => ((hi.mem_eraseP hp hpart).mp hq).2 rfl, hi.fresh hpart, rfl⟩
      · obtain ⟨hq, hr⟩ := hi.deleting ((Function.update_of_ne heq ..).symm.trans ht')
        exact ⟨fun hin => hq ((hi.mem_eraseP hp hpart).mp hin).1, hr⟩

/-- **The return from `DeletePartition`** to `Release`. The partition was taken out of
`pars_` before the mutex was dropped, so nobody has found it meanwhile, and its
reference to the directory is still there to be given back. -/
theorem Inv.resume (hi : s.Inv xx srvs) {r : Resume} (ht : s.threads t = .deleting p r)
    (h : ((s.endDelete p).bind fun s => s.proceed t r) = some s') : s'.Inv xx srvs := by
  obtain ⟨hout, -, rfl⟩ := hi.deleting ht
  obtain ⟨s₁, h₁, h⟩ := Option.bind_eq_some_iff.mp h
  obtain ⟨part, hpart, h₁⟩ := Option.bind_eq_some_iff.mp h₁
  obtain ⟨dirs, hrel, h₁⟩ := Option.bind_eq_some_iff.mp h₁
  obtain rfl := Option.some.inj h₁
  obtain rfl := Option.some.inj h
  have hlt := hi.fresh hpart
  have hpos := partsOn_pos hpart hlt
  obtain ⟨dirs', hrel', hd, hk⟩ := hi.dirs.release (p := part.dir) (Nat.add_pos_left hpos _)
  obtain rfl := Option.some.inj (hrel.symm.trans hrel')
  -- the other blocks stay as they are
  have hparts : ∀ {q part'}, Function.update s.parts p none q = some part' →
      s.parts q = some part' := by
    intro q part' hq
    have hqp : q ≠ p := by
      rintro rfl
      rw [Function.update_self] at hq
      cases hq
    exact (Function.update_of_ne hqp ..).symm.trans hq
  have hother : ∀ {q}, q ∈ s.pars → Function.update s.parts p none q = s.parts q := by
    intro q hq
    refine Function.update_of_ne ?_ ..
    rintro rfl
    exact hout hq
  let s' : Partitions := { s with
    dirs := dirs
    parts := Function.update s.parts p none
    threads := Function.update s.threads t .running }
  have hrefs : Function.update (fun d => s.partsOn d + s.heldDirs.count d) part.dir
      (s.partsOn part.dir + s.heldDirs.count part.dir - 1) =
        fun d => s'.partsOn d + s'.heldDirs.count d := by
    refine update_sub_one fun d => ?_
    have hcount := partsOn_update hlt
      (show s'.parts = Function.update s.parts p none from rfl) rfl d
    rw [hpart, Option.any_some, Option.any_none, Bool.toNat_false] at hcount
    show s'.partsOn d + s.heldDirs.count d + _ = _
    omega
  rw [hrefs] at hd hk
  have hi' : s'.Inv xx srvs := by
    refine ⟨hd, hi.plru, ?_, hi.item, ?_, fun hq => hi.fresh (hparts hq), ?_, ?_⟩
    · intro q hq
      obtain ⟨part', h', hpart', hrest⟩ := hi.listed hq
      exact ⟨part', h', (hother hq).trans hpart', hrest⟩
    · rw [show s'.pars.map s'.keyOf = s.pars.map s.keyOf from
        List.map_congr_left fun q hq => congrArg (Option.map PartitionBlock.key) (hother hq)]
      exact hi.keys
    · intro q part' hq
      obtain ⟨dir, hdir, hkey⟩ := hi.key (hparts hq)
      have hpos' : 0 < s'.partsOn part'.dir := partsOn_pos hq (hi.fresh (hparts hq))
      obtain ⟨dir', hdir', hid⟩ := hk hdir (Nat.add_pos_left hpos' _)
      exact ⟨dir', hdir', by rw [hid]; exact hkey⟩
    · intro t' q r ht'
      by_cases heq : t' = t
      · subst heq
        rw [show s'.threads t' = .running from Function.update_self ..] at ht'
        cases ht'
      · rw [show s'.threads t' = s.threads t' from Function.update_of_ne heq ..] at ht'
        exact hi.deleting ht'
  exact hi'

/-! ### A new partition

The insertion is where the invariant is at stake. If the cache has room, or everything in it is
referenced, nothing is evicted and the handle is assigned in the same section. -/

/-- The end of an insertion that evicts nothing: the new entry is referenced, so
it is not deleted. -/
theorem insertEnd_kept {c : LruCache Nat} {ext : Nat → Nat} (hi : c.Inv ext) {k : Slice} {h : Nat}
    (ht : c.capacity ≠ 0 → c.table k = some h) (hit : c.item h = some (k, p)) (hpos : 0 < ext p) :
    ∃ c', c.insertEnd k = some (c', []) ∧ c'.Inv ext ∧ c.Effect c' [] := by
  rw [LruCache.insertEnd]
  split
  · exact ⟨c, rfl, hi, LruCache.Effect.refl c⟩
  rename_i hcap
  split
  · obtain ⟨c', vs, hr, hi', heff, -, hvs⟩ := hi.removeKey (ht hcap)
    cases vs with
    | nil => exact ⟨c', hr, hi', heff⟩
    | cons v vs =>
      have hv := (Option.some.inj (hit.symm.trans (hvs v List.mem_cons_self)))
      have hzero := heff.unreferenced hi hi' (v := p) (by cases hv; exact List.mem_cons_self)
      omega
  · exact ⟨c, rfl, hi, LruCache.Effect.refl c⟩

/-- Whether the loop of `Insert` evicts, for a key that is not in the cache. -/
theorem mustEvict_iff {c c' : LruCache Nat} {key : Slice} {h : Nat} {vs : List Nat}
    (hins : c.insertBegin key p 1 = some (c', h, vs)) (hkey : c.table key = none) :
    (c'.capacity ≠ 0 ∧ c'.mustEvict = true) ↔ MustEvict c := by
  rw [LruCache.insertBegin, hkey] at hins
  dsimp only at hins
  split at hins
  · rename_i hzero
    obtain ⟨rfl, -⟩ := Prod.mk.inj (Option.some.inj hins)
    exact ⟨fun h => absurd hzero h.1, fun h => absurd hzero h.1⟩
  · obtain ⟨rfl, -⟩ := Prod.mk.inj (Option.some.inj hins)
    simp [LruCache.mustEvict, MustEvict]

theorem Inv.next_not_mem (hi : s.Inv xx srvs) : s.next ∉ s.pars := by
  intro hin
  obtain ⟨part, -, hpart, -⟩ := hi.listed hin
  exact absurd (hi.fresh hpart) (Nat.lt_irrefl _)

/-- The entry of a new partition. -/
theorem Inv.insertBegin (hi : s.Inv xx srvs) {key : Slice} (hkey : s.plru.table key = none) :
    ∃ c', s.plru.insertBegin key s.next 1 = some (c', s.plru.next, []) ∧
      (c'.Inv fun q => (s.next :: s.held).count q) ∧ c'.item s.plru.next = some (key, s.next) ∧
      (∀ h', h' ≠ s.plru.next → c'.item h' = s.plru.item h') ∧
      c'.table = (if s.plru.capacity = 0 then s.plru.table
        else Function.update s.plru.table key (some s.plru.next)) ∧
      c'.capacity = s.plru.capacity := by
  have hout := hi.next_not_mem
  have hnew : ∀ h e, s.plru.mem h = some e → e.value ≠ s.next := by
    intro h e he heq
    exact hout (heq ▸ hi.item (LruCache.item_eq.mpr ⟨e, he, rfl, rfl⟩))
  have hone : (s.next :: s.held).count s.next = 1 := by
    rw [List.count_cons_self, List.count_eq_zero.mpr fun hin => hout (hi.live hin)]
  exact hi.plru.insertBegin 1 hnew hkey hone fun q hq => List.count_cons_of_ne (Ne.symm hq)

/-- **A new partition**, when its entry does not evict another: the block has
its handle in one step. -/
theorem Inv.newPartition (hi : s.Inv xx srvs) (ht : s.threads t = .running) {dir : Dir}
    (hdir : s.dirs.mem d = some dir) {ix : Nat} (hplru : s.plru.table (lruKey dir.id ix) = none)
    (hkey : ∀ p ∈ s.pars, s.keyOf p ≠ some (lruKey dir.id ix)) (hroom : ¬MustEvict s.plru)
    (h : s.newPartition t d ix (lruKey dir.id ix) = some s') : s'.Inv xx srvs := by
  have hout := hi.next_not_mem
  obtain ⟨dirs, dir', href, hd, -, -, hk⟩ := hi.dirs.ref hdir
  obtain ⟨c₁, hins, hc₁, hit₁, hold₁, htable₁, hcap₁⟩ := hi.insertBegin hplru
  have htable : c₁.capacity ≠ 0 → c₁.table (lruKey dir.id ix) = some s.plru.next := by
    intro hcap
    rw [htable₁, if_neg (hcap₁ ▸ hcap), Function.update_self]
  obtain ⟨c, hend, hc, heff⟩ := insertEnd_kept hc₁ htable hit₁ (List.count_pos_iff.mpr List.mem_cons_self)
  have hevict := fun h => hroom ((mustEvict_iff hins hplru).mp h)
  -- the state at the end, with the handle of the new block
  let part : PartitionBlock := ⟨d, ix, some s.plru.next, lruKey dir.id ix⟩
  let s₂ : Partitions := { s with
    dirs := dirs
    plru := c
    pars := s.pars ++ [s.next]
    parts := Function.update s.parts s.next (some part)
    next := s.next + 1
    held := s.next :: s.held
    threads := Function.update s.threads t .running }
  have hs' : some s₂ = some s' := by
    rw [← h]
    simp only [Partitions.newPartition, href, hins, insertLoop, if_neg hevict,
      Partitions.insertEnd, Function.update_self, hend, store, Partitions.setCache, setThread,
      Function.update_idem, Option.bind_eq_bind, Option.bind_some]
    rfl
  obtain rfl := Option.some.inj hs'
  have hself : s₂.parts s.next = some part := Function.update_self ..
  have hother : ∀ {q}, q ≠ s.next → s₂.parts q = s.parts q := fun hq => Function.update_of_ne hq ..
  have hpars : ∀ {q}, q ∈ s.pars → s₂.parts q = s.parts q := by
    intro q hq
    refine hother ?_
    rintro rfl
    exact hout hq
  have hrefs : Function.update (fun d => s.partsOn d + s.heldDirs.count d) d
      (s.partsOn d + s.heldDirs.count d + 1) = fun q => s₂.partsOn q + s₂.heldDirs.count q := by
    refine update_add_one fun q => ?_
    have hcount : s₂.partsOn q = s.partsOn q + (decide (d = q)).toNat :=
      @partsOn_new _ _ part rfl rfl q
    show s₂.partsOn q + s.heldDirs.count q = _
    omega
  have hpos : 0 < s₂.partsOn d := partsOn_pos hself (Nat.lt_succ_self _)
  rw [hrefs] at hd hk
  refine ⟨hd, hc, ?_, ?_, ?_, ?_, ?_, ?_⟩
  · intro q hq
    rcases List.mem_append.mp hq with hq | hq
    · obtain ⟨part', h', hpart', hh', hit'⟩ := hi.listed hq
      have hne : h' ≠ s.plru.next := by
        rintro rfl
        rw [hi.plru.item_next] at hit'
        cases hit'
      cases heff.rest ((hold₁ h' hne).trans hit') with
      | inl hit' => exact ⟨part', h', (hpars hq).trans hpart', hh', hit'⟩
      | inr h => exact absurd h.1 List.not_mem_nil
    · obtain rfl := List.mem_singleton.mp hq
      cases heff.rest hit₁ with
      | inl hit => exact ⟨part, s.plru.next, hself, rfl, hit⟩
      | inr h => exact absurd h.1 List.not_mem_nil
  · intro h' k q hit
    have hit := heff.kept hit
    by_cases hh : h' = s.plru.next
    · subst hh
      obtain ⟨-, rfl⟩ := Prod.mk.inj (Option.some.inj (hit₁.symm.trans hit))
      exact List.mem_append_right _ (List.mem_singleton.mpr rfl)
    · exact List.mem_append_left _ (hi.item ((hold₁ h' hh).symm.trans hit))
  · have hmap : s.pars.map s₂.keyOf = s.pars.map s.keyOf :=
      List.map_congr_left fun q hq => congrArg (Option.map PartitionBlock.key) (hpars hq)
    rw [show s₂.pars = s.pars ++ [s.next] from rfl, List.map_append, hmap]
    refine List.nodup_append'.mpr ⟨hi.keys, List.nodup_singleton _, ?_⟩
    intro k hk hk'
    obtain ⟨q, hq, rfl⟩ := List.mem_map.mp hk
    refine hkey q hq ((List.mem_singleton.mp hk').trans ?_)
    show (s₂.parts s.next).map PartitionBlock.key = _
    rw [hself, Option.map_some]
  · intro q part' hq
    by_cases hqn : q = s.next
    · rw [hqn]
      exact Nat.lt_succ_self _
    · exact Nat.lt_succ_of_lt (hi.fresh ((hother hqn).symm.trans hq))
  · intro q part' hq
    by_cases hqn : q = s.next
    · subst hqn
      obtain rfl := Option.some.inj (hself.symm.trans hq)
      obtain ⟨dir₂, hdir₂, hid⟩ := hk hdir (Nat.add_pos_left hpos _)
      exact ⟨dir₂, hdir₂, by rw [hid]⟩
    · rw [hother hqn] at hq
      have hq₂ : s₂.parts q = some part' := (hother hqn).trans hq
      have hpos' : 0 < s₂.partsOn part'.dir :=
        partsOn_pos hq₂ (Nat.lt_succ_of_lt (hi.fresh hq))
      obtain ⟨dir₁, hdir₁, hkey₁⟩ := hi.key hq
      obtain ⟨dir₂, hdir₂, hid⟩ := hk hdir₁ (Nat.add_pos_left hpos' _)
      exact ⟨dir₂, hdir₂, by rw [hid]; exact hkey₁⟩
  · intro t' q r ht'
    have hne : t' ≠ t := by
      rintro rfl
      cases (show s₂.threads t' = .running from Function.update_self ..).symm.trans ht'
    obtain ⟨hq, hlt, hr⟩ := hi.deleting ((Function.update_of_ne hne ..).symm.trans ht')
    refine ⟨fun hin => ?_, Nat.lt_succ_of_lt hlt, hr⟩
    rcases List.mem_append.mp hin with hin | hin
    · exact hq hin
    · rw [List.mem_singleton.mp hin] at hlt
      exact Nat.lt_irrefl _ hlt

/-- **`AcquirePartition`**, when it does not evict. A partition is found in the cache,
or in `pars_`, or it is new; in each case the caller has one reference more. -/
theorem Inv.acquirePartition (hi : s.Inv xx srvs) (ht : s.threads t = .running) {ix : Nat}
    (hroom : s.Roomy (t, .acquirePartition d ix)) (h : s.acquirePartition t d ix = some s') :
    s'.Inv xx srvs := by
  obtain ⟨dir, hdir, h⟩ := Option.bind_eq_some_iff.mp h
  have hroom : s.plru.table (lruKey dir.id ix) = none →
      (∀ p ∈ s.pars, s.keyOf p ≠ some (lruKey dir.id ix)) → ¬MustEvict s.plru := hroom dir hdir
  cases htable : s.plru.table (lruKey dir.id ix) with
  | some hd =>
    obtain ⟨p, hit, hlookup⟩ := hi.plru.lookup_some htable
    obtain ⟨c, hc, hcinv, heff, -⟩ := hlookup (fun q => (p :: s.held).count q)
      List.count_cons_self fun q hq => List.count_cons_of_ne (Ne.symm hq)
    have hit' : c.item hd = some (lruKey dir.id ix, p) := by
      cases heff.rest hit with
      | inl h => exact h
      | inr h => exact absurd h.1 List.not_mem_nil
    obtain ⟨e, he, -, rfl⟩ := LruCache.item_eq.mp hit'
    obtain ⟨part, -, hpart, -⟩ := hi.listed (hi.item hit)
    simp only [hc, he, hpart, Option.bind_eq_bind, Option.bind_some] at h
    split at h
    · obtain rfl := Option.some.inj h
      exact hi.setCache hcinv heff
    · cases h
  | none =>
    simp only [LruCache.lookup_none htable, Option.bind_eq_bind, Option.bind_some] at h
    split at h
    · rename_i p hp
      obtain ⟨part, -, h⟩ := Option.bind_eq_some_iff.mp h
      obtain ⟨hd, -, h⟩ := Option.bind_eq_some_iff.mp h
      obtain ⟨e, -, h⟩ := Option.bind_eq_some_iff.mp h
      split at h
      · exact hi.refPartition (List.mem_of_find?_eq_some hp) h
      · cases h
    · rename_i hnone
      have hkey : ∀ p ∈ s.pars, s.keyOf p ≠ some (lruKey dir.id ix) := fun p hp hk =>
        List.find?_eq_none.mp hnone p hp (decide_eq_true hk)
      exact hi.newPartition ht hdir htable hkey (hroom htable hkey) h

/-- **One step** that does not evict. A step of another thread in the middle of
`DeletePartition` cannot take away what somebody has. -/
theorem Inv.step (hi : s.Inv xx srvs) {op : PartitionOp} (hroom : s.Roomy (t, op))
    (h : s.step t op = some s') : s'.Inv xx srvs := by
  unfold Partitions.step at h
  split at h
  · obtain ⟨x, hx, rfl⟩ := Option.map_eq_some_iff.mp h
    exact hi.acquireDir hx
  · split at h
    · rename_i hd
      obtain ⟨dirs, hdirs, rfl⟩ := Option.map_eq_some_iff.mp h
      exact hi.releaseDir hd hdirs
    · cases h
  · rename_i ht
    split at h
    · exact hi.acquirePartition ht hroom h
    · cases h
  · split at h
    · rename_i hp
      exact hi.refPartition (hi.live hp) h
    · cases h
  · split at h
    · rename_i hp
      exact hi.releasePartition hp h
    · cases h
  · rename_i ht
    exact hi.resume ht h
  · cases h

/-- **An insertion that evicts** leaves its block without a handle, while other
threads go on. -/
theorem Inv.evicts (hi : s.Inv xx srvs) {k : Nat × PartitionOp} (hroom : ¬s.Roomy k)
    (h : s.step k.1 k.2 = some s') : ¬s'.Handled := by
  obtain ⟨t, op⟩ := k
  cases op with
  | acquirePartition d ix =>
    obtain ⟨dir, hdir, htable, hkey, hfull⟩ : ∃ dir, s.dirs.mem d = some dir ∧
        s.plru.table (lruKey dir.id ix) = none ∧
        (∀ p ∈ s.pars, s.keyOf p ≠ some (lruKey dir.id ix)) ∧ MustEvict s.plru := by
      simpa [Roomy] using hroom
    have hout := hi.next_not_mem
    have hnone : s.pars.find? (fun p => decide (s.keyOf p = some (lruKey dir.id ix))) = none :=
      List.find?_eq_none.mpr fun p hp hk => hkey p hp (of_decide_eq_true hk)
    have hacq : s.acquirePartition t d ix = some s' := by
      cases ht : s.threads t with
      | deleting p r =>
        simp only [Partitions.step, ht] at h
        cases h
      | running =>
        simp only [Partitions.step, ht] at h
        split at h
        · exact h
        · cases h
    obtain ⟨dirs, dir', href, -⟩ := hi.dirs.ref hdir
    obtain ⟨c₁, hins, hc₁, hit₁, hold₁, -, hcap₁⟩ := hi.insertBegin htable
    have hevict := (mustEvict_iff hins htable).mpr hfull
    simp only [Partitions.acquirePartition, hdir, LruCache.lookup_none htable, hnone,
      Partitions.newPartition, href, hins, insertLoop, if_pos hevict, Option.bind_eq_bind,
      Option.bind_some] at hacq
    obtain ⟨⟨c, vs⟩, hev, hacq⟩ := Option.bind_eq_some_iff.mp hacq
    obtain ⟨c', vs', hev', hc, heff, -⟩ := hc₁.evict (by
      intro hnil
      have hmust := hevict.2
      rw [LruCache.mustEvict, hnil, Bool.and_comm] at hmust
      cases hmust)
    obtain ⟨rfl, rfl⟩ := Prod.mk.inj (Option.some.inj (hev'.symm.trans hev))
    cases vs' with
    | nil => cases hacq
    | cons v vs =>
      -- the block of the evicted entry is another one
      have hunref := heff.unreferenced hc₁ hc (v := v) List.mem_cons_self
      have hvn : v ≠ s.next := by
        rintro rfl
        rw [List.count_cons_self] at hunref
        omega
      obtain ⟨h', k, hit, -⟩ := heff.gone (v := v) List.mem_cons_self
      have hne : h' ≠ s.plru.next := by
        rintro rfl
        exact hvn (Prod.mk.inj (Option.some.inj (hit.symm.trans hit₁))).2
      have hv := hi.item ((hold₁ h' hne).symm.trans hit)
      obtain ⟨part, hpart, hacq⟩ := Option.bind_eq_some_iff.mp hacq
      have hpartv : s.parts v = some part := (Function.update_of_ne hvn ..).symm.trans hpart
      have hkeyv := hkey v hv
      rw [keyOf, hpartv, Option.map_some] at hkeyv
      have hself : s'.parts s.next = some ⟨d, ix, none, lruKey dir.id ix⟩ := by
        obtain rfl := Option.some.inj hacq
        exact Function.update_self ..
      have hin : s.next ∈ s'.pars := by
        obtain rfl := Option.some.inj hacq
        refine (List.mem_eraseP_of_neg ?_).mpr (List.mem_append_right _ (List.mem_singleton.mpr rfl))
        intro hk
        have hk : (Function.update s.parts s.next
            (some ⟨d, ix, none, lruKey dir.id ix⟩) s.next).map PartitionBlock.key = some part.key :=
          of_decide_eq_true hk
        rw [Function.update_self, Option.map_some] at hk
        exact hkeyv hk.symm
      intro hh
      obtain ⟨h'', part', e, hpart', hhandle, -⟩ := hh.listed hin
      obtain rfl := Option.some.inj (hself.symm.trans hpart')
      cases hhandle
  | _ => exact absurd trivial hroom

/-- **Every block that can be found has its handle**, in every run in which no
new block goes into a full cache with an idle entry.

`DeletePartition` needs the handle, and `AcquirePartition` returns blocks that it finds
in `pars_`. Between the insertion of a block and the assignment of its handle the mutex
is dropped only if the insertion evicts something, so an insertion that does not is one
section of the mutex and keeps the invariant. `Inv.evicts` is the other direction: an
insertion that does evict leaves such a block at once. -/
theorem blocks_handled {size : Nat} {tr : List Unit} {s : Partitions}
    (hr : (system size).Run Roomy tr s) : s.Handled := by
  -- the indexes of the directories do not matter here
  have hi : s.Inv ⟨fun _ _ => 0, fun _ _ => 0⟩ 1 := by
    refine hr.invariant_state ?_ ?_
    · rintro s rfl
      exact Inv.empty _ _ size
    · intro s k s' es hi hroom h
      obtain ⟨s₁, h₁, heq⟩ := Option.map_eq_some_iff.mp h
      obtain ⟨rfl, -⟩ := Prod.mk.inj heq
      exact hi.step hroom h₁
  exact hi.handled

/-- Whether a step is `Roomy`. -/
def roomy (s : Partitions) (k : Nat × PartitionOp) : Bool :=
  match k.2 with
  | .acquirePartition d ix => (s.dirs.mem d).all fun dir =>
    (s.plru.table (lruKey dir.id ix)).isSome ||
      (s.pars.any fun p => decide (s.keyOf p = some (lruKey dir.id ix))) ||
      s.plru.capacity == 0 || decide (s.plru.usage < s.plru.capacity) || s.plru.lru.isEmpty
  | _ => true

theorem roomy_of {k : Nat × PartitionOp} (h : s.roomy k = true) : s.Roomy k := by
  obtain ⟨t, op⟩ := k
  cases op with
  | acquirePartition d ix =>
    rintro dir hdir htable hkey ⟨hcap, husage, hlru⟩
    have hany : (s.pars.any fun p => decide (s.keyOf p = some (lruKey dir.id ix))) = false :=
      List.any_eq_false.mpr fun p hp hk => hkey p hp (of_decide_eq_true hk)
    simp only [roomy, hdir, Option.all_some, htable, Option.isSome_none, hany, Bool.or_eq_true,
      Bool.false_eq_true, false_or, beq_iff_eq, decide_eq_true_eq, List.isEmpty_iff] at h
    rcases h with (h | h) | h
    · exact hcap h
    · omega
    · exact hlru h
  | _ => exact trivial

/-- A partition is made, released and acquired again. -/
def onePartition : List (Nat × PartitionOp) :=
  [(0, .acquireDir ⟨1, 1⟩), (0, .acquirePartition 0 0), (0, .release 0), (1, .acquirePartition 0 0)]

/-- A cache of one partition has room for it. -/
theorem blocks_handled_onePartition : ∃ tr s, (system 1).Run Roomy tr s ∧ s.Handled ∧
    s.pars = [0] ∧ s.held = [0] := by
  have hexec : ((system 1).exec roomy (empty 1) onePartition).map
      (fun x => (x.1.pars, x.1.held)) = some ([0], [0]) := by decide +kernel
  obtain ⟨⟨s, tr⟩, hx, hs⟩ := Option.map_eq_some_iff.mp hexec
  obtain ⟨hpars, hheld⟩ := Prod.mk.inj hs
  have hr := TransitionSystem.Run.exec (C := Roomy) (fun _ _ => roomy_of) (.init rfl) hx
  exact ⟨_, s, hr, blocks_handled hr, hpars, hheld⟩

/-- Another one is made while the first is idle. -/
def twoPartitions : List (Nat × PartitionOp) :=
  [(0, .acquireDir ⟨1, 1⟩), (0, .acquirePartition 0 0), (0, .release 0), (0, .acquirePartition 0 1)]

/-- The entry of the first partition is evicted, and `DeletePartition` lets go
of the mutex: the new block is in `pars_` without a handle, and the assertion of
a thread that acquires it fails. -/
theorem twoPartitions_unhandled : ∃ tr s, (system 1).Run (fun _ _ => True) tr s ∧ ¬s.Handled ∧
    s.step 1 (.acquirePartition 0 1) = none := by
  have hexec : ((system 1).exec (fun _ _ => true) (empty 1) twoPartitions).map
      (fun x => (x.1.pars, (x.1.parts 1).map PartitionBlock.lruHandle,
        (x.1.step 1 (.acquirePartition 0 1)).isSome)) = some ([1], some none, false) := by
    decide +kernel
  obtain ⟨⟨s, tr⟩, hx, hs⟩ := Option.map_eq_some_iff.mp hexec
  obtain ⟨hpars, hs⟩ := Prod.mk.inj hs
  obtain ⟨hhandle, hstep⟩ := Prod.mk.inj hs
  have hr := TransitionSystem.Run.exec (C := fun _ _ => True) (fun _ _ _ => trivial) (.init rfl) hx
  refine ⟨_, s, hr, fun hh => ?_, ?_⟩
  · have hin : 1 ∈ s.pars := by
      rw [show s.pars = [1] from hpars]
      exact List.mem_singleton.mpr rfl
    obtain ⟨h, part, e, hpart, hset, -⟩ := hh.listed hin
    have hhandle : (s.parts 1).map PartitionBlock.lruHandle = some none := hhandle
    rw [hpart, Option.map_some, hset] at hhandle
    cases hhandle
  · exact Option.isSome_eq_false_iff.mp hstep |> Option.isNone_iff_eq_none.mp

end Partitions

end FilesystemCli

end DeltaFs
