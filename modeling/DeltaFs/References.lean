import DeltaFs.Client

/-!
# The references of a client

`fscli.cc`: a client counts the references to its directories, to the
partitions of a directory, to the leases in a partition, and to the contexts of
its batches and bulk insertions. A partition references its directory, and so
does a context. A lease that has been handed out is referenced, and so is its
partition.

A partition is in the table `pars_`, and the recent ones are in the LRU cache
`plru_` as well, which holds the counts. `DeletePartition` runs when the last
reference to a partition is released, or when an idle one is evicted.

Counts are natural numbers here; those of the source have 32 bits, and each
reference they count belongs to an object on the heap. The invariant
`Memory.Inv xx srvs vs hd xp X` says that the counts are those of the
references that exist: `X` lists the leases that are handed out, `xp` counts the
other references to partitions and `hd` those to directories. `DeletePartition`
is still to run on the partitions `vs`.
-/

namespace DeltaFs

/-! ## The destructor of an LRU cache

It asserts that nobody has a reference to an entry, and deletes them all. For the cache of
the leases in a partition this is part of deleting the partition. -/

namespace LruCache

variable {V : Type} {c : LruCache V}

/-- What `~LRUCache` asserts: no entry is in use, and only the cache references
those of the LRU list. -/
structure Released (c : LruCache V) : Prop where
  inUse : ∀ {h e}, c.mem h = some e → h ∈ c.lru
  lru : ∀ {h}, h ∈ c.lru → ∃ e, c.mem h = some e ∧ e.refs = 1 ∧ e.inCache = true

/-- `~LRUCache`: the values that go to the deleter. An entry that loses its last
reference is deleted. -/
def destroy (c : LruCache V) : List V :=
  c.lru.filterMap fun h => (c.mem h).bind fun e => if e.refs - 1 = 0 then some e.value else none

/-- **A cache nobody references** can be destroyed. The destructor asserts of every
entry that the cache has the only reference, and of the list of entries in use that it
is empty. -/
theorem Inv.released (hi : c.Inv fun _ => 0) : c.Released := by
  have hone : ∀ {h e}, c.mem h = some e → e.refs = 1 ∧ e.inCache = true := by
    intro h e he
    have hrefs := hi.refs he
    have hpos := hi.pos he
    cases hc : e.inCache with
    | false =>
      rw [hc, Bool.toNat_false] at hrefs
      omega
    | true =>
      rw [hc, Bool.toNat_true] at hrefs
      exact ⟨hrefs, rfl⟩
  refine ⟨fun he => ?_, fun hl => ?_⟩
  · obtain ⟨hr, hc⟩ := hone he
    exact hi.idle.mpr ⟨_, he, hc, hr⟩
  · obtain ⟨e, he, hc, hr⟩ := hi.idle.mp hl
    exact ⟨e, he, hr, hc⟩

/-- All of its values go to the deleter. -/
theorem Inv.mem_destroy (hi : c.Inv fun _ => 0) {v : V} :
    v ∈ c.destroy ↔ ∃ h k, c.item h = some (k, v) := by
  rw [destroy, List.mem_filterMap]
  constructor
  · rintro ⟨h, -, hv⟩
    obtain ⟨e, he, hv⟩ := Option.bind_eq_some_iff.mp hv
    split at hv
    · cases hv
      exact ⟨h, e.key, item_eq.mpr ⟨e, he, rfl, rfl⟩⟩
    · cases hv
  · rintro ⟨h, k, hit⟩
    obtain ⟨e, he, -, rfl⟩ := item_eq.mp hit
    have hl := hi.released.inUse he
    obtain ⟨e', he', hr, -⟩ := hi.released.lru hl
    obtain rfl := Option.some.inj (he.symm.trans he')
    refine ⟨h, hl, ?_⟩
    rw [he, Option.bind_some, hr]
    rfl

/-- And each of them once. -/
theorem Inv.nodup_destroy (hi : c.Inv fun _ => 0) : c.destroy.Nodup := by
  refine hi.nodup.filterMap fun h h' v hv hv' => ?_
  obtain ⟨e, he, hv⟩ := Option.bind_eq_some_iff.mp hv
  obtain ⟨e', he', hv'⟩ := Option.bind_eq_some_iff.mp hv'
  refine hi.inj he he' ?_
  split at hv
  · split at hv'
    · cases hv
      exact (Option.some.inj hv').symm
    · cases hv'
  · cases hv

end LruCache

namespace FilesystemCli

/-! ## The memory of a client

What a client has on its heap: blocks of directories, partitions with their leases, contexts,
and the leases it has handed out. All of it is counted, and here each kind of count is named
once: who references what, and which function passes a reference on. -/

/-- `FilesystemCli::Partition`. -/
structure Partition where
  /-- the block of the directory -/
  dir : Nat
  index : Nat
  lruHandle : Nat
  /-- `cached_leases` and `leases` -/
  leases : Leases
  key : Slice

/-- The `dir` of the context of a lease, by the lease it belongs to. -/
structure ContextDir where
  part : Nat
  lease : Nat
  dir : Nat
  deriving DecidableEq

/-- A lease that has been handed out, with what of it never changes. -/
structure LeaseRef where
  part : Nat
  lease : Nat
  mode : LokupMode
  rep : LookupStat

/-- What a client keeps references to. -/
structure Memory where
  dirs : Dirs
  /-- `plru_` -/
  plru : LruCache Nat
  /-- `pars_` -/
  pars : Slice → Option Nat
  /-- the partitions, by pointer -/
  parts : Nat → Option Partition
  /-- the next pointer the allocator returns -/
  next : Nat
  /-- the contexts of batches and bulk insertions -/
  contexts : List ContextDir
  /-- the emptiness assertions on the way have held -/
  asserted : Prop

/-- `LRUKey`. -/
def lruKey (id : DirId) (partitionNo : Nat) : Slice :=
  id.key ++ encodeFixed32 (UInt32.ofNat partitionNo)

/-- `delete part->cached_leases`: `DeleteLease` runs on the leases in the
cache. -/
def Leases.deleteCached (t : Leases) : Leases := (t.deleteLeases t.cached.destroy).1

namespace Memory

/-! ### Deleting and acquiring

The functions on partitions and directories. A cache operation that drops partitions passes them
to `DeletePartition`, which gives back their references to directories; `asserted` collects what
it asserts on the way, so that an assertion that fails is seen at the end of a run. -/

/-- The memory of a new client. -/
def empty (partitionLruSize : Nat) : Memory where
  dirs := Dirs.empty
  plru := LruCache.empty partitionLruSize
  pars _ := none
  parts _ := none
  next := 0
  contexts := []
  asserted := True

/-- The partition at `p` now has the leases `t`. -/
def setLeases (s : Memory) (p : Nat) (part : Partition) (t : Leases) : Memory :=
  { s with parts := Function.update s.parts p (some { part with leases := t }) }

/-- `DeletePartition`. -/
def deletePartition (s : Memory) (p : Nat) : Option Memory := do
  let part ← s.parts p
  let dirs ← s.dirs.release part.dir
  some { s with
    dirs := dirs
    pars := Function.update s.pars part.key none
    parts := Function.update s.parts p none
    asserted := s.asserted ∧ part.leases.cached.Released ∧
      ∀ k, part.leases.deleteCached.table k = none }

/-- The deleter, on all the partitions a cache operation dropped. -/
def deletePartitions (s : Memory) : List Nat → Option Memory
  | [] => some s
  | p :: ps => do
    let s ← s.deletePartition p
    s.deletePartitions ps

/-- `Release(Dir*)`. -/
def releaseDir (s : Memory) (d : Nat) : Option Memory :=
  (s.dirs.release d).map fun dirs => { s with dirs := dirs }

/-- `Release(Partition*)`. -/
def releasePartition (s : Memory) (p : Nat) : Option Memory := do
  let part ← s.parts p
  let (c, vs) ← s.plru.release part.lruHandle
  { s with plru := c }.deletePartitions vs

/-- `Ref`. -/
def refPartition (s : Memory) (p : Nat) : Option Memory := do
  let part ← s.parts p
  let c ← s.plru.ref part.lruHandle
  some { s with plru := c }

/-- The end of `AcquirePartition`: a new partition. The block knows its handle
before those that are evicted are deleted. -/
def newPartition (s : Memory) (leaseLruSize d ix : Nat) (key : Slice) : Option (Memory × Nat) := do
  let p := s.next
  let dirs ← s.dirs.ref d
  let (c, h, vs) ← s.plru.insert key p 1
  let s ← { s with
    dirs := dirs
    plru := c
    pars := Function.update s.pars key (some p)
    parts := Function.update s.parts p (some ⟨d, ix, h, Leases.empty leaseLruSize, key⟩)
    next := p + 1 }.deletePartitions vs
  some (s, p)

/-- `AcquirePartition`. -/
def acquirePartition (s : Memory) (leaseLruSize d ix : Nat) : Option (Memory × Nat) := do
  let dir ← s.dirs.mem d
  let key := lruKey dir.id ix
  match ← s.plru.lookup key with
  | (c, some h) =>
    let e ← c.mem h
    some ({ s with plru := c }, e.value)
  | (_, none) =>
    match s.pars key with
    | some p => (s.refPartition p).map fun s => (s, p)
    | none => s.newPartition leaseLruSize d ix key

/-- `AcquireAndFetch`: the directory, and the index of the partition that holds
a name. Without a name no index is computed, and none is used. -/
def acquireAndFetch (s : Memory) (xx : XXHash) (srvs : Nat) (id : DirId) (name : Slice) :
    Option (Memory × Nat × Nat) := do
  let (dirs, d) ← s.dirs.acquireDir id
  let (dirs, i) ← dirs.fetch xx srvs d name
  some ({ s with dirs := dirs }, d, i.getD 0)

end Memory

/-! ## The invariant

Each count is a sum: of a directory, over the partitions, the contexts and what the caller
holds; of a partition, over the leases that have been handed out and what the caller holds. -/

/-- The number of leases of the partition at `p` that are handed out. -/
def partRefs (X : List LeaseRef) (p : Nat) : Nat := X.countP fun r => r.part = p

/-- The number of times the lease at `l` is handed out. -/
def leaseRefs (X : List LeaseRef) (p l : Nat) : Nat := X.countP fun r => r.part = p ∧ r.lease = l

/-- The contexts are those of the leases of batches and bulk insertions. -/
structure Attached (parts : Nat → Option Partition) (contexts : List ContextDir) : Prop where
  lease : ∀ {c}, c ∈ contexts → ∃ part lease, parts c.part = some part ∧
    part.leases.mem c.lease = some lease ∧ lease.mode ≠ .kRegular
  context : ∀ {p l part lease}, parts p = some part → part.leases.mem l = some lease →
    lease.mode ≠ .kRegular → ∃ d, (⟨p, l, d⟩ : ContextDir) ∈ contexts
  distinct : (contexts.map fun c => (c.part, c.lease)).Nodup

namespace Memory

/-- The number of partitions of the directory at `d`. -/
def partsOn (s : Memory) (d : Nat) : Nat :=
  (List.range s.next).countP fun p => (s.parts p).any fun part => part.dir = d

/-- The number of contexts on the directory at `d`. -/
def contextsOn (s : Memory) (d : Nat) : Nat := s.contexts.countP fun c => c.dir = d

/-- The invariant of the memory of a client. -/
structure Inv (xx : XXHash) (srvs : Nat) (vs : List Nat) (hd xp : Nat → Nat) (X : List LeaseRef)
    (s : Memory) : Prop where
  dirs : s.dirs.Inv xx srvs fun d => s.partsOn d + s.contextsOn d + hd d
  plru : s.plru.Inv fun p => xp p + partRefs X p
  indexed : Registry.Indexed Partition.key s.pars s.parts
  /-- a partition knows its entry of the cache -/
  handle : ∀ {p part}, s.parts p = some part → p ∉ vs →
    s.plru.item part.lruHandle = some (part.key, p)
  /-- and every entry stands for a partition -/
  item : ∀ {h k p}, s.plru.item h = some (k, p) → p ∉ vs ∧ ∃ part, s.parts p = some part
  /-- nobody references a partition that is about to be deleted -/
  doomed : ∀ {p}, p ∈ vs → xp p + partRefs X p = 0 ∧ ∃ part, s.parts p = some part
  fresh : ∀ {p part}, s.parts p = some part → p < s.next
  leases : ∀ {p part}, s.parts p = some part →
    Leases.Inv (fun _ _ _ => True) part.leases (leaseRefs X p)
  held : ∀ r ∈ X, ∃ part lease, s.parts r.part = some part ∧
    part.leases.mem r.lease = some lease ∧ lease.mode = r.mode ∧ lease.rep = r.rep
  attached : Attached s.parts s.contexts
  asserted : s.asserted

end Memory

/-! ## Counting

How the sums change when one of the things that are counted does. After that each operation
has one lemma, which gives the new values of the parameters. -/

/-- Counting below `n`, after a change at one place. -/
theorem countP_range_update {f g : Nat → Bool} {p n : Nat} (hp : p < n)
    (h : ∀ q, q ≠ p → g q = f q) :
    (List.range n).countP g + (f p).toNat = (List.range n).countP f + (g p).toNat := by
  induction n with
  | zero => cases hp
  | succ n ih =>
    rw [List.range_succ, List.countP_append, List.countP_append, List.countP_singleton,
      List.countP_singleton]
    by_cases hn : p = n
    · subst hn
      have heq : (List.range p).countP g = (List.range p).countP f := by
        refine List.countP_congr fun q hq => ?_
        rw [h q (Nat.ne_of_lt (List.mem_range.mp hq))]
      rw [heq]
      cases f p <;> cases g p <;> simp
    · have hprev := ih (by omega)
      rw [h n (Ne.symm hn)]
      omega

/-- Counting what is in a memory, after one place has been written. -/
theorem countP_any_update {α : Type} {mem mem' : Nat → Option α} {p n : Nat} {o : Option α}
    (P : α → Bool) (hp : p < n) (h : mem' = Function.update mem p o) :
    (List.range n).countP (fun q => (mem' q).any P) + ((mem p).any P).toNat =
      (List.range n).countP (fun q => (mem q).any P) + (o.any P).toNat := by
  have hcount := countP_range_update (f := fun q => (mem q).any P) (g := fun q => (mem' q).any P) hp
    fun q hq => by rw [h, Function.update_of_ne hq]
  rw [hcount, h, Function.update_self]

/-- The same after the next place has been. -/
theorem countP_any_new {α : Type} {mem mem' : Nat → Option α} {n : Nat} {a : α} (P : α → Bool)
    (h : mem' = Function.update mem n (some a)) :
    (List.range (n + 1)).countP (fun q => (mem' q).any P) =
      (List.range n).countP (fun q => (mem q).any P) + (P a).toNat := by
  have hold : (List.range n).countP (fun q => (mem' q).any P) =
      (List.range n).countP fun q => (mem q).any P := by
    refine List.countP_congr fun q hq => ?_
    rw [h, Function.update_of_ne (Nat.ne_of_lt (List.mem_range.mp hq))]
  rw [List.range_succ, List.countP_append, hold, List.countP_singleton, h, Function.update_self,
    Option.any_some]
  cases P a <;> rfl

/-- One reference more to `d`. -/
theorem update_add_one {f g : Nat → Nat} {d : Nat}
    (h : ∀ q, g q = f q + (decide (d = q)).toNat) : Function.update f d (f d + 1) = g := by
  funext q
  by_cases hq : q = d
  · subst hq
    rw [Function.update_self, h, decide_eq_true rfl]
    rfl
  · rw [Function.update_of_ne hq, h, decide_eq_false (Ne.symm hq)]
    rfl

/-- One reference less. -/
theorem update_sub_one {f g : Nat → Nat} {d : Nat}
    (h : ∀ q, g q + (decide (d = q)).toNat = f q) : Function.update f d (f d - 1) = g := by
  funext q
  by_cases hq : q = d
  · subst hq
    rw [Function.update_self, ← h, decide_eq_true rfl]
    exact Nat.add_sub_cancel _ 1
  · rw [Function.update_of_ne hq, ← h, decide_eq_false (Ne.symm hq)]
    rfl

theorem leaseRefs_le (X : List LeaseRef) (p l : Nat) : leaseRefs X p l ≤ partRefs X p :=
  List.countP_mono_left fun r _ h => by
    rw [decide_eq_true_iff] at h ⊢
    exact h.1

theorem leaseRefs_pos {X : List LeaseRef} {r : LeaseRef} (hr : r ∈ X) :
    0 < leaseRefs X r.part r.lease :=
  List.countP_pos_iff.mpr ⟨r, hr, by simp⟩

/-- One more reference to a lease. -/
theorem leaseRefs_cons (r : LeaseRef) (X : List LeaseRef) :
    leaseRefs (r :: X) r.part = Leases.more (leaseRefs X r.part) r.lease := by
  funext l
  rw [leaseRefs, List.countP_cons]
  by_cases hl : l = r.lease
  · subst hl
    simp [leaseRefs]
  · rw [Leases.more_of_ne _ hl]
    simp [leaseRefs, Ne.symm hl]

/-- One reference less. -/
theorem leaseRefs_tail (r : LeaseRef) (X : List LeaseRef) :
    leaseRefs X r.part r.lease + 1 = leaseRefs (r :: X) r.part r.lease ∧
      ∀ q, q ≠ r.lease → leaseRefs X r.part q = leaseRefs (r :: X) r.part q := by
  rw [leaseRefs_cons]
  exact ⟨(Leases.more_self ..).symm, fun q hq => (Leases.more_of_ne _ hq).symm⟩

theorem leaseRefs_cons_of_ne {p : Nat} (r : LeaseRef) (X : List LeaseRef) (hp : p ≠ r.part) :
    leaseRefs (r :: X) p = leaseRefs X p := by
  funext l
  rw [leaseRefs, List.countP_cons]
  simp [leaseRefs, Ne.symm hp]

theorem partRefs_cons (r : LeaseRef) (X : List LeaseRef) :
    partRefs (r :: X) = Leases.more (partRefs X) r.part := by
  funext p
  rw [partRefs, List.countP_cons]
  by_cases hp : p = r.part
  · subst hp
    simp [partRefs]
  · rw [Leases.more_of_ne _ hp]
    simp [partRefs, Ne.symm hp]

namespace Leases

variable {t : Leases}

/-! ## Functions and their references

Each function keeps the invariant, with the parameters changed by what it passes to its caller
or takes from it. In between a cache operation and the deletion of what it has dropped, the list
of doomed partitions is not empty. -/

/-- **A partition nobody has a lease of** can be destroyed: its table is empty
once its cache is gone. -/
theorem Core.deleteCached_empty (hi : Core t fun _ => 0) (k : Slice) :
    t.deleteCached.table k = none := by
  obtain ⟨t', ds, he, hd⟩ := hi.listed.deleteLeases t.cached.destroy
  rw [deleteCached, he]
  cases hk : t'.table k with
  | none => rfl
  | some l =>
    obtain ⟨lease, hl, -, -⟩ := (hd.listed k l).mp hk
    rw [hd.mem] at hl
    split at hl
    · cases hl
    · rename_i hno
      exact absurd (hi.lru.mem_destroy.mpr ⟨_, _, hi.handle hl⟩) hno

end Leases

namespace Dirs

/-- The same references, counted another way. -/
theorem Inv.congr {xx : XXHash} {srvs : Nat} {t : Dirs} {ext ext' : Nat → Nat}
    (hi : t.Inv xx srvs ext) (h : ∀ d, ext' d = ext d) : t.Inv xx srvs ext' := by
  rw [funext h]
  exact hi

end Dirs

namespace Memory

variable {xx : XXHash} {srvs : Nat} {vs : List Nat} {hd xp xp' : Nat → Nat} {X : List LeaseRef}
  {s s' : Memory} {p d : Nat} {part : Partition}

theorem Inv.empty (xx : XXHash) (srvs partitionLruSize : Nat) :
    (Memory.empty partitionLruSize).Inv xx srvs [] (fun _ => 0) (fun _ => 0) [] where
  dirs := Dirs.Inv.empty xx srvs
  plru := LruCache.Inv.empty _ fun _ => rfl
  indexed := Registry.Indexed.empty _
  handle hp := by cases hp
  item hit := by cases hit
  doomed hp := by cases hp
  fresh hp := by cases hp
  leases hp := by cases hp
  held r hr := by cases hr
  attached :=
    { lease := fun hc => by cases hc
      context := fun hp => by cases hp
      distinct := List.nodup_nil }
  asserted := trivial

/-- The partitions of a directory, after a partition has come or gone. -/
theorem partsOn_update {o : Option Partition} (hp : p < s.next)
    (hs : s'.parts = Function.update s.parts p o) (hnext : s'.next = s.next) (d : Nat) :
    s'.partsOn d + ((s.parts p).any fun part => part.dir = d).toNat =
      s.partsOn d + (o.any fun part => part.dir = d).toNat := by
  rw [partsOn, partsOn, hnext]
  exact countP_any_update _ hp hs

/-- **`DeletePartition`** frees a partition nobody references, and drops its
reference to the directory. Its leases are gone by then. -/
theorem Inv.deletePartition (hi : s.Inv xx srvs (p :: vs) hd xp X) (hnew : p ∉ vs) :
    ∃ s', s.deletePartition p = some s' ∧ s'.Inv xx srvs vs hd xp X := by
  obtain ⟨hzero, part, hp⟩ := hi.doomed (List.mem_cons_self ..)
  have hlt := hi.fresh hp
  have hrefs : leaseRefs X p = fun _ => 0 := by
    funext l
    have hle := leaseRefs_le X p l
    show leaseRefs X p l = 0
    omega
  have hleases := hi.leases hp
  rw [hrefs] at hleases
  -- the directory has this partition at least
  have hpos : 0 < s.partsOn part.dir :=
    List.countP_pos_iff.mpr ⟨p, List.mem_range.mpr hlt, by rw [hp]; simp⟩
  obtain ⟨dirs, hrel, hdirs, -⟩ := hi.dirs.release (p := part.dir)
    (Nat.add_pos_left (Nat.add_pos_left hpos _) _)
  -- what is left are the other partitions, as they were
  have hparts : ∀ {q part'}, Function.update s.parts p none q = some part' →
      q ≠ p ∧ s.parts q = some part' := by
    intro q part' hq
    have hqp : q ≠ p := by
      rintro rfl
      rw [Function.update_self] at hq
      cases hq
    exact ⟨hqp, (Function.update_of_ne hqp ..).symm.trans hq⟩
  have hother : ∀ {q}, q ≠ p → Function.update s.parts p none q = s.parts q := fun hq =>
    Function.update_of_ne hq ..
  let s' : Memory := { s with
    dirs := dirs
    pars := Function.update s.pars part.key none
    parts := Function.update s.parts p none
    asserted := s.asserted ∧ part.leases.cached.Released ∧
      ∀ k, part.leases.deleteCached.table k = none }
  refine ⟨s', ?_, ⟨?_, hi.plru, hi.indexed.remove hp, ?_, ?_, ?_, ?_, ?_, ?_, ⟨?_, ?_, ?_⟩, ?_⟩⟩
  · simp only [Memory.deletePartition, hp, hrel, Option.bind_eq_bind, Option.bind_some]
    rfl
  · have hrefs : ∀ d, s'.partsOn d + s.contextsOn d + hd d + (decide (part.dir = d)).toNat =
        s.partsOn d + s.contextsOn d + hd d := by
      intro d
      have hcount := partsOn_update hlt
        (show s'.parts = Function.update s.parts p none from rfl) rfl d
      rw [hp, Option.any_some, Option.any_none, Bool.toNat_false] at hcount
      omega
    exact hdirs.congr fun d => (congrFun (update_sub_one hrefs) d).symm
  · intro q part' hq hin
    obtain ⟨hqp, hq⟩ := hparts hq
    exact hi.handle hq (List.not_mem_cons_of_ne_of_not_mem hqp hin)
  · intro h k q hit
    obtain ⟨hin, part', hq⟩ := hi.item hit
    have hqp := List.ne_of_not_mem_cons hin
    exact ⟨List.not_mem_of_not_mem_cons hin, part', (hother hqp).trans hq⟩
  · intro q hq
    obtain ⟨hz, part', hq'⟩ := hi.doomed (List.mem_cons_of_mem _ hq)
    have hqp : q ≠ p := fun h => hnew (h ▸ hq)
    exact ⟨hz, part', (hother hqp).trans hq'⟩
  · intro q part' hq
    exact hi.fresh (hparts hq).2
  · intro q part' hq
    exact hi.leases (hparts hq).2
  · intro r hr
    obtain ⟨part', lease, hq, hrest⟩ := hi.held r hr
    have hqp : r.part ≠ p := by
      intro h
      have hle := leaseRefs_le X p r.lease
      have hpos := leaseRefs_pos hr
      rw [h] at hpos
      omega
    exact ⟨part', lease, (hother hqp).trans hq, hrest⟩
  · intro c hc
    obtain ⟨part', lease, hq, hl, hmode⟩ := hi.attached.lease hc
    have hqp : c.part ≠ p := by
      intro h
      rw [h, hp] at hq
      cases hq
      exact absurd ((hleases.ok hl).pos hmode) (Nat.lt_irrefl 0)
    exact ⟨part', lease, (hother hqp).trans hq, hl, hmode⟩
  · intro q l part' lease hq
    exact hi.attached.context (hparts hq).2
  · exact hi.attached.distinct
  · exact ⟨hi.asserted, hleases.lru.released, hleases.toCore.deleteCached_empty⟩

theorem Inv.deletePartitions (hi : s.Inv xx srvs vs hd xp X) (hvs : vs.Nodup) :
    ∃ s', s.deletePartitions vs = some s' ∧ s'.Inv xx srvs [] hd xp X := by
  induction vs generalizing s with
  | nil => exact ⟨s, rfl, hi⟩
  | cons p vs ih =>
    obtain ⟨hnew, hvs⟩ := List.nodup_cons.mp hvs
    obtain ⟨s₁, h₁, hi₁⟩ := hi.deletePartition hnew
    obtain ⟨s', h', hi'⟩ := ih hi₁ hvs
    refine ⟨s', ?_, hi'⟩
    simp only [Memory.deletePartitions, h₁, h', Option.bind_eq_bind, Option.bind_some]

/-- **The cache of the partitions changed**, and those it dropped are about to
be deleted. -/
theorem Inv.cache (hi : s.Inv xx srvs [] hd xp X) {c : LruCache Nat}
    (hc : c.Inv fun p => xp' p + partRefs X p) (heff : s.plru.Effect c vs) :
    ({ s with plru := c } : Memory).Inv xx srvs vs hd xp' X where
  dirs := hi.dirs
  plru := hc
  indexed := hi.indexed
  handle {p part} hp hin := by
    cases heff.rest (hi.handle hp List.not_mem_nil) with
    | inl hit => exact hit
    | inr h => exact absurd h.1 hin
  item hit := ⟨heff.live hi.plru hit, (hi.item (heff.kept hit)).2⟩
  doomed {p} hin := by
    obtain ⟨h', k', hit', -⟩ := heff.gone hin
    exact ⟨heff.unreferenced hi.plru hc hin, (hi.item hit').2⟩
  fresh := hi.fresh
  leases := hi.leases
  held := hi.held
  attached := hi.attached
  asserted := hi.asserted

/-- A partition that is referenced is there. -/
theorem Inv.live (hi : s.Inv xx srvs vs hd xp X) (hp : 0 < xp p + partRefs X p) :
    ∃ part, s.parts p = some part := by
  obtain ⟨h, e, he, rfl⟩ := hi.plru.held hp
  exact (hi.item (LruCache.item_eq.mpr ⟨e, he, rfl, rfl⟩)).2

/-- **`Release(Partition*)`**. -/
theorem Inv.releasePartition (hi : s.Inv xx srvs [] hd xp' X) (hp : xp p + 1 = xp' p)
    (hother : ∀ q, q ≠ p → xp q = xp' q) :
    ∃ s', s.releasePartition p = some s' ∧ s'.Inv xx srvs [] hd xp X := by
  obtain ⟨part, hpart⟩ := hi.live (p := p) (by omega)
  have hself : xp p + partRefs X p + 1 = xp' p + partRefs X p := by omega
  obtain ⟨c, vs, hrel, hc, heff, -, -⟩ : ∃ c vs, s.plru.release part.lruHandle = some (c, vs) ∧
      (c.Inv fun p => xp p + partRefs X p) ∧ s.plru.Effect c vs ∧ c.table = s.plru.table ∧
      ∀ w ∈ vs, w = p :=
    hi.plru.release (hi.handle hpart List.not_mem_nil) hself
      fun q hq => congrArg (· + partRefs X q) (hother q hq)
  obtain ⟨s', hdel, hi'⟩ := (hi.cache hc heff).deletePartitions (LruCache.unref_nodup hrel)
  refine ⟨s', ?_, hi'⟩
  simp only [Memory.releasePartition, hpart, hrel, hdel, Option.bind_eq_bind, Option.bind_some]

/-- **`Ref`**. -/
theorem Inv.refPartition (hi : s.Inv xx srvs [] hd xp X) (hpart : s.parts p = some part) :
    ∃ s', s.refPartition p = some s' ∧ s'.Inv xx srvs [] hd (Leases.more xp p) X := by
  obtain ⟨c, href, hc, heff, -⟩ : ∃ c, s.plru.ref part.lruHandle = some c ∧
      (c.Inv fun q => Leases.more xp p q + partRefs X q) ∧ s.plru.Effect c [] ∧
      c.table = s.plru.table :=
    hi.plru.ref (hi.handle hpart List.not_mem_nil) (by rw [Leases.more_self]; omega)
      fun q hq => by rw [Leases.more_of_ne _ hq]
  refine ⟨_, ?_, hi.cache hc heff⟩
  simp only [Memory.refPartition, hpart, href, Option.bind_eq_bind, Option.bind_some]

/-- The references to directories changed. -/
theorem Inv.setDirs {hd' : Nat → Nat} {dirs : Dirs} (hi : s.Inv xx srvs vs hd xp X)
    (hdirs : dirs.Inv xx srvs fun d => s.partsOn d + s.contextsOn d + hd' d) :
    ({ s with dirs := dirs } : Memory).Inv xx srvs vs hd' xp X :=
  { hi with dirs := hdirs }

/-- **`Release(Dir*)`**. -/
theorem Inv.releaseDir (hi : s.Inv xx srvs vs (Leases.more hd d) xp X) :
    ∃ s', s.releaseDir d = some s' ∧ s'.Inv xx srvs vs hd xp X := by
  obtain ⟨dirs, hrel, hdirs, -⟩ := hi.dirs.release (p := d)
    (by rw [Leases.more_self]; omega)
  refine ⟨_, ?_, hi.setDirs (hdirs.congr fun q => ?_)⟩
  · rw [Memory.releaseDir, hrel, Option.map_some]
  · by_cases hq : q = d
    · rw [hq, Function.update_self, Leases.more_self]
      omega
    · rw [Function.update_of_ne hq, Leases.more_of_ne _ hq]

/-- **`AcquireAndFetch`** returns a referenced directory. A directory that has no index yet
gets one, and nothing can fail. -/
theorem Inv.acquireAndFetch (hi : s.Inv xx srvs vs hd xp X) (id : DirId) (name : Slice) :
    ∃ s' d i dir, s.acquireAndFetch xx srvs id name = some (s', d, i) ∧
      s'.Inv xx srvs vs (Leases.more hd d) xp X ∧ s'.dirs.mem d = some dir ∧
      s'.parts = s.parts ∧ s'.contexts = s.contexts := by
  obtain ⟨dirs₁, d, dir₁, hacq, hd₁, hm₁, -⟩ := hi.dirs.acquireDir id
  obtain ⟨dirs, i, dir, hfetch, hd₂, hm, -⟩ := hd₁.fetch hm₁ name
  refine ⟨_, d, i.getD 0, dir, ?_, hi.setDirs (hd₂.congr fun q => ?_), hm, rfl, rfl⟩
  · simp only [Memory.acquireAndFetch, hacq, hfetch, Option.bind_eq_bind, Option.bind_some]
  · by_cases hq : q = d
    · rw [hq, Function.update_self, Leases.more_self]
      omega
    · rw [Function.update_of_ne hq, Leases.more_of_ne _ hq]

theorem Inv.parts_next (hi : s.Inv xx srvs vs hd xp X) : s.parts s.next = none := by
  cases hn : s.parts s.next with
  | none => rfl
  | some part => exact absurd (hi.fresh hn) (Nat.lt_irrefl _)

theorem Inv.refs_next (hi : s.Inv xx srvs vs hd xp X) :
    xp s.next + partRefs X s.next = 0 := by
  by_contra hne
  obtain ⟨part, hp⟩ := hi.live (Nat.pos_of_ne_zero hne)
  rw [hi.parts_next] at hp
  cases hp

/-- The partitions of a directory, with a new one. -/
theorem partsOn_new (hpart : s'.parts = Function.update s.parts s.next (some part))
    (hnext : s'.next = s.next + 1) (q : Nat) :
    s'.partsOn q = s.partsOn q + (decide (part.dir = q)).toNat := by
  rw [partsOn, partsOn, hnext]
  exact countP_any_new _ hpart

/-- The next pointer is no partition of the cache. -/
theorem Inv.value_ne_next (hi : s.Inv xx srvs vs hd xp X) {h : Nat} {k : Slice} {q : Nat}
    (hit : s.plru.item h = some (k, q)) : q ≠ s.next := by
  rintro rfl
  obtain ⟨part, hp⟩ := (hi.item hit).2
  rw [hi.parts_next] at hp
  cases hp

/-- The memory with a new partition, in the cache too: the partitions `vs` that the cache has
evicted for it are still there, and are deleted next. -/
theorem Inv.entered (hi : s.Inv xx srvs [] hd xp X) (part : Partition) {dirs : Dirs}
    {c : LruCache Nat} {leaseLruSize : Nat} (hkey : s.pars part.key = none) (hhandle : part.lruHandle = s.plru.next)
    (hleases : part.leases = Leases.empty leaseLruSize)
    (hdirs : dirs.Inv xx srvs (Function.update (fun q => s.partsOn q + s.contextsOn q + hd q)
      part.dir (s.partsOn part.dir + s.contextsOn part.dir + hd part.dir + 1)))
    (hc : c.Inv fun q => Leases.more xp s.next q + partRefs X q)
    (hI : LruCache.Inserted s.plru c part.key s.next vs) :
    Inv xx srvs vs hd (Leases.more xp s.next) X { s with
      dirs := dirs
      plru := c
      pars := Function.update s.pars part.key (some s.next)
      parts := Function.update s.parts s.next (some part)
      next := s.next + 1 } := by
  have hzero := hi.refs_next
  have hself : s.next ∉ vs := by
    intro hin
    obtain ⟨h, k, hit, -⟩ := hI.gone hin
    exact hi.value_ne_next hit rfl
  -- what the cache drops to make room is not what it still has
  have hlive : ∀ {h k q}, c.item h = some (k, q) → q ∉ vs := fun hit =>
    hI.live hi.plru (fun h k hit => hi.value_ne_next hit rfl) hit
  have hparts : ∀ {q part'}, Function.update s.parts s.next (some part) q = some part' →
      q = s.next ∧ part' = part ∨ q ≠ s.next ∧ s.parts q = some part' := by
    intro q part' hq
    by_cases hqn : q = s.next
    · subst hqn
      rw [Function.update_self] at hq
      exact .inl ⟨rfl, (Option.some.inj hq).symm⟩
    · exact .inr ⟨hqn, (Function.update_of_ne hqn ..).symm.trans hq⟩
  have hold : ∀ {q part'}, s.parts q = some part' →
      Function.update s.parts s.next (some part) q = some part' := fun hq =>
    (Function.update_of_ne (Nat.ne_of_lt (hi.fresh hq)) ..).trans hq
  -- the new partition is one reference more to its directory
  have hrefs : ∀ {s₁ : Memory}, s₁.parts = Function.update s.parts s.next (some part) →
      s₁.next = s.next + 1 → ∀ q, s₁.partsOn q + s.contextsOn q + hd q =
        s.partsOn q + s.contextsOn q + hd q + (decide (part.dir = q)).toNat := by
    intro s₁ hs₁ hnext q
    have hcount := partsOn_new hs₁ hnext q
    omega
  refine ⟨hdirs.congr fun q => (congrFun (update_add_one (hrefs rfl rfl)) q).symm, hc,
    hi.indexed.insert rfl hkey hi.parts_next, ?_, ?_, ?_, ?_, ?_, ?_,
    ⟨?_, ?_, hi.attached.distinct⟩, hi.asserted⟩
  · intro q part' hq hin
    rcases hparts hq with ⟨rfl, rfl⟩ | ⟨-, hq⟩
    · rw [hhandle]
      exact hI.new
    · cases hI.rest (hi.handle hq List.not_mem_nil) with
      | inl hit => exact hit
      | inr h => exact absurd h.1 hin
  · intro h k q hit
    by_cases hh : h = s.plru.next
    · subst hh
      rw [show c.item s.plru.next = some (part.key, s.next) from hI.new] at hit
      cases hit
      exact ⟨hself, part, Function.update_self ..⟩
    · obtain ⟨part', hq⟩ := (hi.item (hI.kept hh hit)).2
      exact ⟨hlive hit, part', hold hq⟩
  · intro q hin
    obtain ⟨h, k, hit, -⟩ := hI.gone hin
    obtain ⟨part', hq⟩ := (hi.item hit).2
    have hunref := hI.unreferenced hi.plru hc (fun h k hit => hi.value_ne_next hit rfl) hin
    exact ⟨hunref, part', hold hq⟩
  · intro q part' hq
    rcases hparts hq with ⟨rfl, -⟩ | ⟨-, hq⟩
    · exact Nat.lt_succ_self _
    · exact Nat.lt_succ_of_lt (hi.fresh hq)
  · intro q part' hq
    rcases hparts hq with ⟨rfl, rfl⟩ | ⟨-, hq⟩
    · have hrefs : leaseRefs X s.next = fun _ => 0 := by
        funext l
        have hle := leaseRefs_le X s.next l
        show leaseRefs X s.next l = 0
        omega
      rw [hrefs, hleases]
      exact Leases.Inv.empty _ _
    · exact hi.leases hq
  · intro r hr
    obtain ⟨part', lease, hq, hrest⟩ := hi.held r hr
    exact ⟨part', lease, hold hq, hrest⟩
  · intro c hc
    obtain ⟨part', lease, hq, hrest⟩ := hi.attached.lease hc
    exact ⟨part', lease, hold hq, hrest⟩
  · intro q l part' lease hq hl
    rcases hparts hq with ⟨rfl, rfl⟩ | ⟨-, hq⟩
    · rw [hleases] at hl
      cases hl
    · exact hi.attached.context hq hl

/-- **A new partition**, with one reference, and one more to its directory. The cache may
evict partitions for it, which are then deleted, and give the references to their
directories back. -/
theorem Inv.newPartition (hi : s.Inv xx srvs [] hd xp X) {dir : Dir}
    (hdir : s.dirs.mem d = some dir) {key : Slice} (hkey : s.pars key = none)
    (hplru : s.plru.table key = none) (leaseLruSize ix : Nat) :
    ∃ s', s.newPartition leaseLruSize d ix key = some (s', s.next) ∧
      s'.Inv xx srvs [] hd (Leases.more xp s.next) X := by
  obtain ⟨dirs, dir', href, hdirs, -⟩ := hi.dirs.ref hdir
  have hzero := hi.refs_next
  obtain ⟨refs, hrefs⟩ : ∃ refs : Nat → Nat, ∀ q,
    refs q = Leases.more xp s.next q + partRefs X q := ⟨_, fun _ => rfl⟩
  have hone : refs s.next = 1 := by
    rw [hrefs, Leases.more_self]
    omega
  have hother : ∀ q, q ≠ s.next → refs q = xp q + partRefs X q := by
    intro q hq
    rw [hrefs, Leases.more_of_ne _ hq]
  have hunused : ∀ h e, s.plru.mem h = some e → e.value ≠ s.next := fun h e he =>
    hi.value_ne_next (LruCache.item_eq.mpr ⟨e, he, rfl, rfl⟩)
  obtain ⟨c, vs, hins, hc, hI⟩ := hi.plru.insert 1 hunused hplru hone hother
  have hvs := hi.plru.insert_nodup hunused hplru hone hother hins
  obtain rfl : refs = fun q => Leases.more xp s.next q + partRefs X q := funext hrefs
  have hi₁ := hi.entered ⟨d, ix, s.plru.next, Leases.empty leaseLruSize, key⟩ hkey rfl rfl
    hdirs hc hI
  obtain ⟨s', hdel, hi'⟩ := hi₁.deletePartitions hvs
  refine ⟨s', ?_, hi'⟩
  simp only [Memory.newPartition, href, hins, Option.bind_eq_bind, Option.bind_some]
  rw [hdel]
  rfl

/-- **`AcquirePartition`** finds the partition in the cache or in the table, or
makes it, and adds one reference. -/
theorem Inv.acquirePartition (hi : s.Inv xx srvs [] hd xp X) {dir : Dir}
    (hdir : s.dirs.mem d = some dir) (leaseLruSize ix : Nat) :
    ∃ s' p, s.acquirePartition leaseLruSize d ix = some (s', p) ∧
      s'.Inv xx srvs [] hd (Leases.more xp p) X := by
  cases ht : s.plru.table (lruKey dir.id ix) with
  | some h =>
    obtain ⟨p, hit, hlookup⟩ := hi.plru.lookup_some ht
    obtain ⟨c, hc, hcinv, heff, -⟩ := hlookup (fun q => Leases.more xp p q + partRefs X q)
      (by rw [Leases.more_self]; omega) fun q hq => by rw [Leases.more_of_ne _ hq]
    have hit' : c.item h = some (lruKey dir.id ix, p) := by
      cases heff.rest hit with
      | inl h => exact h
      | inr h => exact absurd h.1 List.not_mem_nil
    obtain ⟨e, he, -, hv⟩ := LruCache.item_eq.mp hit'
    refine ⟨_, p, ?_, hi.cache hcinv heff⟩
    simp only [Memory.acquirePartition, hdir, hc, he, hv, Option.bind_eq_bind, Option.bind_some]
  | none =>
    cases hp : s.pars (lruKey dir.id ix) with
    | some p =>
      obtain ⟨part, hpart, -⟩ := hi.indexed.index hp
      obtain ⟨s', href, hi'⟩ := hi.refPartition hpart
      refine ⟨s', p, ?_, hi'⟩
      simp only [Memory.acquirePartition, hdir, LruCache.lookup_none ht, hp, href,
        Option.bind_eq_bind, Option.bind_some, Option.map_some]
    | none =>
      obtain ⟨s', hnew, hi'⟩ := hi.newPartition hdir hp ht leaseLruSize ix
      refine ⟨s', s.next, ?_, hi'⟩
      simp only [Memory.acquirePartition, hdir, LruCache.lookup_none ht, hp, hnew,
        Option.bind_eq_bind, Option.bind_some]

end Memory

end FilesystemCli

end DeltaFs
