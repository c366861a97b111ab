import DeltaFs.DirIndex
import DeltaFs.Registry

/-!
# The directories of a client

`fscli.cc`: a client keeps a control block for each directory it works in, in
`dirs_`. A block counts its references and is deleted with the last one. Its
index is made on first use, from the directory's id and the number of servers;
`Fetch1` selects the server of a name with it.

`Dirs.Inv t ext` says that the table indexes the blocks, that an index is that
of its directory, and that a block counts `ext` references.

The operations are stated for the directory they are about, with everything else left
alone, so that `References` can put several kinds of blocks together without opening any
of them.
-/

namespace DeltaFs

namespace FilesystemCli

/-- `FilesystemCli::Dir`. The index is there once it has been fetched. -/
structure Dir where
  id : DirId
  giga : Option DirIndex
  /-- total number of refs (system + active): `uint32_t`, of fewer than 2^32 at once -/
  refs : Nat

/-- All directories currently kept in memory. -/
structure Dirs where
  /-- `dirs_` -/
  dirs : Slice → Option Nat
  /-- the blocks, by pointer -/
  mem : Nat → Option Dir
  /-- the next pointer the allocator returns -/
  next : Nat

/-- `FetchDir`, with `srvs` servers. -/
def fetchDir (xx : XXHash) (srvs : Nat) (d : Dir) : Dir :=
  match d.giga with
  | some _ => d
  | none => { d with giga := some (fetchIndex xx d.id srvs srvs) }

/-- `Fetch1`: the block, and the index of the partition that holds a name. No
index is computed for the empty name. -/
def fetch1 (xx : XXHash) (srvs : Nat) (d : Dir) (name : Slice) : Dir × Option Nat :=
  let d := fetchDir xx srvs d
  (d, if name = [] then none else d.giga.map fun giga => giga.selectServer xx name)

/-- The server of a name. -/
def selectServer (xx : XXHash) (srvs : Nat) (id : DirId) (name : Slice) : Nat :=
  (fetchIndex xx id srvs srvs).selectServer xx name

theorem fetchDir_id (xx : XXHash) (srvs : Nat) (d : Dir) : (fetchDir xx srvs d).id = d.id := by
  rw [fetchDir]
  split <;> rfl

theorem fetchDir_refs (xx : XXHash) (srvs : Nat) (d : Dir) : (fetchDir xx srvs d).refs = d.refs := by
  rw [fetchDir]
  split <;> rfl

/-- A block that has been fetched has the index of its directory. -/
theorem fetchDir_giga {xx : XXHash} {srvs : Nat} {d : Dir}
    (h : ∀ g, d.giga = some g → g = fetchIndex xx d.id srvs srvs) :
    (fetchDir xx srvs d).giga = some (fetchIndex xx d.id srvs srvs) := by
  rw [fetchDir]
  split
  · rename_i g hg
    rw [hg, h g hg]
  · rfl

theorem fetch1_index {xx : XXHash} {srvs : Nat} {d : Dir} {name : Slice}
    (h : ∀ g, d.giga = some g → g = fetchIndex xx d.id srvs srvs) (hname : name ≠ []) :
    (fetch1 xx srvs d name).2 = some (selectServer xx srvs d.id name) := by
  rw [fetch1]
  dsimp only
  rw [if_neg hname, fetchDir_giga h, Option.map_some]
  rfl

namespace Dirs

/-- No directory. -/
def empty : Dirs where
  dirs _ := none
  mem _ := none
  next := 0

/-- Write the block at `p`. -/
def setDir (t : Dirs) (p : Nat) (d : Dir) : Dirs :=
  { t with mem := Function.update t.mem p (some d) }

/-- `dir->refs++`. -/
def ref (t : Dirs) (p : Nat) : Option Dirs :=
  (t.mem p).map fun d => t.setDir p { d with refs := d.refs + 1 }

/-- The table with a new block of `id`, to be fetched later. -/
def inject (t : Dirs) (id : DirId) : Dirs where
  dirs := Function.update t.dirs id.key (some t.next)
  mem := Function.update t.mem t.next (some ⟨id, none, 1⟩)
  next := t.next + 1

/-- `AcquireDir`. -/
def acquireDir (t : Dirs) (id : DirId) : Option (Dirs × Nat) :=
  match t.dirs id.key with
  | some p => (t.ref p).map fun t => (t, p)
  | none => some (t.inject id, t.next)

/-- The table without the block at `p`. -/
def deleteDir (t : Dirs) (p : Nat) (d : Dir) : Dirs :=
  { t with
    dirs := Function.update t.dirs d.id.key none
    mem := Function.update t.mem p none }

/-- `Release(Dir*)`. -/
def release (t : Dirs) (p : Nat) : Option Dirs :=
  match t.mem p with
  | none => none
  | some d =>
    if d.refs - 1 = 0 then some (t.deleteDir p d)
    else some (t.setDir p { d with refs := d.refs - 1 })

/-- `Fetch1`, on the block at `p`. -/
def fetch (t : Dirs) (xx : XXHash) (srvs p : Nat) (name : Slice) : Option (Dirs × Option Nat) :=
  (t.mem p).map fun d => (t.setDir p (fetch1 xx srvs d name).1, (fetch1 xx srvs d name).2)

/-! ## The invariant

As for the leases of a partition, the state is tied to the references the rest of the client
holds, which are a parameter here: `ext p` is how many there are to the block at `p`. Each
function is then specified by how it changes `ext`, and the lemmas can be used from wherever the
references are kept. -/

/-- The invariant of the directories of a client of `srvs` servers, with `ext`
references to each block. -/
structure Inv (xx : XXHash) (srvs : Nat) (t : Dirs) (ext : Nat → Nat) : Prop where
  indexed : Registry.Indexed (fun d : Dir => d.id.key) t.dirs t.mem
  refs : ∀ {p d}, t.mem p = some d → d.refs = ext p
  pos : ∀ {p d}, t.mem p = some d → 0 < d.refs
  /-- a referenced block is in memory -/
  held : ∀ {p}, 0 < ext p → ∃ d, t.mem p = some d
  /-- an index is that of the directory -/
  fetched : ∀ {p d g}, t.mem p = some d → d.giga = some g → g = fetchIndex xx d.id srvs srvs
  fresh : ∀ {p d}, t.mem p = some d → p < t.next

/-- Blocks that are still referenced stay those of their directories. -/
def Keeps (t t' : Dirs) (ext : Nat → Nat) : Prop :=
  ∀ {p d}, t.mem p = some d → 0 < ext p → ∃ d', t'.mem p = some d' ∧ d'.id = d.id

variable {xx : XXHash} {srvs : Nat} {t t' : Dirs} {ext ext' : Nat → Nat} {p : Nat} {d d' : Dir}
  {id : DirId}

theorem Inv.empty (xx : XXHash) (srvs : Nat) : Inv xx srvs Dirs.empty fun _ => 0 where
  indexed := Registry.Indexed.empty _
  refs hp := by cases hp
  pos hp := by cases hp
  held hp := absurd hp (Nat.lt_irrefl 0)
  fetched hp := by cases hp
  fresh hp := by cases hp

theorem setDir_self (t : Dirs) (p : Nat) (d : Dir) : (t.setDir p d).mem p = some d :=
  Function.update_self ..

theorem setDir_of_ne {q : Nat} (hq : q ≠ p) (d : Dir) : (t.setDir p d).mem q = t.mem q :=
  Function.update_of_ne hq ..

/-- **A block changes**: not its directory, its index only to the right one,
and its count as its references do. -/
theorem Inv.setDir (hi : Inv xx srvs t ext) (hp : t.mem p = some d) (d' : Dir) (ext' : Nat → Nat)
    (hid : d'.id = d.id) (hg : ∀ g, d'.giga = some g → g = fetchIndex xx d.id srvs srvs)
    (hrefs : d'.refs = ext' p) (hpos : 0 < d'.refs) (hext : ∀ q, q ≠ p → ext' q = ext q) :
    Inv xx srvs (t.setDir p d') ext' ∧ Keeps t (t.setDir p d') ext' := by
  have hmem : ∀ {q e}, (t.setDir p d').mem q = some e →
      q = p ∧ e = d' ∨ q ≠ p ∧ t.mem q = some e := by
    intro q e he
    by_cases hq : q = p
    · subst hq
      rw [setDir_self] at he
      cases he
      exact .inl ⟨rfl, rfl⟩
    · rw [setDir_of_ne hq] at he
      exact .inr ⟨hq, he⟩
  refine ⟨⟨?_, ?_, ?_, ?_, ?_, ?_⟩, ?_⟩
  · exact Registry.Indexed.modify hi.indexed hp (by rw [hid])
  · intro q e he
    rcases hmem he with ⟨rfl, rfl⟩ | ⟨hq, he⟩
    · exact hrefs
    · rw [hext q hq]
      exact hi.refs he
  · intro q e he
    rcases hmem he with ⟨rfl, rfl⟩ | ⟨-, he⟩
    · exact hpos
    · exact hi.pos he
  · intro q hq
    by_cases hqp : q = p
    · subst hqp
      exact ⟨d', setDir_self ..⟩
    · rw [hext q hqp] at hq
      rw [setDir_of_ne hqp]
      exact hi.held hq
  · intro q e g he hge
    rcases hmem he with ⟨rfl, rfl⟩ | ⟨-, he⟩
    · rw [hid]
      exact hg g hge
    · exact hi.fetched he hge
  · intro q e he
    rcases hmem he with ⟨rfl, rfl⟩ | ⟨-, he⟩
    · exact hi.fresh hp
    · exact hi.fresh he
  · intro q e he _
    by_cases hqp : q = p
    · subst hqp
      obtain rfl := Option.some.inj (hp.symm.trans he)
      exact ⟨d', setDir_self .., hid⟩
    · exact ⟨e, by rw [setDir_of_ne hqp]; exact he, rfl⟩

/-- **`dir->refs++`** adds one reference. -/
theorem Inv.ref (hi : Inv xx srvs t ext) (hp : t.mem p = some d) :
    ∃ t' d', t.ref p = some t' ∧ Inv xx srvs t' (Function.update ext p (ext p + 1)) ∧
      t'.mem p = some d' ∧ d'.id = d.id ∧ Keeps t t' (Function.update ext p (ext p + 1)) := by
  obtain ⟨hi', hk⟩ := hi.setDir hp { d with refs := d.refs + 1 }
    (Function.update ext p (ext p + 1)) rfl (fun g hg => hi.fetched hp hg)
    (by rw [Function.update_self, ← hi.refs hp]) (Nat.succ_pos _)
    fun q hq => Function.update_of_ne hq ..
  refine ⟨_, _, ?_, hi', setDir_self .., rfl, hk⟩
  rw [Dirs.ref, hp, Option.map_some]

/-- The next pointer is not in use. -/
theorem Inv.mem_next (hi : Inv xx srvs t ext) : t.mem t.next = none := by
  rcases hn : t.mem t.next with _ | d
  · rfl
  · exact absurd (hi.fresh hn) (Nat.lt_irrefl _)

theorem Inv.ext_next (hi : Inv xx srvs t ext) : ext t.next = 0 := by
  by_contra hne
  obtain ⟨d, hd⟩ := hi.held (Nat.pos_of_ne_zero hne)
  rw [hi.mem_next] at hd
  cases hd

theorem inject_self (t : Dirs) (id : DirId) : (t.inject id).mem t.next = some ⟨id, none, 1⟩ :=
  Function.update_self ..

theorem inject_of_ne {q : Nat} (hq : q ≠ t.next) (id : DirId) : (t.inject id).mem q = t.mem q :=
  Function.update_of_ne hq ..

/-- A new block, with one reference. -/
theorem Inv.inject (hi : Inv xx srvs t ext) (hdirs : t.dirs id.key = none) :
    Inv xx srvs (t.inject id) (Function.update ext t.next (ext t.next + 1)) ∧
      Keeps t (t.inject id) (Function.update ext t.next (ext t.next + 1)) := by
  have hmem : ∀ {q e}, (t.inject id).mem q = some e →
      q = t.next ∧ e = ⟨id, none, 1⟩ ∨ q ≠ t.next ∧ t.mem q = some e := by
    intro q e he
    by_cases hq : q = t.next
    · rw [hq, inject_self] at he
      cases he
      exact .inl ⟨hq, rfl⟩
    · rw [inject_of_ne hq] at he
      exact .inr ⟨hq, he⟩
  refine ⟨⟨?_, ?_, ?_, ?_, ?_, ?_⟩, ?_⟩
  · have hkey : (fun d : Dir => d.id.key) ⟨id, none, 1⟩ = id.key := rfl
    exact Registry.Indexed.insert hi.indexed hkey hdirs hi.mem_next
  · intro q e he
    rcases hmem he with ⟨rfl, rfl⟩ | ⟨hq, he⟩
    · rw [Function.update_self, hi.ext_next]
    · rw [Function.update_of_ne hq]
      exact hi.refs he
  · intro q e he
    rcases hmem he with ⟨-, rfl⟩ | ⟨-, he⟩
    · exact Nat.one_pos
    · exact hi.pos he
  · intro q hq
    by_cases hqn : q = t.next
    · rw [hqn]
      exact ⟨_, inject_self ..⟩
    · rw [Function.update_of_ne hqn] at hq
      rw [inject_of_ne hqn]
      exact hi.held hq
  · intro q e g he hg
    rcases hmem he with ⟨-, rfl⟩ | ⟨-, he⟩
    · cases hg
    · exact hi.fetched he hg
  · intro q e he
    rcases hmem he with ⟨rfl, -⟩ | ⟨-, he⟩
    · exact Nat.lt_succ_self _
    · exact Nat.lt_succ_of_lt (hi.fresh he)
  · intro q e he _
    exact ⟨e, (inject_of_ne (hi.fresh he).ne id).trans he, rfl⟩

/-- **`AcquireDir`** finds or makes the block, and adds one reference. A block that is
found is one of the same id, because the table is kept by id; a new one starts with this
reference and no index. -/
theorem Inv.acquireDir (hi : Inv xx srvs t ext) (id : DirId) :
    ∃ t' p d, t.acquireDir id = some (t', p) ∧
      Inv xx srvs t' (Function.update ext p (ext p + 1)) ∧ t'.mem p = some d ∧ d.id = id ∧
      Keeps t t' (Function.update ext p (ext p + 1)) := by
  rcases hdirs : t.dirs id.key with _ | p
  · obtain ⟨hi', hk⟩ := hi.inject hdirs
    refine ⟨_, t.next, _, ?_, hi', inject_self .., rfl, hk⟩
    rw [Dirs.acquireDir, hdirs]
  · obtain ⟨d, hd, hkey⟩ := hi.indexed.index hdirs
    obtain ⟨t', d', hr, hi', hd', hid, hk⟩ := hi.ref hd
    refine ⟨t', p, d', ?_, hi', hd', hid.trans (DirId.key_injective hkey), hk⟩
    rw [Dirs.acquireDir, hdirs]
    simp only [hr, Option.map_some]

/-- **`Release(Dir*)`** drops one reference. The block is deleted with the last one and
leaves the table at the same time, so nobody can find a block that is gone. -/
theorem Inv.release (hi : Inv xx srvs t ext) (hp : 0 < ext p) :
    ∃ t', t.release p = some t' ∧ Inv xx srvs t' (Function.update ext p (ext p - 1)) ∧
      Keeps t t' (Function.update ext p (ext p - 1)) := by
  obtain ⟨d, hd⟩ := hi.held hp
  have hrefs := hi.refs hd
  by_cases hlast : d.refs - 1 = 0
  · have hdel : (t.deleteDir p d).mem p = none := Function.update_self ..
    have hne : ∀ {q}, q ≠ p → (t.deleteDir p d).mem q = t.mem q := fun hq =>
      Function.update_of_ne hq ..
    have hmem : ∀ {q e}, (t.deleteDir p d).mem q = some e → q ≠ p ∧ t.mem q = some e := by
      intro q e he
      have hq : q ≠ p := by
        rintro rfl
        rw [hdel] at he
        cases he
      exact ⟨hq, (hne hq).symm.trans he⟩
    have hgone : Function.update ext p (ext p - 1) p = 0 := by
      rw [Function.update_self]
      omega
    refine ⟨t.deleteDir p d, ?_, ⟨?_, ?_, ?_, ?_, ?_, ?_⟩, ?_⟩
    · rw [Dirs.release, hd]
      exact if_pos hlast
    · exact Registry.Indexed.remove hi.indexed hd
    · intro q e he
      obtain ⟨hq, he⟩ := hmem he
      rw [Function.update_of_ne hq]
      exact hi.refs he
    · intro q e he
      exact hi.pos (hmem he).2
    · intro q hq
      have hqp : q ≠ p := by
        rintro rfl
        rw [hgone] at hq
        cases hq
      rw [Function.update_of_ne hqp] at hq
      rw [hne hqp]
      exact hi.held hq
    · intro q e g he hg
      exact hi.fetched (hmem he).2 hg
    · intro q e he
      exact hi.fresh (hmem he).2
    · intro q e he hq
      have hqp : q ≠ p := by
        rintro rfl
        rw [hgone] at hq
        cases hq
      exact ⟨e, (hne hqp).trans he, rfl⟩
  · obtain ⟨hi', hk⟩ := hi.setDir hd { d with refs := d.refs - 1 }
      (Function.update ext p (ext p - 1)) rfl (fun g hg => hi.fetched hd hg)
      (by rw [Function.update_self, ← hrefs]) (Nat.pos_of_ne_zero hlast)
      fun q hq => Function.update_of_ne hq ..
    refine ⟨_, ?_, hi', hk⟩
    rw [Dirs.release, hd]
    exact if_neg hlast

/-- **`Fetch1`** selects the server of the name by the directory's index. The index is
made from the id when it is asked for the first time, and it is the same for every block
of the directory. -/
theorem Inv.fetch (hi : Inv xx srvs t ext) (hp : t.mem p = some d) (name : Slice) :
    ∃ t' i d', t.fetch xx srvs p name = some (t', i) ∧ Inv xx srvs t' ext ∧
      t'.mem p = some d' ∧ d'.id = d.id ∧ Keeps t t' ext ∧
      (name ≠ [] → i = some (selectServer xx srvs d.id name)) := by
  have hg : ∀ g, d.giga = some g → g = fetchIndex xx d.id srvs srvs := fun g hg => hi.fetched hp hg
  have hid : (fetch1 xx srvs d name).1.id = d.id := fetchDir_id ..
  have hrefs : (fetch1 xx srvs d name).1.refs = d.refs := fetchDir_refs ..
  obtain ⟨hi', hk⟩ := hi.setDir hp (fetch1 xx srvs d name).1 ext hid
    (fun g h => Option.some.inj (h.symm.trans (fetchDir_giga hg))) (by rw [hrefs, hi.refs hp])
    (by rw [hrefs]; exact hi.pos hp) fun q _ => rfl
  refine ⟨_, _, _, ?_, hi', setDir_self .., hid, hk, fetch1_index hg⟩
  rw [Dirs.fetch, hp, Option.map_some]

end Dirs

end FilesystemCli

end DeltaFs
