import DeltaFs.Linear

/-!
# The life of a control block

A control block is made when a directory has none, kept as long as the LRU cache
or an operation references it, and deleted by the deleter of the cache when
neither does. In every run, for any capacity of the cache: there is one block of a
directory at most, `AcquireDir` returns it, an operation's block stays alive, and
the deleter is called once for a block, which is then the one in `dirs_` and is
referenced by nobody.

All of it is the invariant of `Blocks` read at the moment of one section: the references
to a block are those of the operations that have acquired it, so a section that drops the
last one knows that it does.
-/

namespace DeltaFs

open TransitionSystem

namespace DirTable

variable {t t' : DirTable} {ext ext' : Nat → Nat} {p q : Nat} {id : DirId}

/-- The LRU cache references the block at `p`. -/
def Cached (t : DirTable) (p : Nat) : Prop :=
  ∃ h e, t.dlru.mem h = some e ∧ e.value = p ∧ e.inCache = true

/-- The deleter is called on `ps`, one after the other: each of them is the block
in the table for its directory, and neither the cache nor an operation references
it. -/
def Deletes (ext : Nat → Nat) : DirTable → List Nat → Prop
  | _, [] => True
  | t, p :: ps => (∃ d, t.mem p = some d ∧ t.dirs d.id.key = some p) ∧ ¬ t.Cached p ∧ ext p = 0 ∧
      Deletes ext (t.deleteDir p) ps

/-- The deleter, called on different blocks that nobody references. -/
theorem Indexed.deletes (hi : t.Indexed) {ps : List Nat} (hps : ps.Nodup)
    (hmem : ∀ p ∈ ps, ∃ d, t.mem p = some d) (hcached : ∀ p ∈ ps, ¬ t.Cached p)
    (hext : ∀ p ∈ ps, ext p = 0) : Deletes ext t ps := by
  induction ps generalizing t with
  | nil => trivial
  | cons p ps ih =>
    obtain ⟨hnot, hps⟩ := List.nodup_cons.mp hps
    obtain ⟨d, hd⟩ := hmem p List.mem_cons_self
    refine ⟨⟨d, hd, hi.object hd⟩, hcached p List.mem_cons_self, hext p List.mem_cons_self,
      ih (hi.deleteDir p) hps ?_ ?_ ?_⟩
    · intro q hq
      obtain ⟨e, he⟩ := hmem q (List.mem_cons_of_mem p hq)
      have hne : q ≠ p := fun heq => hnot (heq ▸ hq)
      exact ⟨e, by rw [deleteDir_mem, if_neg hne, he]⟩
    · intro q hq
      rw [Cached, deleteDir_dlru]
      exact hcached q (List.mem_cons_of_mem p hq)
    · intro q hq
      exact hext q (List.mem_cons_of_mem p hq)

/-- A block is in memory exactly as long as the cache or an operation references
it. -/
theorem Inv.alive_iff (hi : t.Inv ext) (p : Nat) :
    (∃ d, t.mem p = some d) ↔ t.Cached p ∨ 0 < ext p := by
  constructor
  · rintro ⟨d, hd⟩
    obtain ⟨e, he, -, hv⟩ := LruCache.item_eq.mp (hi.handle hd)
    have hrefs := hi.lru.refs he
    have hpos := hi.lru.pos he
    rw [hv] at hrefs
    by_cases hin : e.inCache = true
    · exact .inl ⟨_, e, he, hv, hin⟩
    · rw [Bool.eq_false_of_not_eq_true hin, Bool.toNat_false] at hrefs
      exact .inr (by omega)
  · rintro (⟨h, e, he, hv, -⟩ | hpos)
    · obtain ⟨d, hd, -⟩ := hi.item (LruCache.item_eq.mpr ⟨e, he, rfl, hv⟩)
      exact ⟨d, hd⟩
    · exact hi.live hpos

/-- **`AcquireDir` returns the block there is.** -/
theorem Inv.acquireDir_existing (hi : t.Inv ext) {d : Dir} (hd : t.mem p = some d)
    (ha : t.acquireDir d.id = some (t', q)) : q = p := by
  have hdirs := hi.indexed.object hd
  rw [DirTable.acquireDir] at ha
  rcases ht : t.dlru.table d.id.key with _ | h
  · -- not in the cache: the table has it
    rw [LruCache.lookup_none ht] at ha
    simp only [hdirs, hd] at ha
    obtain ⟨c, -, heq⟩ := Option.map_eq_some_iff.mp ha
    exact (Prod.mk.inj heq).2.symm
  · -- a cached entry of this key is that of the block
    obtain ⟨v, hit, hlook⟩ := hi.lru.lookup_some ht
    obtain ⟨c, hl, hc, heff, -⟩ := hlook (Function.update ext v (ext v + 1))
      (Function.update_self ..) fun w hw => Function.update_of_ne hw ..
    have hpos : 0 < Function.update ext v (ext v + 1) v := by
      rw [Function.update_self]
      exact Nat.succ_pos _
    obtain ⟨e, he, -, hv⟩ := LruCache.item_eq.mp (heff.item_of_referenced hi.lru hc hit hpos)
    simp only [hl, he, hv, Option.map_some] at ha
    obtain rfl := (Prod.mk.inj (Option.some.inj ha)).2
    obtain ⟨e', he', hh⟩ := hi.item hit
    have hitem := hi.handle he'
    rw [hh, hit] at hitem
    exact hi.indexed.unique he' hd (Prod.mk.inj (Option.some.inj hitem)).1.symm

/-- Nobody references a value the cache has dropped. -/
theorem not_cached_of_gone {c : LruCache Nat} (hi : t.dlru.Inv ext)
    (hkept : ∀ {h k v}, c.item h = some (k, v) → v = p → t.dlru.item h = some (k, v))
    (hgone : ∃ h k, t.dlru.item h = some (k, p) ∧ c.item h = none) :
    ¬ ({ t with dlru := c } : DirTable).Cached p := by
  rintro ⟨h, e, he, rfl, -⟩
  obtain ⟨h', k, hit, hnone⟩ := hgone
  have hit' : c.item h = some (e.key, e.value) := LruCache.item_eq.mpr ⟨e, he, rfl, rfl⟩
  obtain ⟨e₁, he₁, -, hv₁⟩ := LruCache.item_eq.mp (hkept hit' rfl)
  obtain ⟨e₂, he₂, -, hv₂⟩ := LruCache.item_eq.mp hit
  obtain rfl := hi.inj he₁ he₂ (hv₁.trans hv₂.symm)
  rw [hnone] at hit'
  cases hit'

/-- **What `Release` deletes.** At most one block: that of the operation, if nobody else
has it and it has left the cache. -/
theorem Inv.release_deletes (hi : t.Inv ext) (hp : 0 < ext p) {d : Dir} (hd : t.mem p = some d)
    {c : LruCache Nat} {ps : List Nat} (hr : t.dlru.release d.lruHandle = some (c, ps)) :
    Deletes (Function.update ext p (ext p - 1)) { t with dlru := c } ps := by
  have hself : Function.update ext p (ext p - 1) p + 1 = ext p := by
    rw [Function.update_self]
    omega
  obtain ⟨c', ps', hr', hc, heff, -⟩ := hi.lru.release (hi.handle hd) hself
    fun q hq => Function.update_of_ne hq ..
  obtain ⟨rfl, rfl⟩ := Prod.mk.inj (Option.some.inj (hr.symm.trans hr'))
  have hind : ({ t with dlru := c } : DirTable).Indexed := hi.indexed
  refine hind.deletes (LruCache.unref_nodup hr) (fun q hq => ?_) (fun q hq => ?_) fun q hq => ?_
  · obtain ⟨h, k, hit, -⟩ := heff.gone hq
    obtain ⟨e, he, -⟩ := hi.item hit
    exact ⟨e, he⟩
  · exact not_cached_of_gone hi.lru (fun hit _ => heff.kept hit) (heff.gone hq)
  · exact heff.unreferenced hi.lru hc hq

/-- **What the insertion of a new block deletes.** These are the blocks the cache has
evicted: each was in `dirs_`, nobody had a reference to it, and it is deleted once. -/
theorem Inv.insert_deletes (hi : t.Inv ext) (hdirs : t.dirs id.key = none) {c : LruCache Nat}
    {h : Nat} {ps : List Nat} (hins : t.dlru.insert id.key t.next 1 = some (c, h, ps)) :
    Deletes (Function.update ext t.next (ext t.next + 1)) (t.inject id c h) ps := by
  have hunused : ∀ h e, t.dlru.mem h = some e → e.value ≠ t.next := by
    rintro h e he heq
    obtain ⟨d, hd, -⟩ := hi.item (LruCache.item_eq.mpr ⟨e, he, rfl, heq⟩)
    exact (hi.fresh hd).ne rfl
  have hone : Function.update ext t.next (ext t.next + 1) t.next = 1 := by
    rw [Function.update_self, hi.ext_next]
  have hother := fun q (hq : q ≠ t.next) =>
    Function.update_of_ne hq (ext t.next + 1) ext
  have hnodup := hi.lru.insert_nodup hunused (hi.table_none hdirs) hone hother hins
  obtain ⟨c', ps', hins', hc, hI⟩ :=
    hi.lru.insert 1 hunused (hi.table_none hdirs) hone hother
  obtain ⟨rfl, hrest⟩ := Prod.mk.inj (Option.some.inj (hins.symm.trans hins'))
  obtain ⟨rfl, rfl⟩ := Prod.mk.inj hrest
  have hblock : ∀ q ∈ ps, ∃ e, t.mem q = some e := by
    intro q hq
    obtain ⟨h, k, hit, -⟩ := hI.gone hq
    obtain ⟨e, he, -⟩ := hi.item hit
    exact ⟨e, he⟩
  refine (hi.inject hdirs c t.dlru.next).deletes hnodup (fun q hq => ?_) (fun q hq => ?_)
    fun q hq => hi.inserted_gone hI hc hq
  · obtain ⟨e, he⟩ := hblock q hq
    exact ⟨e, by rw [inject_of_ne (hi.fresh he).ne, he]⟩
  · obtain ⟨e, he⟩ := hblock q hq
    refine not_cached_of_gone hi.lru (fun {h k v} hit hv => hI.kept ?_ hit) (hI.gone hq)
    rintro rfl
    have hit : c.item t.dlru.next = some (k, v) := hit
    rw [hI.new] at hit
    exact (hi.fresh he).ne ((Prod.mk.inj (Option.some.inj hit)).2.trans hv).symm

end DirTable

namespace Filesystem

variable {fs : Filesystem} {s : State} {db : Option Db} {C : State → Label → Prop}
  {tr : List FsEvent}

/-- Operations reference a block exactly when its count is not zero. -/
theorem refs_pos_iff {ops : List Op} {p : Nat} :
    0 < refs ops p ↔ ∃ op ∈ ops, op.dir = some p := by
  rw [refs, holders, List.countP_pos_iff]
  simp only [decide_eq_true_eq]

/-- **Control blocks are managed.** In every reachable state: a directory has one
block at most; `AcquireDir` succeeds, and returns the block there is; an operation
between its `AcquireDir` and its `Release` references a live block of its directory;
a block is alive exactly as long as the cache or an operation references it; and
the deleter, called from `Release` or from the insertion of a new block, deletes
blocks of `dirs_` that nothing references any more, each once. -/
theorem blocks_managed (hr : (fs.system db).Run C tr s) :
    (∀ p q d e, s.table.mem p = some d → s.table.mem q = some e → d.id = e.id → p = q) ∧
    (∀ id, ∃ t p, s.table.acquireDir id = some (t, p) ∧ (∃ d, t.mem p = some d ∧ d.id = id) ∧
      ∀ q d, s.table.mem q = some d → d.id = id → p = q) ∧
    (∀ op ∈ s.ops, op.pc.isInside = true →
      ∃ p d, op.dir = some p ∧ s.table.mem p = some d ∧ d.id = op.call.dirId) ∧
    (∀ p, (∃ d, s.table.mem p = some d) ↔
      s.table.Cached p ∨ ∃ op ∈ s.ops, op.dir = some p) ∧
    (∀ op ∈ s.ops, ∀ p d c ps, op.dir = some p → s.table.mem p = some d →
      s.table.dlru.release d.lruHandle = some (c, ps) →
        DirTable.Deletes (Function.update (refs s.ops) p (refs s.ops p - 1))
          { s.table with dlru := c } ps) ∧
    ∀ id c h ps, s.table.dirs id.key = none →
      s.table.dlru.insert id.key s.table.next 1 = some (c, h, ps) →
        DirTable.Deletes (Function.update (refs s.ops) s.table.next (refs s.ops s.table.next + 1))
          (s.table.inject id c h) ps := by
  have hi := run_blocks hr
  refine ⟨fun p q d e hd he hid => ?_, fun id => ?_, fun op hop hin => ?_, fun p => ?_, ?_, ?_⟩
  · exact hi.table.indexed.unique hd he (congrArg DirId.key hid)
  · obtain ⟨t, p, ha, hacq⟩ := hi.table.acquireDir id
    refine ⟨t, p, ha, ?_, ?_⟩
    · rcases hacq.block with ⟨d, -, hd, hid⟩ | ⟨-, h, hd⟩
      · exact ⟨d, hd, hid⟩
      · exact ⟨_, hd, rfl⟩
    · rintro q d hd rfl
      exact hi.table.acquireDir_existing hd ha
  · obtain ⟨k, hk⟩ := List.mem_iff_getElem?.mp hop
    obtain ⟨p, hp⟩ := hi.held hk hin
    obtain ⟨d, hd, hid⟩ := hi.block hk hp
    exact ⟨p, d, hp, hd, hid⟩
  · rw [hi.table.alive_iff, refs_pos_iff]
  · intro op hop p d c ps hp hd hrel
    exact hi.table.release_deletes (refs_pos_iff.mpr ⟨op, hop, hp⟩) hd hrel
  · intro id c h ps hdirs hins
    exact hi.table.insert_deletes hdirs hins

/-- `blocks_managed` without a cache: when a create returns, the release of its
block deletes it. -/
theorem blocks_managed_uncached :
    let fs : Filesystem := { plainServer with
      options := { FilesystemOptions.default with dirLruSize := 0 } }
    ∃ tr s, (fs.system (some fun _ => none)).Run (fun _ _ => True) tr s ∧
      (∃ op ∈ s.ops, op.dir = some 0) ∧ ∃ d c, s.table.mem 0 = some d ∧
        s.table.dlru.release d.lruHandle = some (c, [0]) ∧
        DirTable.Deletes (Function.update (refs s.ops) 0 (refs s.ops 0 - 1))
          { s.table with dlru := c } [0] := by
  intro fs
  have hrel : ((fs.system (some fun _ => none)).exec (fun _ _ => true)
      (fs.start (some fun _ => none))
      (.call (rootCall 0 (.mkfle (str "a") 0o660)) zeroStat :: sections 0 6)).map (fun p =>
        (p.1.ops.any fun op => op.dir = some 0, (p.1.table.mem 0).bind fun d =>
          (p.1.table.dlru.release d.lruHandle).map Prod.snd)) =
        some (true, some [0]) := by decide +kernel
  obtain ⟨⟨s, tr⟩, hp, hrel⟩ := Option.map_eq_some_iff.mp hrel
  obtain ⟨hop, hrel⟩ := Prod.mk.inj hrel
  obtain ⟨d, hd, hrel⟩ := Option.bind_eq_some_iff.mp hrel
  obtain ⟨⟨c, ps⟩, hc, rfl⟩ := Option.map_eq_some_iff.mp hrel
  have hinit : (fs.system (some fun _ => none)).init (fs.start (some fun _ => none)) := rfl
  have hrun := Run.exec (C := fun _ _ => True) (fun _ _ _ => trivial) (.init hinit) hp
  obtain ⟨op, hmem, hdir⟩ := List.any_eq_true.mp hop
  have hdir := of_decide_eq_true hdir
  obtain ⟨-, -, -, -, hdel, -⟩ := blocks_managed hrun
  exact ⟨_, _, hrun, ⟨op, hmem, hdir⟩, d, c, hd, hc, hdel op hmem 0 d c _ hdir hd hc⟩

end Filesystem

end DeltaFs
