import DeltaFs.Identity

/-!
# What the leases of a client guarantee

A thread reaches a lease through the table, through the cache, or by a reference
it holds. `Leases.Consistent` says how the three agree whenever the mutex of the
partition is free, and `leases_coherent` that they do in every run.

Two things follow as long as nothing goes wrong with the dues. A lease has been
dissociated from its context by the time it is deleted, unless the last handle
of a bulk insertion is destroyed when the lease is out. And if no lease expires,
the modes exclude each other: all that is open on a directory is open in one
mode, on one lease.
-/

namespace DeltaFs

namespace FilesystemCli

open Client

/-- How the table, the cache and the references of a partition agree, with `ext`
references to each lease. -/
structure Leases.Consistent (t : Leases) (ext : Nat → Nat) : Prop where
  /-- the table holds exactly the leases that are not out, each under its name -/
  listed : t.Listed
  /-- a name has at most one of them -/
  single : ∀ {l l' : Nat} {lease lease' : Lease}, t.mem l = some lease → t.mem l' = some lease' →
    lease.out = false → lease'.out = false → lease.key = lease'.key → l = l'
  /-- an entry in the cache stands for one of them -/
  cached : ∀ {name : Slice} {h : Nat}, t.cached.table name = some h →
    ∃ l lease, t.cached.item h = some (name, l) ∧ t.mem l = some lease ∧ lease.out = false
  /-- the entry a lease knows stands for the lease -/
  handle : ∀ {l : Nat} {lease : Lease}, t.mem l = some lease →
    t.cached.item lease.lruHandle = some (lease.key, l)
  /-- a lease that is referenced has not been deleted -/
  live : ∀ {l : Nat}, 0 < ext l → ∃ lease, t.mem l = some lease

namespace Leases

variable {t : Leases} {ext : Nat → Nat} {P : Slice → LokupMode → LookupStat → Prop}

theorem Core.consistent (hi : Core t ext) : t.Consistent ext where
  listed := hi.listed
  single {l l' lease lease'} hl hl' hout hout' hkey := by
    have hlist := (hi.listed lease.key l).mpr ⟨lease, hl, rfl, hout⟩
    have hlist' := (hi.listed lease.key l').mpr ⟨lease', hl', hkey.symm, hout'⟩
    exact Option.some.inj (hlist.symm.trans hlist')
  cached {name h} ht := by
    obtain ⟨l, hit, -⟩ := hi.lru.lookup_some ht
    obtain ⟨lease, hl, -, -, hout, -⟩ := hi.cached_lease ht hit
    exact ⟨l, lease, hit, hl, hout⟩
  handle := hi.handle
  live := hi.live

/-- A check finds a lease that can be cached and has not expired. -/
theorem Inv.found (hi : Inv P t ext) {name : Slice} {now : UInt64} {t' : Leases} {l : Nat}
    {ds : List Deleted} (h : t.check name now = some (t', some l, ds)) :
    ∃ lease, t'.mem l = some lease ∧ lease.key = name ∧ lease.rep.leaseDue ≠ 0 ∧
      ¬lease.rep.leaseDue < now := by
  obtain ⟨t₁, o, ds₁, hcheck, hc⟩ := hi.check name now
  obtain ⟨rfl, rfl, rfl⟩ : t₁ = t' ∧ o = some l ∧ ds₁ = ds := by
    simpa using hcheck.symm.trans h
  cases hc with
  | @found _ lease hcore hmem htable hl hlist hdue =>
    obtain ⟨lease₁, hl₁, hkey, hout⟩ := (hi.listed _ _).mp hlist
    obtain rfl := Option.some.inj (hl.symm.trans hl₁)
    exact ⟨lease, by rw [hmem, hl], hkey, (hi.ok hl).due hout, hdue⟩

end Leases

namespace Lookups

variable {δ : Type} {opts : Options} {srv : Server δ} {hash : Slice → UInt32}
  {P : δ → DirId → Slice → LokupMode → LookupStat → Prop}
  {M : User → LookupStat → LokupMode → Prop} {Q : User → Lease → Prop} {s s' : Lookups δ}
  {i j : Nat} {op : Lookup} {k : DirId × Nat} {d : Deleted} {tr es : List (LookupEvent δ)}

/-! ## What a step shows

The step lemma of `Lookups` says more than is needed here. These are what is used of it: the
leases a step deletes, those it installs, and what it returns. -/

theorem Shows.before {op' : Lookup} {before after : List (LookupEvent δ)}
    (h : Shows opts srv P s i op op' before after) {e : LookupEvent δ} (he : e ∈ before) :
    e = .installed i none := by
  cases h with
  | installed => exact List.mem_singleton.mp he
  | _ => cases he

/-- A lookup that returns a lease had not returned before. -/
theorem Shows.after {op' : Lookup} {before after : List (LookupEvent δ)}
    (h : Shows opts srv P s i op op' before after) {e : LookupEvent δ} (he : e ∈ after) :
    (∃ content result, e = .answered i content result) ∨
      ∃ result, e = .ret i result ∧ ∀ rep, result = .ok rep →
        op.phase ≠ .returned ∧ ∃ r, op'.held = some r := by
  have hnew : ∀ {p : Phase}, op.phase = p → p ≠ .returned → op.phase ≠ .returned :=
    fun hp hne h => hne (hp.symm.trans h)
  cases h with
  | refused =>
    simp only [List.mem_cons, List.not_mem_nil, or_false] at he
    exact he.imp (fun h => ⟨_, _, h⟩) fun h => ⟨_, h, fun rep hok => by cases hok⟩
  | granted hphase _ _ _ hheld =>
    simp only [List.mem_cons, List.not_mem_nil, or_false] at he
    refine he.imp (fun h => ⟨_, _, h⟩) fun h => ⟨_, h, fun _ _ => ⟨?_, _, hheld⟩⟩
    cases hphase with
    | inl h => exact hnew h nofun
    | inr h => exact hnew h nofun
  | mismatch =>
    simp only [List.mem_cons, List.not_mem_nil, or_false] at he
    exact he.imp (fun h => ⟨_, _, h⟩) fun h => ⟨_, h, fun rep hok => by cases hok⟩
  | missing => cases he
  | fetched => exact .inl ⟨_, _, List.mem_singleton.mp he⟩
  | failed => exact .inr ⟨_, List.mem_singleton.mp he, fun rep hok => by cases hok⟩
  | installed hphase _ hheld =>
    exact .inr ⟨_, List.mem_singleton.mp he, fun _ _ => ⟨hnew hphase nofun, _, hheld⟩⟩
  | given => cases he

theorem Steps.installed {old : Option Nat} (h : Steps opts srv hash P Q s i op s' es)
    (hin : .installed j old ∈ es) : old = none := by
  cases h with
  | mk op' t ds before hmove hgone hclean hshows =>
    simp only [List.mem_append, List.mem_map] at hin
    rcases hin with (hin | ⟨d, -, hd⟩) | hin
    · cases hshows.before hin
      rfl
    · cases hd
    · rcases hshows.after hin with ⟨_, _, he⟩ | ⟨_, he, -⟩
      · cases he
      · cases he

theorem Steps.deleted (h : Steps opts srv hash P Q s i op s' es) (hin : .deleted k d ∈ es) :
    references s'.ops k d.1 = 0 ∧ (¬s.Outlived op → d.2.Clean) := by
  cases h with
  | mk op' t ds before hmove hgone hclean hshows =>
    simp only [List.mem_append, List.mem_map] at hin
    rcases hin with (hin | ⟨d', hd', he⟩) | hin
    · cases hshows.before hin
    · cases he
      exact ⟨hgone d hd', fun hout => hclean hout d hd'⟩
    · rcases hshows.after hin with ⟨_, _, he⟩ | ⟨_, he, -⟩
      · cases he
      · cases he

theorem Steps.returned {rep : LookupStat} (hop : s.ops[i]? = some op)
    (h : Steps opts srv hash P Q s i op s' es) (hin : .ret j (.ok rep) ∈ es) :
    j = i ∧ op.phase ≠ .returned ∧
      ∃ op' r, s'.ops = s.ops.set i op' ∧ s'.ops[i]? = some op' ∧ op'.held = some r := by
  cases h with
  | mk op' t ds before hmove hgone hclean hshows =>
    simp only [List.mem_append, List.mem_map] at hin
    rcases hin with (hin | ⟨d, -, hd⟩) | hin
    · cases hshows.before hin
    · cases hd
    · rcases hshows.after hin with ⟨_, _, he⟩ | ⟨_, he, hret⟩
      · cases he
      · cases he
        obtain ⟨hphase, r, hheld⟩ := hret rep rfl
        refine ⟨rfl, hphase, op', r, hmove.ops, ?_, hheld⟩
        rw [hmove.ops]
        exact TransitionSystem.pool_set_self hop

/-- Every step may be taken, if nothing is asked of the calls, the server and
the contexts. -/
theorem allowed_true (s : Lookups δ) (label : LookupLabel δ) :
    Allowed opts (fun _ _ _ => True) (fun _ _ _ _ _ => True) (fun _ _ => True) s label := by
  cases label with
  | check => exact fun _ _ _ _ _ _ _ _ _ => trivial
  | take => exact fun _ _ _ _ _ _ _ _ _ => trivial
  | others => exact fun _ => trivial
  | _ => trivial

/-- The invariant that asks nothing holds in every run. -/
theorem threads_true {C : Lookups δ → LookupLabel δ → Prop}
    (hr : (lookups opts srv hash).Run C tr s) :
    Threads opts hash (fun _ _ _ => True) (fun _ _ _ _ _ => True) (fun _ _ => True) s :=
  threads_of_run serves_true sharing_true (fun s k _ => allowed_true s k) hr

/-! ## Table, cache and references

Three ways lead to a lease, and they must agree. A lease in the table is not out; one in the
cache is in the table; a lease that is referenced is in memory, and it may be in neither of them
when it has expired or its context is gone. All of this is read off the invariant, at any point
of any run. -/

/-- What the leases of a client guarantee, in a run that shows `tr` and ends in
`s`. -/
structure Coherent (opts : Options) (srv : Server δ) (hash : Slice → UInt32)
    (tr : List (LookupEvent δ)) (s : Lookups δ) : Prop where
  parts : ∀ k, (s.parts k).Consistent (references s.ops k)
  /-- at most one lookup of a name is at the server -/
  alone : ∀ {i j : Nat} {op op' : Lookup}, s.ops[i]? = some op → s.ops[j]? = some op' →
    op.phase.inside = true → op'.phase.inside = true → op.part opts = op'.part opts →
    op.name = op'.name → i = j
  /-- an insertion finds no older lease -/
  installed : ∀ {i : Nat} {old : Option Nat}, .installed i old ∈ tr → old = none
  /-- a lease that is found can be cached and has not expired -/
  found : ∀ {k : DirId × Nat} {name : Slice} {now : UInt64} {t : Leases} {l : Nat}
    {ds : List Deleted}, (s.parts k).check name now = some (t, some l, ds) →
    ∃ lease, t.mem l = some lease ∧ lease.key = name ∧ lease.rep.leaseDue ≠ 0 ∧
      ¬lease.rep.leaseDue < now
  /-- a lease is deleted with the last reference to it -/
  deleted : ∀ {label : LookupLabel δ} {s' : Lookups δ} {es : List (LookupEvent δ)}
    {k : DirId × Nat} {d : Deleted}, step opts srv hash s label = some (s', es) →
    .deleted k d ∈ es → references s'.ops k d.1 = 0

/-- **The table, the cache and the references agree** in every run.

A thread may use a lease it has found only because of this: what it finds is live, in the
mode it says, and counted. The proof is about no interleaving in particular. `Threads` says
what holds whenever the mutex of a partition is free, each section keeps it
(`Stepped.threads`), and `Coherent` reads the guarantees off it. -/
theorem leases_coherent (hr : (lookups opts srv hash).Run (fun _ _ => True) tr s) :
    Coherent opts srv hash tr s := by
  have hi := threads_true hr
  refine ⟨fun k => (hi.leases k).consistent, fun hop hop' hin hin' hp hn => ?_, fun {i old} h => ?_,
    (hi.leases _).found, fun hs hd => ?_⟩
  · apply hi.alone hop hop' hin hin' hp
    rw [Lookup.way, Lookup.way, hn]
  · have hall : ∀ i old, .installed i old ∈ tr → old = none := by
      refine hr.invariant (I := fun tr _ => ∀ i old, .installed i old ∈ tr → old = none)
        (fun s hs i old h => absurd h List.not_mem_nil) fun tr s k s' es hr ih _ hs i old h => ?_
      cases List.mem_append.mp h with
      | inl h => exact ih i old h
      | inr h =>
        cases Stepped.of_step serves_true sharing_true (threads_true hr) (allowed_true s k) hs with
        | called => cases List.mem_singleton.mp h
        | moved _ _ hsteps => exact hsteps.installed h
        | deleted => cases h
        | others => cases h
    exact hall i old h
  · cases Stepped.of_step serves_true sharing_true hi (allowed_true s _) hs with
    | called => cases List.mem_singleton.mp hd
    | moved _ _ hsteps => exact (hsteps.deleted hd).1
    | deleted => cases hd
    | others => cases hd

/-- The owner of a directory opens a batch on it twice: both handles are on the
one lease of the directory. -/
theorem leases_coherent_openTwice :
    ∃ tr s, ownedLookups.Run (fun _ _ => True) tr s ∧
      references s.ops (partOf oneServerOptions rtlokupstat.dirId (str "a")) 0 = 2 ∧
      Coherent oneServerOptions ownedDirs (fun name => DeltaFs.hash name 0) tr s := by
  have hexec : (ownedLookups.exec (fun _ _ => true) (start oneServerOptions ()) openTwice).map
      (fun x => references x.1.ops (partOf oneServerOptions rtlokupstat.dirId (str "a")) 0) =
        some 2 := by decide +kernel
  obtain ⟨x, hx, href⟩ := Option.map_eq_some_iff.mp hexec
  have hstart : ownedLookups.Run (fun _ _ => True) [] (start oneServerOptions ()) := .init ⟨(), rfl⟩
  have hr := hstart.exec (fun _ _ _ => trivial) hx
  exact ⟨_, x.1, hr, href, leases_coherent hr⟩

/-! ## Leases and their contexts

A context is deleted with its last handle, and its lease must forget it then, since the lease
may be in use for longer. `Destroy` of a batch always does this. `Destroy` of a bulk insertion
does it only for a lease that is still in the table. The run at the end of the section shows
what is left otherwise. -/

/-- The last handle of a bulk insertion is not destroyed while its lease is
out. -/
def Dissociates (s : Lookups δ) : LookupLabel δ → Prop
  | .destroy i => ∀ op, s.ops[i]? = some op → ¬s.Outlived op
  | _ => True

/-- The contexts of the leases have handles, and a lease nobody references has
no context. -/
def Attached (s : Lookups δ) : Prop :=
  ∀ k l lease, (s.parts k).mem l = some lease →
    (references s.ops k l = 0 → lease.Clean) ∧
      (∀ bc, lease.batch = some bc → 0 < bc.refs) ∧ ∀ bk, lease.bk = some bk → 0 < bk.refs

theorem Threads.attached (hi : Threads opts hash M P Q s) : s.Attached := by
  intro k l lease hl
  have ho := (hi.leases k).ok hl
  have hcounts := ho.counts
  rw [Lease.Counts] at hcounts
  refine ⟨fun hzero => (hzero ▸ ho).clean, fun bc hbc => ?_, fun bk hbk => ?_⟩
  · cases hm : lease.mode with
    | kRegular =>
      rw [hm] at hcounts
      cases hcounts.1.symm.trans hbc
    | kBatchedCreats =>
      rw [hm] at hcounts
      obtain ⟨-, bc', hbc', hrefs⟩ := hcounts
      obtain rfl := Option.some.inj (hbc'.symm.trans hbc)
      rw [hrefs]
      exact ho.pos (by rw [hm]; decide)
    | kBulkIn =>
      rw [hm] at hcounts
      cases hcounts.1.symm.trans hbc
  · cases hm : lease.mode with
    | kRegular =>
      rw [hm] at hcounts
      cases hcounts.2.symm.trans hbk
    | kBatchedCreats =>
      rw [hm] at hcounts
      cases hcounts.1.symm.trans hbk
    | kBulkIn =>
      rw [hm] at hcounts
      obtain ⟨-, bk', hbk', hrefs⟩ := hcounts
      obtain rfl := Option.some.inj (hbk'.symm.trans hbk)
      rw [hrefs]
      exact ho.pos (by rw [hm]; decide)

/-- **A lease is deleted without a context**, in every run in which no bulk
insertion loses its last handle when its lease is out.

This is what `DeleteLease` asserts. A lease that has a context has a handle, and loses the
context with the last one; only `Destroy(BULK*)` leaves the context in place when the lease
has been taken out of the table meanwhile, and that is the step the condition excludes. -/
theorem deleted_clean (hr : (lookups opts srv hash).Run Dissociates tr s) :
    (∀ k d, .deleted k d ∈ tr → d.2.Clean) ∧ s.Attached := by
  refine ⟨?_, Threads.attached (threads_true hr)⟩
  refine hr.invariant (I := fun tr _ => ∀ k d, .deleted k d ∈ tr → d.2.Clean)
    (fun s hs k d h => absurd h List.not_mem_nil) fun tr s label s' es hr ih hd hs k d h => ?_
  cases List.mem_append.mp h with
  | inl h => exact ih k d h
  | inr h =>
    cases Stepped.of_step serves_true sharing_true (threads_true hr) (allowed_true s label) hs with
    | called => cases List.mem_singleton.mp h
    | moved hop hlabel hsteps =>
      -- only a step the condition is about can leave a context
      apply (hsteps.deleted h).2
      intro hout
      obtain rfl := hlabel hout
      exact hd _ hop hout
    | deleted => cases h
    | others => cases h

/-- A server whose leases cannot be cached. -/
def uncacheableDirs : Server Unit where
  lokup _ _ _ _ := ((), .ok ⟨0, 1, 0, 0o755, 1, 1, 0⟩)
  mkfle _ _ _ _ _ stat := ((), .ok, stat)
  mkdir _ _ _ _ _ stat := ((), .ok, stat)
  lstat _ _ _ _ stat := ((), .ok, stat)

/-- A user opens `a` in some mode, and destroys the handle. -/
def openDestroy (mode : LokupMode) : List (LookupLabel Unit) :=
  [.call ⟨1, 1⟩ rtlokupstat (str "a") mode, .check 0 1, .take 0 1, .fetch 0, .finish 0, .destroy 0]

/-- Whether a lease that is deleted has a context. -/
def leaves (e : LookupEvent Unit) : Option Bool :=
  match e with
  | .deleted _ d => some (d.2.batch.isSome || d.2.bk.isSome)
  | _ => none

/-- A batch is closed on a lease that can be cached. -/
theorem deleted_clean_batch :
    ∃ tr s, ownedLookups.Run Dissociates tr s ∧ tr.filterMap leaves = [false] ∧
      (∀ k d, .deleted k d ∈ tr → d.2.Clean) ∧ s.Attached := by
  let isBatch (s : Lookups Unit) (label : LookupLabel Unit) : Bool :=
    match label with
    | .destroy i => s.ops[i]?.all fun op => op.held.all fun r => decide (r.mode = .kBatchedCreats)
    | _ => true
  have hexec : (ownedLookups.exec isBatch (start oneServerOptions ())
      (openDestroy .kBatchedCreats)).map (fun x => x.2.filterMap leaves) = some [false] := by
    decide +kernel
  obtain ⟨x, hx, hdel⟩ := Option.map_eq_some_iff.mp hexec
  have hstart : ownedLookups.Run Dissociates [] (start oneServerOptions ()) := .init ⟨(), rfl⟩
  have hr := hstart.exec (fun s label h => ?_) hx
  · rw [List.nil_append] at hr
    exact ⟨_, x.1, hr, hdel, deleted_clean hr⟩
  · cases label with
    | destroy i =>
      intro op hop
      apply not_outlived
      intro r hr hmode
      have h : s.ops[i]?.all (fun op => op.held.all fun r =>
        decide (r.mode = .kBatchedCreats)) = true := h
      rw [hop, Option.all_some, hr, Option.all_some, hmode] at h
      cases h
    | _ => trivial

/-- A bulk insertion on a lease that cannot be cached leaves its context in the
lease. -/
theorem deleted_dangling :
    ∃ tr s k d, (lookups oneServerOptions uncacheableDirs fun name => DeltaFs.hash name 0).Run
      (fun _ _ => True) tr s ∧ .deleted k d ∈ tr ∧ ¬d.2.Clean := by
  have hexec : ((lookups oneServerOptions uncacheableDirs fun name => DeltaFs.hash name 0).exec
      (fun _ _ => true) (start oneServerOptions ()) (openDestroy .kBulkIn)).map
        (fun x => x.2.filterMap leaves) = some [true] := by decide +kernel
  obtain ⟨x, hx, hdel⟩ := Option.map_eq_some_iff.mp hexec
  have hstart : (lookups oneServerOptions uncacheableDirs fun name => DeltaFs.hash name 0).Run
      (fun _ _ => True) [] (start oneServerOptions ()) := .init ⟨(), rfl⟩
  have hr := hstart.exec (fun _ _ _ => trivial) hx
  rw [List.nil_append] at hr
  obtain ⟨e, he, hleaves⟩ := List.mem_filterMap.mp (hdel ▸ List.mem_singleton_self true)
  cases e with
  | deleted k d =>
    refine ⟨_, x.1, k, d, hr, he, fun hclean => ?_⟩
    rw [leaves, hclean.1, hclean.2] at hleaves
    cases hleaves
  | _ => cases hleaves

/-! ## The modes exclude each other

While leases do not expire a directory has one lease, and the mode of a lease does not change.
So a lookup that asks for another mode while the lease is held finds this lease and is refused.
The argument is about one directory at a time, and needs that nothing is out. -/

/-- Two lookups are of one directory. -/
def SameDir (op op' : Lookup) : Prop :=
  op'.parent.dirId = op.parent.dirId ∧ op'.name = op.name

/-- Every lease has the largest due. -/
def NeverExpires (srv : Server δ) : Prop :=
  ∀ {d who p name rep}, (srv.lokup d who p name).2 = .ok rep → rep.leaseDue = -1

/-- What a lookup returns never expires. -/
abbrev Maximal (_ : δ) (_ : DirId) (_ : Slice) (_ : LokupMode) (rep : LookupStat) : Prop :=
  rep.leaseDue = -1

theorem NeverExpires.serves (h : NeverExpires srv) :
    Serves srv (fun _ _ _ => True) (Maximal (δ := δ)) :=
  ⟨fun h => h, fun _ hrep => h hrep⟩

/-- Every step may be taken. -/
theorem allowed_maximal (s : Lookups δ) (label : LookupLabel δ) :
    Allowed opts (fun _ _ _ => True) Maximal (fun _ _ => True) s label := by
  cases label with
  | check => exact fun _ _ _ _ _ _ _ _ _ => trivial
  | take => exact fun _ _ _ _ _ _ _ _ _ => trivial
  | others => exact fun h => h
  | _ => trivial

/-- Leases that do not expire are never out, so that a directory has one. -/
theorem Threads.shared (hi : Threads opts hash M Maximal Q s) {op' : Lookup} {r r' : Ref}
    (hop : s.ops[i]? = some op) (hr : op.held = some r) (hop' : s.ops[j]? = some op')
    (hr' : op'.held = some r') (hdir : SameDir op op') :
    op'.mode = op.mode ∧ r'.part = r.part ∧ r'.lease = r.lease := by
  have hh := hi.held hop hr
  have hh' := hi.held hop' hr'
  have hpart : r'.part = r.part := by
    rw [hh'.part, hh.part, Lookup.part, Lookup.part, hdir.1, hdir.2]
  obtain ⟨lease, hl, hmode, -, hkey, -⟩ := hh.lease
  obtain ⟨lease', hl', hmode', -, hkey', -⟩ := hh'.lease
  rw [hpart] at hl'
  have hin : ∀ {l x}, (s.parts r.part).mem l = some x → x.out = false := by
    intro l x hx
    rw [Bool.eq_false_iff]
    intro hout
    have ho := (hi.leases r.part).ok hx
    exact ho.out hout ho.rep
  have hlease : r'.lease = r.lease := by
    apply (hi.leases r.part).consistent.single hl' hl (hin hl') (hin hl)
    rw [hkey', hkey, hdir.2]
  refine ⟨?_, hpart, hlease⟩
  rw [hlease, hl] at hl'
  obtain rfl := Option.some.inj hl'
  rw [← hmode, ← hmode']

/-- **The modes exclude each other**: while a lookup holds a lease of a
directory, no other lookup of that directory returns one in another mode, and
all that hold one share it, with its context.

What makes it so is that a lease that is referenced is in the table, as long as it is not
out: whoever comes later finds it there, and either shares it or is turned down. A lease
goes out when it has expired, hence `NeverExpires`. -/
theorem modes_exclusive (hdue : NeverExpires srv)
    (hr : (lookups opts srv hash).Run (fun _ _ => True) tr s) {r : Ref}
    (hop : s.ops[i]? = some op) (hheld : op.held = some r) :
    (∀ {label : LookupLabel δ} {s' : Lookups δ} {es : List (LookupEvent δ)} {j : Nat}
        {rep : LookupStat} {op' : Lookup}, step opts srv hash s label = some (s', es) →
        .ret j (.ok rep) ∈ es → s'.ops[j]? = some op' → SameDir op op' → op'.mode = op.mode) ∧
      (∀ {j : Nat} {op' : Lookup} {r' : Ref}, s.ops[j]? = some op' → op'.held = some r' →
        SameDir op op' → op'.mode = op.mode ∧ r'.part = r.part ∧ r'.lease = r.lease) ∧
      ∃ lease, (s.parts r.part).mem r.lease = some lease ∧ lease.mode = op.mode ∧
        lease.key = op.name ∧ lease.Counts (references s.ops r.part r.lease) := by
  have hthreads : ∀ {tr s}, (lookups opts srv hash).Run (fun _ _ => True) tr s →
      Threads opts hash (fun _ _ _ => True) Maximal (fun _ _ => True) s :=
    fun hr => threads_of_run hdue.serves sharing_true (fun s k _ => allowed_maximal s k) hr
  have hi := hthreads hr
  refine ⟨fun {label s' es j rep op'} hs hret hop' hdir => ?_,
    fun hop' hr' hdir => Threads.shared hi hop hheld hop' hr' hdir, ?_⟩
  · cases Stepped.of_step hdue.serves sharing_true hi (allowed_maximal s label) hs with
    | called => cases List.mem_singleton.mp hret
    | moved hop₁ _ hsteps =>
      obtain ⟨rfl, hphase, op₁, r₁, hops, hop₁', hr₁⟩ := hsteps.returned hop₁ hret
      obtain rfl := Option.some.inj (hop₁'.symm.trans hop')
      -- the lookup that returns is another one, which leaves `op` where it is
      have hne : i ≠ j := by
        rintro rfl
        obtain rfl := Option.some.inj (hop₁.symm.trans hop)
        exact hphase (hi.held hop hheld).returned
      have hkept : s'.ops[i]? = some op := by
        rw [hops, TransitionSystem.pool_set_ne hne]
        exact hop
      exact (Threads.shared (hthreads (hr.step trivial hs)) hkept hheld hop' hr₁ hdir).1
    | deleted => cases hret
    | others => cases hret
  · have hh := hi.held hop hheld
    obtain ⟨lease, hl, hmode, -, hkey, -⟩ := hh.lease
    exact ⟨lease, hl, hmode, hkey, ((hi.leases r.part).ok hl).counts⟩

/-- The owner of a directory opens a batch on it twice: the handles share a
lease. -/
theorem modes_exclusive_openTwice :
    ∃ tr s op op' r r', NeverExpires ownedDirs ∧ ownedLookups.Run (fun _ _ => True) tr s ∧
      s.ops[0]? = some op ∧ op.held = some r ∧ s.ops[1]? = some op' ∧ op'.held = some r' ∧
      SameDir op op' ∧ op'.mode = op.mode ∧ r'.part = r.part ∧ r'.lease = r.lease := by
  let seen (op : Lookup) : Option (DirId × Slice) := op.held.map fun _ => (op.parent.dirId, op.name)
  have hexec : (ownedLookups.exec (fun _ _ => true) (start oneServerOptions ()) openTwice).map
      (fun x => (x.1.ops[0]?.bind seen, x.1.ops[1]?.bind seen)) =
        some (some (rtlokupstat.dirId, str "a"), some (rtlokupstat.dirId, str "a")) := by
    decide +kernel
  obtain ⟨x, hx, hseen⟩ := Option.map_eq_some_iff.mp hexec
  obtain ⟨hfirst, hsecond⟩ := Prod.mk.inj hseen
  obtain ⟨op, hop, h⟩ := Option.bind_eq_some_iff.mp hfirst
  obtain ⟨r, hheld, hdir⟩ := Option.map_eq_some_iff.mp h
  obtain ⟨op', hop', h'⟩ := Option.bind_eq_some_iff.mp hsecond
  obtain ⟨r', hheld', hdir'⟩ := Option.map_eq_some_iff.mp h'
  have hsame : SameDir op op' := Prod.mk.inj (hdir'.trans hdir.symm)
  have hnever : NeverExpires ownedDirs := by
    intro d who p name rep hrep
    cases hrep
    rfl
  have hstart : ownedLookups.Run (fun _ _ => True) [] (start oneServerOptions ()) := .init ⟨(), rfl⟩
  have hr := hstart.exec (fun _ _ _ => trivial) hx
  exact ⟨_, x.1, op, op', r, r', hnever, hr, hop, hheld, hop', hheld', hsame,
    (modes_exclusive hnever hr hop hheld).2.1 hop' hheld' hsame⟩

end Lookups

end FilesystemCli

end DeltaFs
