import DeltaFs.Cluster
import DeltaFs.Linear
import DeltaFs.Locality

/-!
# The servers of a cluster are one map

`creates_linearizable` is about one server. A cluster has many, and each of its clients
talks to all of them; but a name has one server, so every server is a shard of one map
from directories and names to stats. Every run of clients and servers is linearizable
with respect to this map, in the order in which things happen anywhere.

The requests are about directories whose number fits a key (`Label.Fits`): the servers of
two directories that share their keys would see each other's entries, as one server does.
What a server turns down is accounted for as in `Outcomes.lean`, by a step of that very
operation at that very server (`stepsAt`).
-/

namespace DeltaFs

open FilesystemCli Linearization TransitionSystem

theorem Filesystem.Label.Routed.plain {fs : Filesystem} {l : Filesystem.Label} (h : l.Routed fs) :
    l.Plain := by
  cases l with
  | call c stat => exact h.1
  | advance k e => trivial

namespace Cluster

variable {cl : Cluster}

/-- What the server of a name holds, of what all servers do. -/
def gathered (cl : Cluster) (m : Nat → Entries) : Entries :=
  fun id x => m (selectServer cl.xx cl.n id x) id x

/-- The servers are shards of one map. -/
theorem shards (cl : Cluster) : Shards entrySpec entrySpec (fun m a => a = cl.gathered m)
    fun i t => i = selectServer cl.xx cl.n t.key.1 t.key.2 where
  step := by
    rintro m a i t m' rfl hown hstep
    have hview : cl.gathered m t.key.1 t.key.2 = m i t.key.1 t.key.2 := by rw [gathered, ← hown]
    cases t with
    | created id x st =>
      obtain ⟨hnone, -⟩ := step_created hstep
      have hfree : cl.gathered m id x = none := hview.trans hnone
      obtain rfl : (m i).add id x st = m' := Option.some.inj ((if_pos hnone).symm.trans hstep)
      refine ⟨_, if_pos hfree, ?_⟩
      funext id' x'
      rw [gathered, Entries.add]
      by_cases hsel : selectServer cl.xx cl.n id' x' = i
      · rw [hsel, Function.update_self, Entries.add, gathered, hsel]
      · have hne : ¬(id' = id ∧ x' = x) := by
          rintro ⟨rfl, rfl⟩
          exact hsel (Eq.symm hown)
        rw [Function.update_of_ne hsel, if_neg hne]
        rfl
    | collided id x =>
      simp only [entrySpec] at hstep
      split at hstep
      · rename_i hsome
        cases hstep
        rw [Function.update_eq_self]
        have hthere : (cl.gathered m id x).isSome := by
          rw [show cl.gathered m id x = m i id x from hview]
          exact hsome
        exact ⟨_, if_pos hthere, rfl⟩
      · cases hstep
    | looked id x v =>
      simp only [entrySpec] at hstep
      split at hstep
      · rename_i hv
        cases hstep
        rw [Function.update_eq_self]
        exact ⟨_, if_pos (hview.trans hv), rfl⟩
      · cases hstep

/-! ## The steps of one server

A run of the cluster, seen from one server, is a run of that server: the steps of others leave
it as it is. The two directions are both needed. Forwards, what is known of single servers is
used in the cluster; backwards, an operation of the cluster is an operation of one of them. -/

/-- The step server `i` takes in a step of the cluster. -/
def serverStep (i : Nat) : State × Label → Option (Filesystem.State × Filesystem.Label)
  | (s, .deliver m) =>
    match s.net[m]? with
    | none => none
    | some msg => if msg.dst = i then some (s.servers i, .call msg.call msg.stat) else none
  | (s, .server q k e) => if q = i then some (s.servers i, .advance k e) else none
  | (_, .start _ _) => none
  | (_, .client _ _ _) => none

/-- The steps server `i` takes in a run of the cluster. -/
def stepsAt (i : Nat) (ks : List (State × Label)) : List (Filesystem.State × Filesystem.Label) :=
  ks.filterMap (serverStep i)

/-- What operation `n` of the cluster may have touched, given its reply; `n` is the pair of
its server and of its number there. -/
def explains (cl : Cluster) (ks : List (State × Label)) (n : Nat) :
    Call → Option Reply → List Touch → Prop :=
  (cl.servers n.unpair.1).explains (Among (stepsAt n.unpair.1 ks)) n.unpair.2

variable {dbs : Nat → Db} {tr evs : List (Nat × FsEvent)} {s s' : State} {ks : List (State × Label)}

/-- A step of server `q`, as server `i` sees it. -/
theorem stepServer_at {q i : Nat} {l : Filesystem.Label} (h : cl.stepServer s q l = some (s', evs)) :
    (q = i ∧ (cl.servers i).step (s.servers i) l = some (s'.servers i, eventsAt i evs)) ∨
      (q ≠ i ∧ s'.servers i = s.servers i ∧ eventsAt i evs = []) := by
  obtain ⟨⟨σ, es⟩, hs, heq⟩ := Option.map_eq_some_iff.mp h
  cases heq
  by_cases hq : q = i
  · subst hq
    refine .inl ⟨rfl, ?_⟩
    dsimp only
    rw [Function.update_self, eventsAt_self]
    exact hs
  · refine .inr ⟨hq, ?_, eventsAt_ne (Ne.symm hq) es⟩
    dsimp only
    rw [Function.update_of_ne (Ne.symm hq)]

/-- **A run of the cluster is a run of each of its servers**, with the steps of that
server. -/
theorem run_steps (hs : (cl.system dbs).Steps ks tr s) (i : Nat) :
    ((cl.servers i).system (some (dbs i))).Steps (stepsAt i ks) (eventsAt i tr) (s.servers i) := by
  induction hs with
  | init h₀ => exact .init (h₀.1 i)
  | @step ks tr s s' l evs _ hs ih =>
    rw [stepsAt, List.filterMap_append, eventsAt_append]
    have hidle : serverStep i (s, l) = none → s'.servers i = s.servers i ∧ eventsAt i evs = [] →
        ((cl.servers i).system (some (dbs i))).Steps
          (ks.filterMap (serverStep i) ++ [(s, l)].filterMap (serverStep i))
          (eventsAt i tr ++ eventsAt i evs) (s'.servers i) := by
      intro hnone hsame
      rw [List.filterMap_cons_none hnone, List.filterMap_nil, List.append_nil, hsame.1, hsame.2,
        List.append_nil]
      exact ih
    cases l with
    | start j c =>
      refine hidle rfl ?_
      simp only [system, step] at hs
      split at hs
      · cases hs
        exact ⟨rfl, rfl⟩
      · cases hs
    | client j k stat =>
      refine hidle rfl ?_
      obtain ⟨⟨c, ms⟩, -, heq⟩ := Option.map_eq_some_iff.mp hs
      cases heq
      exact ⟨rfl, rfl⟩
    | deliver m =>
      simp only [system, step] at hs
      split at hs
      · cases hs
      rename_i msg hmsg
      rcases stepServer_at (i := i) hs with ⟨hdst, hstep⟩ | ⟨hdst, hsame⟩
      · have hsome : serverStep i (s, .deliver m) =
            some (s.servers i, .call msg.call msg.stat) := by
          rw [serverStep, hmsg]
          exact if_pos hdst
        rw [List.filterMap_cons_some hsome, List.filterMap_nil]
        exact .step ih hstep
      · refine hidle ?_ hsame
        rw [serverStep, hmsg]
        exact if_neg hdst
    | server q k e =>
      rcases stepServer_at (i := i) hs with ⟨hq, hstep⟩ | ⟨hq, hsame⟩
      · have hsome : serverStep i (s, .server q k e) = some (s.servers i, .advance k e) := if_pos hq
        rw [List.filterMap_cons_some hsome, List.filterMap_nil]
        exact .step ih hstep
      · exact hidle (if_neg hq) hsame

/-! ## Shards

A server holds the names that are routed to it. Names are routed by one function, so the maps of
the servers have disjoint domains, and their union is the map that all together implement. This
is what is needed to put the linearizations of the servers into one. -/

/-- Nothing happens beyond the last server. -/
theorem run_idle (hr : (cl.system dbs).Run (fun _ l => l.Fits) tr s) {i : Nat} (hi : cl.n ≤ i) :
    s.servers i = (cl.servers i).start (some (dbs i)) ∧ object i tr = [] := by
  refine hr.invariant (I := fun tr s => s.servers i = (cl.servers i).start (some (dbs i)) ∧
    object i tr = []) ?_ ?_
  · rintro s ⟨hservers, -⟩
    exact ⟨hservers i, rfl⟩
  · intro tr s l s' evs hr hI _ hs
    have hserver : ∀ {s : State} {q : Nat} {l : Filesystem.Label},
        s.servers i = (cl.servers i).start (some (dbs i)) → q ≠ i →
        cl.stepServer s q l = some (s', evs) →
        s'.servers i = (cl.servers i).start (some (dbs i)) ∧ object i (tr ++ evs) = [] := by
      intro s q l hstart hq hs
      obtain ⟨⟨σ, es⟩, hs, heq⟩ := Option.map_eq_some_iff.mp hs
      cases heq
      refine ⟨?_, ?_⟩
      · dsimp only
        rw [Function.update_of_ne (Ne.symm hq)]
        exact hstart
      · rw [object_append, hI.2, List.nil_append]
        exact eventsAt_ne (Ne.symm hq) es
    cases l with
    | start j c =>
      simp only [system, step] at hs
      split at hs
      · cases hs
        rw [List.append_nil]
        exact hI
      · cases hs
    | client j k stat =>
      obtain ⟨⟨c, ms⟩, -, heq⟩ := Option.map_eq_some_iff.mp hs
      cases heq
      rw [List.append_nil]
      exact hI
    | deliver m =>
      simp only [system, step] at hs
      split at hs
      · cases hs
      rename_i msg hmsg
      have hlt := ((run_inv hr).net msg (List.mem_of_getElem? hmsg)).1
      exact hserver (s := { s with net := s.net.eraseIdx m }) hI.1 (by omega) hs
    | server q k e =>
      by_cases hq : q = i
      · obtain ⟨⟨σ, es⟩, hs, -⟩ := Option.map_eq_some_iff.mp hs
        rw [hq, hI.1] at hs
        cases hs
      · exact hserver hI.1 hq hs

/-- A touch is made at the server of its name. -/
theorem run_owns (hr : (cl.system dbs).Run (fun _ l => l.Fits) tr s) (i k : Nat) (t : Touch)
    (ht : (i, .pt k t) ∈ tr) :
    i < cl.n ∧ i = selectServer cl.xx cl.n t.key.1 t.key.2 ∧ t.key.1.Fits := by
  have hlt : i < cl.n := by
    by_contra hi
    have hmem := mem_eventsAt.mpr ht
    rw [show eventsAt i tr = [] from (run_idle hr (Nat.le_of_not_lt hi)).2] at hmem
    cases hmem
  have hrun := (run_inv hr).servers i hlt
  have hl := Filesystem.run_log hrun
  obtain ⟨c, hc⟩ := hl.wf.invoked (mem_eventsAt.mpr ht)
  obtain ⟨op, hop, rfl⟩ := hl.inv.mp hc
  obtain ⟨hplain, name, hname, hserves⟩ :=
    Filesystem.run_calls (P := (cl.servers i).Routed) (fun _ _ _ h => h) hrun hop
  obtain ⟨x, hx, hkey⟩ := Filesystem.Op.Touched.key (hl.touched hop)
    (mem_entries_points.mpr (mem_eventsAt.mpr ht))
  obtain rfl := Call.Names.eq_of_name hname hx
  rw [hkey]
  exact ⟨hlt, (serves_iff hlt).mp hserves, hplain.1⟩

/-- What the dbs of the servers hold when they have been opened. -/
def opened (cl : Cluster) (dbs : Nat → Db) : Entries :=
  cl.gathered fun i => view (dbs i :: (cl.servers i).readonlyDbs)

/-- What they hold in a state. -/
def held (cl : Cluster) (s : State) : Entries :=
  cl.gathered fun i => view ((cl.servers i).dbs (s.servers i))

/-- The touches at each server are legal, and lead to what its dbs hold. -/
theorem run_legal (hcoll : ∀ i < cl.n, (cl.servers i).options.skipNameCollisionChecks = false)
    (hr : (cl.system dbs).Run (fun _ l => l.Fits) tr s) :
    ∃ m : Nat → Entries, (∀ i, entrySpec.run (view (dbs i :: (cl.servers i).readonlyDbs))
        ((points (object i tr)).map Prod.snd) = some (m i)) ∧
      ∀ id, id.Fits → ∀ x, cl.gathered m id x = cl.held s id x := by
  have hone : ∀ i, ∃ a, entrySpec.run (view (dbs i :: (cl.servers i).readonlyDbs))
        ((points (object i tr)).map Prod.snd) = some a ∧
      (i < cl.n → ∀ id, id.Fits → ∀ x, a id x = view ((cl.servers i).dbs (s.servers i)) id x) := by
    intro i
    by_cases hi : i < cl.n
    · obtain ⟨a, ha, hv⟩ := (Filesystem.run_refines (hcoll i hi)
        (((run_inv hr).servers i hi).mono fun _ _ hl => hl.plain)).legal
      exact ⟨a, ha, fun _ => hv⟩
    · rw [(run_idle hr (Nat.le_of_not_lt hi)).2]
      exact ⟨_, rfl, fun h => absurd h hi⟩
  choose m hm hheld using hone
  exact ⟨m, hm, fun id hid x => hheld _ (selectServer_lt cl id x) id hid x⟩

/-- **The servers are linearizable together.** Take any run of clients and servers that
check for collisions, on directories whose number fits a key, and let `ks` be the steps it
takes. The history of all servers is linearizable with respect to one map, which holds at
first what the server of each name holds: a name has one server, so what is legal for the
map of every server is legal for the one map, in the order of the run. An entry is never
overwritten; no entry is created twice, whichever servers are asked; and an `Lstat` invoked
at any server after a create has returned at any server sees exactly the stat that was
stored, unless a check of its own lease, permission or partition fails, or a db does, in
one of the steps its server took for it. -/
theorem servers_linearizable (cl : Cluster)
    (hcoll : ∀ i < cl.n, (cl.servers i).options.skipNameCollisionChecks = false) (dbs : Nat → Db)
    {ks : List (State × Label)} {tr : List (Nat × FsEvent)} {s : State}
    (hsteps : (cl.system dbs).Steps ks tr s) (hfits : ∀ p ∈ ks, p.2.Fits) :
    Linearizable entrySpec (cl.opened dbs) (cl.explains ks) (history (merged tr)) ∧
      (∀ id x st, id.Fits → cl.opened dbs id x = some st → cl.held s id x = some st) ∧
      (∀ i k id x st, (i, .pt k (.created id x st)) ∈ tr → cl.held s id x = some st) ∧
      (((points (merged tr)).map Prod.snd).filterMap Touch.creation?).Nodup ∧
      ∀ l₁ l₂ l₃ i k r j q c x st r',
        tr = l₁ ++ (i, .ret k r) :: (l₂ ++ (j, .inv q c) :: l₃) →
        (i, .pt k (.created c.dirId x st)) ∈ tr → c.req = .lstat x → (j, .ret q r') ∈ tr →
        r'.status = .ok ∧ r'.stat = st ∨
          (cl.servers j).Refused (Among (stepsAt j ks)) q c r'.status ∨
            (cl.servers j).Faulted (Among (stepsAt j ks)) q c r'.status := by
  have hrun := hsteps.run_of (C := fun _ l => l.Fits) hfits
  have hI := run_inv hrun
  have hlog : ∀ i, (cl.servers i).Log (Among (stepsAt i ks)) (object i tr) (s.servers i).ops :=
    fun i => Filesystem.run_log (run_steps hsteps i).run
  obtain ⟨m, hm, hheld⟩ := run_legal hcoll hrun
  have hown := fun i k t ht => (run_owns hrun i k t ht).2.1
  obtain ⟨a, ha, rfl⟩ := (shards cl).run hown rfl hm
  refine ⟨⟨_, (shards cl).linearizes (fun i => (hlog i).wf) hown rfl hm ?_⟩, ?_, ?_,
    creations_nodup ha, ?_⟩
  · intro i k c hc
    obtain ⟨op, hop, rfl⟩ := (hlog i).inv.mp hc
    rw [explains, Nat.unpair_pair]
    exact (hlog i).explained hop
  · intro id x st hid hx
    rw [← hheld id hid]
    exact entries_keep ha hx
  · intro i k id x st hpt
    obtain ⟨-, -, hid⟩ := run_owns hrun i k _ hpt
    rw [← hheld id hid]
    refine created_stays ha (List.mem_map.mpr ⟨(Nat.pair i k, _), ?_, rfl⟩)
    exact mem_points.mpr (mem_merged (a := .pt k _).mpr (mem_object.mpr hpt))
  · intro l₁ l₂ l₃ i k r j q c x st r' htr hcre hreq hret
    obtain ⟨hi, hsel, -⟩ := run_owns hrun i k _ hcre
    have hj : j < cl.n := by
      by_contra hj
      have hmem := mem_eventsAt.mpr hret
      rw [show eventsAt j tr = [] from (run_idle hrun (Nat.le_of_not_lt hj)).2] at hmem
      cases hmem
    have hinv : (j, .inv q c) ∈ tr := by
      rw [htr]
      simp
    obtain ⟨op, hop, rfl⟩ := (hlog j).inv.mp (mem_object.mpr hinv)
    obtain ⟨-, name, hname, hserves⟩ :=
      Filesystem.run_calls (P := (cl.servers j).Routed) (fun _ _ _ h => h) (hI.servers j hj) hop
    rw [Call.name?, hreq] at hname
    obtain rfl := Option.some.inj hname
    obtain rfl : i = j := hsel.trans ((serves_iff hj).mp hserves).symm
    have htri : object i tr = object i l₁ ++ .ret k r :: (object i l₂ ++ .inv q op.call :: object i l₃) := by
      rw [htr, object_append, object_cons_self, object_append, object_cons_self]
    exact Filesystem.lstat_sees (run_steps hsteps i).run (hm i) htri (mem_object.mpr hcre) hreq
      (mem_object.mpr hret)

/-- A name at each of two servers, from two clients; then the second client looks up what
the first has made. -/
def mkfleAtBoth : List Label :=
  [.start 0 (Filesystem.rootCall 0 (.mkfle (str "ab") 0o660)), .client 0 0 Filesystem.zeroStat,
    .start 1 (Filesystem.rootCall 0 (.mkfle (str "a") 0o660)), .client 1 0 Filesystem.zeroStat,
    .client 0 0 Filesystem.zeroStat, .client 0 0 Filesystem.zeroStat, .client 1 0 Filesystem.zeroStat,
    .client 1 0 Filesystem.zeroStat, .deliver 1, .deliver 0] ++
    List.replicate 7 (.server 1 0 Filesystem.calm) ++
    List.replicate 7 (.server 0 0 Filesystem.calm) ++
    [.start 1 (Filesystem.rootCall 0 (.lstat (str "ab"))), .client 1 1 Filesystem.zeroStat,
      .client 1 1 Filesystem.zeroStat, .client 1 1 Filesystem.zeroStat, .deliver 0] ++
    List.replicate 5 (.server 1 1 Filesystem.calm)

/-- Each server numbers its operations on its own. -/
theorem servers_linearizable_mkfleAtBoth :
    ∃ ks tr s, (pair.system fun _ _ => none).Steps ks tr s ∧
      (0, .ret 0 ⟨.ok, Filesystem.firstStat, none, 0⟩) ∈ tr ∧
      (1, .ret 1 ⟨.ok, Filesystem.firstStat, none, 0⟩) ∈ tr ∧
      Linearizable entrySpec (pair.opened fun _ _ => none) (pair.explains ks)
        (history (merged tr)) ∧
      pair.held s ⟨0, 0⟩ (str "ab") = some Filesystem.firstStat := by
  have htr : ((pair.system fun _ _ => none).exec (fun _ l => decide l.Fits) fresh mkfleAtBoth).map
      Prod.snd =
      some [(0, .inv 0 (Filesystem.rootCall 0 (.mkfle (str "a") 0o660))),
        (1, .inv 0 (Filesystem.rootCall 0 (.mkfle (str "ab") 0o660))),
        (1, .pt 0 (.created ⟨0, 0⟩ (str "ab") Filesystem.firstStat)),
        (1, .ret 0 ⟨.ok, Filesystem.firstStat, none, 0⟩),
        (0, .pt 0 (.created ⟨0, 0⟩ (str "a") Filesystem.firstStat)),
        (0, .ret 0 ⟨.ok, Filesystem.firstStat, none, 0⟩),
        (1, .inv 1 (Filesystem.rootCall 0 (.lstat (str "ab")))),
        (1, .pt 1 (.looked ⟨0, 0⟩ (str "ab") (some Filesystem.firstStat))),
        (1, .ret 1 ⟨.ok, Filesystem.firstStat, none, 0⟩)] := by decide +kernel
  obtain ⟨⟨s, tr⟩, hp, htr⟩ := Option.map_eq_some_iff.mp htr
  have hinit : (pair.system fun _ _ => none).init fresh := ⟨fun _ => rfl, fun _ => rfl, rfl⟩
  have hrun := Run.exec (C := fun _ l => l.Fits) (fun _ _ hd => of_decide_eq_true hd)
    (.init hinit) hp
  obtain ⟨ks, hsteps, hfits⟩ := hrun.steps
  obtain ⟨hlin, -, hcreated, -, -⟩ :=
    servers_linearizable pair (fun _ _ => rfl) (fun _ _ => none) hsteps hfits
  dsimp only at htr
  rw [List.nil_append, htr] at hsteps hlin hcreated
  refine ⟨ks, _, _, hsteps, ?_, ?_, hlin, hcreated 1 0 _ _ _ ?_⟩
  · simp
  · simp
  · simp

end Cluster

end DeltaFs
