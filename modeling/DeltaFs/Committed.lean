import DeltaFs.InOrder
import DeltaFs.InTurn
import Mathlib.Data.List.Flatten

/-!
# What a committed batch leaves

The names of a batch go to the servers that are selected for them, some in each request,
while the batch is filled and when it is committed. When all inserts and the commit have
returned OK, all names were new, and the tree has a file of each
(`committed_adds`).

Two developments meet here. `InOrder` knows what a client sends, and nothing of what becomes
of it; `InTurn` knows what servers make of a request, and nothing of who has sent it. Both
speak of lists of names, which are compared in the order of the run.
-/

namespace DeltaFs

namespace Site

open FilesystemCli Namespace

/-! ## All requests of a batch

The servers do the requests of a batch in the order they were sent. Each is one `Mkfls` for one
server, and adds its names to the directory if it succeeds. Two requests may be for the same
server or not; either way the tree after both has the names of both. -/

/-- A handle is of client `j` of a site. -/
structure OfClient (cl : Cluster) (j : Nat) (h : DeltaFs.Handle) : Prop where
  xx : h.xx = cl.xx
  srvs : h.srvs = cl.n
  perms : h.skipPermChecks = cl.skipPermChecks j

/-- The servers do the requests of a batch one after the other, if their replies are those
the client has. A client that may not write in the directory sends nothing. The request
with the number `k` is done at the time `(env k).1`. -/
def serveAll (cl : Cluster) (h : DeltaFs.Handle) (env : Nat → UInt64 × Stat) :
    Nat → List (Sent MkflsRequest) → Cluster.Contents → Option Cluster.Contents
  | _, [], d => some d
  | k, x :: tr, d =>
    let c : Call := ⟨x.req.me, x.req.parent, .mkfls x.req.namearr x.req.mode x.req.n⟩
    let y := cl.mkflsAt (env k).1 x.srv d c (env k).2
    if x.status = h.send y.2.1 then
      serveAll cl h env (k + 1) tr (if isDirWriteOk h.skipPermChecks h.parent h.who then y.1 else d)
    else none

/-- What the requests of a batch have in common. -/
structure FromHandle (h : DeltaFs.Handle) (x : Sent MkflsRequest) : Prop where
  srv : x.srv < h.srvs
  parent : x.req.parent = h.parent
  me : x.req.me = h.who
  mode : x.req.mode = h.mode

section Requests

variable {cl : Cluster} {h : DeltaFs.Handle} {d d' : Cluster.Contents} {path : List Slice}
  {tr : List (Sent MkflsRequest)} {j : Nat}

theorem send_isOk {st : Status} (hok : (h.send st).isOk = true) :
    isDirWriteOk h.skipPermChecks h.parent h.who = true ∧ st.isOk = true := by
  rw [DeltaFs.Handle.send] at hok
  split at hok
  · cases hok
  · rename_i hperm
    refine ⟨?_, hok⟩
    simpa using hperm

/-- **Requests that have all succeeded** add all their names. By induction on the requests:
each adds its names to the tree that the ones before have left. -/
theorem serveAll_adds (hset : cl.SetUp) (hof : OfClient cl j h) (env : Nat → UInt64 × Stat)
    (tr : List (Sent MkflsRequest)) :
    ∀ {k : Nat} {d : Cluster.Contents}, serveAll cl h env k tr d = some d' → cl.Sound d →
      Stands cl d path h.parent →
      (∀ x ∈ tr, FromHandle h x ∧ x.status.isOk = true ∧
        ∀ name ∈ x.req.names, h.servers.select name = x.srv) →
      (∀ i < cl.n, (d i).inoq.toNat + (tr.map fun x => x.req.n.toNat).sum < 2 ^ 56) →
      cl.Sound d' ∧
        Adds path (Tree.newAttr h.who sIfreg h.mode) (tr.flatMap fun x => x.req.names) (cl.tree d) (cl.tree d') := by
  induction tr with
  | nil =>
    intro k d hserved hd _ _ _
    obtain rfl := Option.some.inj hserved
    exact ⟨hd, .refl _ _ _⟩
  | cons x tr ih =>
    intro k d hserved hd hstands hall hroom
    obtain ⟨hfrom, hxok, hsel⟩ := hall x (List.mem_cons_self ..)
    obtain ⟨srv, ⟨parent, namearr, n, mode, me⟩, status⟩ := x
    obtain ⟨hsrv, rfl, rfl, rfl⟩ := hfrom
    rw [serveAll] at hserved
    dsimp only at hserved
    have hselect : ∀ name ∈ decodeNames n.toNat namearr, selectServer cl.xx cl.n h.parent.dirId name = srv := by
      rw [← hof.xx, ← hof.srvs]
      exact hsel
    have hadds := fun hperm => mkflsAt_adds hset hd hstands j (env k).1 h.who h.mode (env k).2
      (hof.srvs ▸ hsrv) hperm hselect fun i hi => by
        have := hroom i hi
        rw [List.map_cons, List.sum_cons] at this
        dsimp only at this
        omega
    generalize cl.mkflsAt (env k).1 srv d ⟨h.who, h.parent, .mkfls namearr h.mode n⟩ (env k).2 = y at hserved hadds
    split at hserved
    · rename_i hstatus
      rw [hstatus] at hxok
      obtain ⟨hperm, hok⟩ := send_isOk hxok
      rw [if_pos hperm] at hserved
      obtain ⟨hgrown, hadds⟩ := hadds (hof.perms ▸ hperm)
      obtain ⟨hd', hrest⟩ := ih hserved hgrown.sound (hgrown.stands hstands)
        (fun x hx => hall x (List.mem_cons_of_mem _ hx)) fun i hi => by
          have := hroom i hi
          have := hgrown.inoq i
          rw [List.map_cons, List.sum_cons] at *
          dsimp only at *
          omega
      exact ⟨hd', (hadds hok).trans hrest⟩
    · cases hserved

end Requests

/-! ## What the client sends

The protocol says which names are carried. Here is what else is in a request: the directory, the
user and the mode of the handle. This is an invariant of the run by itself, and is needed since
the files are made with what the request says, not with what the handle says later. -/

section Sends

open Context

variable {h : DeltaFs.Handle} {tr es : List (Sent MkflsRequest)} {s s' : Context WriBuf} {k : Nat}
  {op op' : ContextOp}

/-- One section of `Mkfls1` sends what the handle says, and fails with the request. -/
theorem mkfls1_sends {name : Slice} {force : Bool} {reply st : Status} {buf buf' : WriBuf}
    {reqs : List (MkflsRequest × Status)} (hw : mkfls1 h name force reply buf = some (st, buf', reqs)) {i : Nat}
    (hi : i < h.srvs) :
    ∀ x ∈ reqs.map fun r => (⟨i, r.1, r.2⟩ : Sent MkflsRequest), FromHandle h x ∧ x.status = st := by
  rw [mkfls1] at hw
  split at hw
  · dsimp only at hw
    split at hw
    · cases hw
      intro x hx
      obtain rfl := List.mem_singleton.mp hx
      exact ⟨⟨hi, rfl, rfl, rfl⟩, rfl⟩
    · cases hw
      intro x hx
      obtain rfl := List.mem_singleton.mp hx
      exact ⟨⟨hi, rfl, rfl, rfl⟩, rfl⟩
  · cases hw
    intro x hx
    cases hx

/-- The requests of a batch are of its handle, and when one fails a call does. -/
structure Traced (h : DeltaFs.Handle) (tr : List (Sent MkflsRequest)) (s : Context WriBuf) : Prop where
  sent : ∀ x ∈ tr, FromHandle h x
  fails : ∀ x ∈ tr, x.status.isOk = false → ∃ op ∈ s.ops, op.fails = true

/-- The last call moves. -/
theorem Traced.moves (hi : Traced h tr s) (hk : s.ops[k]? = some op) (hops : s'.ops = s.ops.set k op')
    (hfails : op.fails = true → op'.fails = true)
    (hes : ∀ x ∈ es, FromHandle h x ∧ (x.status.isOk = false → op'.fails = true)) : Traced h (tr ++ es) s' := by
  have hself : op' ∈ s'.ops := by
    rw [hops]
    exact List.mem_iff_getElem?.mpr ⟨k, TransitionSystem.pool_set_self hk⟩
  refine ⟨fun x hx => ?_, fun x hx hno => ?_⟩
  · rcases List.mem_append.mp hx with hx | hx
    · exact hi.sent x hx
    · exact (hes x hx).1
  · rcases List.mem_append.mp hx with hx | hx
    · obtain ⟨o, ho, hof⟩ := hi.fails x hx hno
      by_cases heq : o = op
      · exact ⟨op', hself, hfails (heq ▸ hof)⟩
      · exact ⟨o, by rw [hops]; exact TransitionSystem.mem_pool_set hk ho heq, hof⟩
    · exact ⟨op', hself, (hes x hx).2 hno⟩

/-- It sends nothing. -/
theorem Traced.quiet (hi : Traced h tr s) (hk : s.ops[k]? = some op) (hops : s'.ops = s.ops.set k op')
    (hfails : op.fails = true → op'.fails = true) : Traced h (tr ++ []) s' :=
  hi.moves hk hops hfails fun _ hx => absurd hx List.not_mem_nil

theorem Traced.arrives (hi : Traced h tr s) (hops : s'.ops = s.ops ++ [op]) : Traced h (tr ++ []) s' := by
  rw [List.append_nil]
  refine ⟨hi.sent, fun x hx hno => ?_⟩
  obtain ⟨o, ho, hof⟩ := hi.fails x hx hno
  exact ⟨o, by rw [hops]; exact List.mem_append_left _ ho, hof⟩

/-- **One step.** The requests it sends are of the handle, and the call that sends one
returns what the request has returned, so it fails when the request does. -/
theorem Traced.step (hi : Traced h tr s) (ho : s.Orderly h tr) {l : ContextLabel Status}
    (hs : s.step h.servers (batchSink h) l = some (s', es)) : Traced h (tr ++ es) s' := by
  cases step_move hs with
  | insertArrives => exact hi.arrives rfl
  | commitArrives => exact hi.arrives rfl
  | insertRefused hk hst => exact hi.quiet hk rfl fun h => by cases h
  | insertSelects hk hnot => exact hi.quiet hk rfl fun h => by cases h
  | @insertWrites k i e name st b reqs hk hw =>
    -- the call returns what the request has, so it fails when the request has failed
    have hlt : i < h.srvs := ho.routed hk ▸ h.servers.select_lt name
    refine hi.moves hk rfl (fun h => by cases h) fun x hx => ?_
    obtain ⟨hfrom, hst⟩ := mkfls1_sends hw hlt x hx
    refine ⟨hfrom, fun hno => ?_⟩
    rw [ContextOp.fails, ← hst, hno]
    rfl
  | @insertReturns k e name st hk =>
    have hops : ((s.setBg st).put k (.insert name (.returned st))).ops =
        s.ops.set k (.insert name (.returned st)) := by simp [put]
    exact hi.quiet hk hops fun h => h
  | commitRefused hk hst => exact hi.quiet hk rfl fun h => by cases h
  | commitClaims hk hnot => exact hi.quiet hk rfl fun h => by cases h
  | @commitFlushes k i e st b reqs hk hlt hw =>
    refine hi.moves hk rfl (fun h => by cases h) fun x hx => ?_
    have hw : mkfls1 h [] true e (s.bufs i) = some (st, b, reqs) := hw
    obtain ⟨hfrom, hst⟩ := mkfls1_sends hw hlt x hx
    refine ⟨hfrom, fun hno => ?_⟩
    rw [hst] at hno
    rw [hno, if_neg Bool.false_ne_true, ContextOp.fails, hno]
    rfl
  | commitEnds hk hend => exact hi.quiet hk rfl fun h => by cases h
  | @commitReturns k e st hk =>
    have hops : (({ s with commitStatus := .committed }.setBg st).put k (.commit (.returned st))).ops =
        s.ops.set k (.commit (.returned st)) := by simp [put]
    exact hi.quiet hk hops fun h => h

/-- **A run.** What the invariant of `InOrder` does not say is what else a request carries:
the directory, the user and the mode of the handle. -/
theorem run_traced (hB : h.batchSize.toNat < 2 ^ 32)
    (hr : (contextSystem h.servers (batchSink h) WriBuf.Fresh).Run
      (fun s l => s.OneByOne Insertable l) tr s) : Traced h tr s := by
  refine hr.invariant (I := fun tr s => Traced h tr s) (fun s _ => ⟨fun x hx => ?_, fun x hx => ?_⟩) ?_
  · cases hx
  · cases hx
  · intro tr s l s' es hr hi _ hs
    exact hi.step (run_orderly hB hr) hs

variable {names : List Slice}

/-- A commit that has returned OK is one whose requests have all succeeded. -/
theorem Traced.isOk (hi : Traced h tr s) (hops : s.ops = insertsAndCommit names) {x : Sent MkflsRequest}
    (hx : x ∈ tr) : x.status.isOk = true := by
  by_contra hno
  obtain ⟨op, hop, hf⟩ := hi.fails x hx (Bool.eq_false_of_not_eq_true hno)
  rw [fails_of_mem_insertsAndCommit (hops ▸ hop)] at hf
  cases hf

/-- A name of a request is one that has been inserted, for the server of the request. -/
theorem Traced.routed (hi : Traced h tr s) (ho : s.Orderly h tr) (hops : s.ops = insertsAndCommit names)
    {x : Sent MkflsRequest} (hx : x ∈ tr) {name : Slice} (hname : name ∈ x.req.names) :
    name ∈ names ∧ h.servers.select name = x.srv := by
  have hin : name ∈ delivered x.srv tr :=
    List.mem_flatMap.mpr ⟨x, List.mem_filter.mpr ⟨hx, decide_eq_true ⟨rfl, hi.isOk hops hx⟩⟩, hname⟩
  rw [ho.delivered_eq hops (hi.sent x hx).srv] at hin
  exact ⟨(List.mem_filter.mp hin).1, of_decide_eq_true (List.mem_filter.mp hin).2⟩

/-- **The requests carry the names inserted**, and no others. What a server has decoded
are the names inserted for it (`Orderly.delivered_eq`), and every name is inserted for
one server. -/
theorem Traced.mem_names (hi : Traced h tr s) (ho : s.Orderly h tr) (hops : s.ops = insertsAndCommit names)
    (name : Slice) : name ∈ (tr.flatMap fun x => x.req.names) ↔ name ∈ names := by
  refine ⟨fun hin => ?_, fun hin => ?_⟩
  · obtain ⟨x, hx, hname⟩ := List.mem_flatMap.mp hin
    exact (hi.routed ho hops hx hname).1
  · have hin : name ∈ delivered (h.servers.select name) tr := by
      rw [ho.delivered_eq hops (h.servers.select_lt name)]
      exact List.mem_filter.mpr ⟨hin, decide_eq_true rfl⟩
    obtain ⟨x, hx, hname⟩ := List.mem_flatMap.mp hin
    exact List.mem_flatMap.mpr ⟨x, (List.mem_filter.mp hx).1, hname⟩

/-- Names that are carried once have been inserted once: each goes to one server. -/
theorem nodup_of_carried (ho : s.Orderly h tr) (hops : s.ops = insertsAndCommit names)
    (hnodup : (tr.flatMap fun x => x.req.names).Nodup) : names.Nodup := by
  refine List.nodup_iff_count.mpr fun name => ?_
  have hle : (delivered (h.servers.select name) tr).count name ≤ 1 :=
    ((List.filter_sublist.flatMap _).count_le name).trans (List.nodup_iff_count.mp hnodup name)
  have hcount : (names.filter fun x => h.servers.select x = h.servers.select name).count name =
      names.count name := List.count_filter (decide_eq_true rfl)
  rw [ho.delivered_eq hops (h.servers.select_lt name), hcount] at hle
  exact hle

end Sends

/-- **A committed batch adds its names.** A client of a site fills a batch of a directory
and commits it, one call after the other, and the servers do its requests in the order
they are sent. When all inserts and the commit have returned OK, the names were all
different, there was nothing under any of them, and the tree has a new file under each,
with the mode of the batch, and is otherwise what it was.

Two results are put together. `run_orderly` says which requests a client has sent, with
which names; `serveAll_adds` what the servers make of such requests, one after the other,
each of them adding its names (`Adds.trans`). That the names were different need not be
assumed: the second create of a name would have failed. -/
theorem committed_adds (cl : Cluster) (j : Nat) (h : DeltaFs.Handle) {d d' : Cluster.Contents} {path : List Slice}
    (hset : cl.SetUp) (hof : OfClient cl j h) (hB : h.batchSize.toNat < 2 ^ 32) (hd : cl.Sound d)
    (hstands : Stands cl d path h.parent) {tr : List (Sent MkflsRequest)} {s : Context WriBuf}
    (hr : (contextSystem h.servers (batchSink h) WriBuf.Fresh).Run
      (fun s l => s.OneByOne Insertable l) tr s) (env : Nat → UInt64 × Stat)
    (hserved : serveAll cl h env 0 tr d = some d')
    (hroom : ∀ i < cl.n, (d i).inoq.toNat + (tr.map fun x => x.req.n.toNat).sum < 2 ^ 56)
    {names : List Slice} (hops : s.ops = insertsAndCommit names) :
    cl.Sound d' ∧ Adds path (Tree.newAttr h.who sIfreg h.mode) names (cl.tree d) (cl.tree d') := by
  have htraced := run_traced hB hr
  have horderly := Context.run_orderly hB hr
  obtain ⟨hd', hadds⟩ := serveAll_adds hset hof env tr hserved hd hstands
    (fun x hx => ⟨htraced.sent x hx, htraced.isOk hops hx, fun name hname =>
      (htraced.routed horderly hops hx hname).2⟩) hroom
  exact ⟨hd', hadds.congr (htraced.mem_names horderly hops) (nodup_of_carried horderly hops hadds.nodup)⟩

/-- A batch of the root, for a site of two servers. -/
def rootBatch : DeltaFs.Handle where
  xx := numbered.xx
  srvs := 2
  srvs_pos := Nat.two_pos
  batchSize := 16
  skipPermChecks := false
  parent := Client.rtlokupstat
  who := ⟨1, 1⟩
  mode := 0o640

/-- A name, and a commit to both servers. -/
def oneName : List (ContextLabel Status) :=
  insertAlone 0 (str "a") ++
    [.commit, .advance 1 .ok, .advance 1 .ok, .advance 1 .ok, .advance 1 .ok, .advance 1 .ok]

/-- `committed_adds` for a name, with counts that start at 7: the servers take eight numbers
and seven. -/
theorem committed_adds_oneName :
    ∃ d', numbered.Sound d' ∧
      Adds [] (Tree.newAttr ⟨1, 1⟩ sIfreg 0o640) [str "a"] .empty (numbered.tree d') := by
  have hexec : ((contextSystem rootBatch.servers (batchSink rootBatch) WriBuf.Fresh).exec
      (fun s l => decide (s.OneByOne Insertable l)) (emptyContext ⟨[], 7⟩) oneName).map
        (fun p => (p.1.ops, (serveAll numbered rootBatch (fun _ => (0, Filesystem.zeroStat)) 0 p.2
            fun _ => ⟨fun _ => none, 0⟩).isSome, p.2.map fun x => x.req.n.toNat)) =
      some (insertsAndCommit [str "a"], true, [8, 7]) := by decide +kernel
  obtain ⟨⟨s, tr⟩, hp, hmap⟩ := Option.map_eq_some_iff.mp hexec
  obtain ⟨hops, hmap⟩ := Prod.mk.inj hmap
  obtain ⟨hserved, hcounts⟩ := Prod.mk.inj hmap
  obtain ⟨d', hserved⟩ := Option.isSome_iff_exists.mp hserved
  have hinit : (contextSystem rootBatch.servers (batchSink rootBatch) WriBuf.Fresh).init
      (emptyContext ⟨[], 7⟩) := ⟨rfl, rfl, rfl, fun _ => rfl⟩
  have hrun := TransitionSystem.Run.exec (C := fun s l => s.OneByOne Insertable l)
    (fun _ _ hd => of_decide_eq_true hd) (.init hinit) hp
  have hroom : ∀ i < numbered.n, (0 : UInt64).toNat + (tr.map fun x => x.req.n.toNat).sum < 2 ^ 56 := by
    intro i _
    dsimp only at hcounts
    rw [hcounts]
    decide
  have hof : OfClient numbered 0 rootBatch := ⟨rfl, rfl, rfl⟩
  have hB : rootBatch.batchSize.toNat < 2 ^ 32 := by decide
  have hall := committed_adds numbered 0 rootBatch setUp_numbered hof hB void_numbered.sound
    (Stands.root numbered _) hrun (fun _ => (0, Filesystem.zeroStat)) hserved hroom hops
  rw [void_numbered.tree] at hall
  exact ⟨d', hall⟩

end Site

end DeltaFs
