import DeltaFs.Inodes

/-!
# What a batch stores and counts

One `Mkfls` from its `AcquireDir` to its return, with any other operations in
between. Its count comes back as the number of entries it has stored, which are
the first names of the array under consecutive numbers, as long as it gets past
its checks: an operation that is refused leaves the count as it was given.

An operation of a run is followed through a schedule by a rule of its own (`exec_op`): what
its own sections keep, and what those of others leave alone, holds at its return. Past the
checks the rule is applied to the count; before them there is nothing to count.
-/

namespace DeltaFs

open Linearization TransitionSystem

/-! ## A batch past its checks

The names of a batch are stored one by one, in sections of their own with the ways of all names
locked. At each of them the count is the number of names stored so far. When the batch stops, at
the end or at a failure, this count is what it returns. -/

/-- A touch that stores an entry. -/
def Touch.isCreated : Touch → Bool
  | .created _ _ _ => true
  | _ => false

/-- What a touch does to the db. -/
def Db.enter (db : Db) : Touch → Db
  | .created id name stat => Function.update db (entryKey id name) (some stat.encodeTo)
  | _ => db

/-- An operation that is done with the db. -/
def Pc.isLeaving : Pc → Bool
  | .unlocking _ => true
  | .leaving _ => true
  | .done _ => true
  | _ => false

/-- An operation that has taken its numbers and passed its checks. -/
def Pc.isChecked : Pc → Bool
  | .entered => false
  | .acquired => false
  | _ => true

/-- The count of a batch is that of the entries it has stored, its first names. -/
def Op.Stored (op : Op) (es : List Touch) : Prop :=
  op.n.toNat ≤ op.call.names.length ∧
    es.filter Touch.isCreated =
      creates op.call.dirId op.stat op.startino (op.call.names.take op.n.toNat)

/-- What a batch that is not refused has touched. -/
def Op.Going (fs : Filesystem) (C : Filesystem.State → Filesystem.Label → Prop) (i : Nat) (op : Op)
    (es : List Touch) : Prop :=
  if op.pc.isLeaving = true then op.Stored es else op.Touched fs C i es

/-- Creates are all there is to them. -/
theorem filter_creates (id : DirId) (stat : Stat) (ino : UInt64) (xs : List Slice) :
    (creates id stat ino xs).filter Touch.isCreated = creates id stat ino xs := by
  induction xs generalizing ino with
  | nil => rfl
  | cons x xs ih => rw [creates, List.filter_cons_of_pos rfl, ih]

/-- A batch that counts something has stored something. -/
theorem creates_ne_nil (id : DirId) (stat : Stat) (ino : UInt64) {xs : List Slice} {m : Nat}
    (hm : m ≠ 0) (hle : m ≤ xs.length) : creates id stat ino (xs.take m) ≠ [] := by
  cases xs with
  | nil => exact absurd (Nat.le_zero.mp hle) hm
  | cons x xs =>
    obtain ⟨m, rfl⟩ := Nat.exists_eq_succ_of_ne_zero hm
    exact List.cons_ne_nil _ _

namespace Filesystem

variable {fs : Filesystem} {C : State → Label → Prop} {s s' : State} {i : Nat} {op op' : Op}
  {e : Env} {evs : List FsEvent} {es : List Touch} {namearr : Slice} {mode k : UInt32}

/-- A batch that stops counts the entries it has stored. -/
theorem stored_stop {o : Op} (hreq : op.call.req = .mkfls namearr mode k) (hp : op.Progress)
    (hcall : o.call = op.call) (hstart : o.startino = op.startino) (hm : o.m = op.m)
    (hstat : ∀ id ino xs, creates id o.stat ino xs = creates id op.stat ino xs) (st : Status)
    (hes : es.filter Touch.isCreated =
      creates op.call.dirId op.stat op.startino (op.call.names.take op.m)) :
    (stop o st).Stored es := by
  have hn : (stop o st).n = UInt32.ofNat op.m := by
    simp only [stop, hcall, hreq, hm]
  have hcount : (stop o st).n.toNat = op.m := by
    rw [hn, hp.toNat_ofNat hreq]
  refine ⟨?_, ?_⟩
  · rw [hcount]
    show op.m ≤ o.call.names.length
    rw [hcall]
    exact (hp.2 _ _ _ hreq).2.1
  · rw [hcount, hes]
    show _ = creates o.call.dirId o.stat o.startino (o.call.names.take op.m)
    rw [hcall, hstart, hstat]

/-- The next name of a batch only changes the number in its stat. -/
theorem Next.keeps {op₁ : Op} {name rest : Slice} (hn : Next op op₁ name rest)
    (hreq : op.call.req = .mkfls namearr mode k) :
    op₁.call = op.call ∧ op₁.startino = op.startino ∧ op₁.m = op.m ∧
      ∀ id ino xs, creates id op₁.stat ino xs = creates id op.stat ino xs := by
  cases hn with
  | single hname =>
    rw [Call.name?, hreq] at hname
    cases hname
  | batch => exact ⟨rfl, rfl, rfl, fun id ino xs => creates_setInodeNo id op.stat _ ino xs⟩

/-- An operation that waits for its ways is not done. -/
theorem isLeaving_locked {w : Nat} (j : Nat) :
    (if j = w then Pc.running else .waiting j).isLeaving = false := by
  split <;> rfl

/-- **A batch that stops** has stored as many entries as it counts. It stops at the end
of its names or at the one that cannot be put, and the count is set there from the names
before. -/
theorem Move.stops (hm : Move fs s i op e s' op' evs) (hreq : op.call.req = .mkfls namearr mode k)
    (hchk : op.pc.isChecked = true) (hin : op.pc.isLeaving = false)
    (hout : op'.pc.isLeaving = true) (ht : op.Touched fs C i es) :
    op'.Stored (es ++ entries (points evs) i) := by
  have hlook : op.call.isLookup = false := by rw [Call.isLookup, hreq]
  cases hm with
  | acquire hpc => cases hout
  | refuse hpc | pass hpc =>
    rw [hpc] at hchk
    cases hchk
  | misplaced hpc hp hd hno =>
    rw [isPartitionOk, Call.name?, hreq] at hno
    cases hno
  | enterRead hpc hp hd hok hl => cases hout
  | @lockFirst p d busy j =>
    rw [isLeaving_locked j] at hout
    cases hout
  | @lockMore p d k busy j =>
    rw [isLeaving_locked j] at hout
    cases hout
  | bulk hpc hr => rw [hreq] at hr; cases hr
  -- the body of `Mknos1` is left in one of four ways; each time the names before the
  -- current one are stored
  | finish hpc hr hnext =>
    rw [Op.Touched, hpc] at ht
    refine stored_stop hreq ht.1 rfl rfl rfl (fun _ _ _ => rfl) .ok ?_
    show (es ++ []).filter _ = _
    rw [List.append_nil, ht.2, filter_creates]
  | @collide op₁ name rest hpc hn =>
    rw [Op.Touched, hpc] at ht
    obtain ⟨hcall, hstart, hm, hstat⟩ := hn.keeps hreq
    refine stored_stop hreq ht.1 hcall hstart hm hstat _ ?_
    have hpt : entries (points ([.pt i (.collided op.call.dirId name)] : List FsEvent)) i =
        [.collided op.call.dirId name] := entries_pts_self i [_]
    rw [hpt, List.filter_append, ht.2, filter_creates]
    exact List.append_nil _
  | fail hpc hn =>
    rw [Op.Touched, hpc] at ht
    obtain ⟨hcall, hstart, hm, hstat⟩ := hn.keeps hreq
    refine stored_stop hreq ht.1 hcall hstart hm hstat _ ?_
    show (es ++ []).filter _ = _
    rw [List.append_nil, ht.2, filter_creates]
  | clear hpc hn => cases hout
  | put hpc hdb =>
    rw [putDone] at hout
    simp only [hreq] at hout
    cases hout
  | putFail hpc hdb =>
    rw [Op.Touched, hpc] at ht
    refine stored_stop hreq ht.1 rfl rfl rfl (fun _ _ _ => rfl) _ ?_
    show (es ++ []).filter _ = _
    rw [List.append_nil, ht.2.1, filter_creates]
  | read hpc hname =>
    rw [Call.name?, hreq] at hname
    cases hname
  | unlock hpc =>
    rw [hpc] at hin
    cases hin
  | leave hpc =>
    rw [hpc] at hin
    cases hin

/-- An operation that is done with the db touches nothing more. -/
theorem Move.leaving (hm : Move fs s i op e s' op' evs) (hin : op.pc.isLeaving = true) :
    points evs = [] ∧ ∃ (dir : Option Nat) (pc : Pc),
      pc.isLeaving = true ∧ op' = { op with dir := dir, pc := pc } := by
  cases hm with
  | @unlock st => exact ⟨rfl, op.dir, .leaving st, rfl, rfl⟩
  | @leave st => exact ⟨rfl, none, .done st, rfl, rfl⟩
  | acquire hpc | refuse hpc | pass hpc | misplaced hpc | enterRead hpc | lockFirst hpc
  | lockMore hpc | bulk hpc | finish hpc | collide hpc | fail hpc | clear hpc | put hpc
  | putFail hpc | read hpc =>
    rw [hpc] at hin
    cases hin

/-- **A batch past its checks keeps count.** The count is the number of names it has put,
at every place of the loop. -/
theorem Move.going (hm : Move fs s i op e s' op' evs) (hreq : op.call.req = .mkfls namearr mode k)
    (hb : Blocks fs s.table s.ops) (hk : s.ops[i]? = some op) (hC : C s (.advance i e))
    (hchk : op.pc.isChecked = true) (hg : op.Going fs C i es) :
    op'.Going fs C i (es ++ entries (points evs) i) := by
  cases hin : op.pc.isLeaving with
  | true =>
    rw [Op.Going, if_pos hin] at hg
    obtain ⟨hpts, dir, pc, hpc, rfl⟩ := hm.leaving hin
    rw [Op.Going, if_pos hpc, hpts]
    show Op.Stored _ (es ++ [])
    rw [List.append_nil]
    exact hg
  | false =>
    rw [Op.Going, if_neg (by rw [hin]; decide)] at hg
    cases hout : op'.pc.isLeaving with
    | true =>
      rw [Op.Going, if_pos hout]
      exact hm.stops hreq hchk hin hout hg
    | false =>
      rw [Op.Going, if_neg (by rw [hout]; decide)]
      rcases hm.touched hb hk hC hg with ⟨ts, rfl, ht, -⟩ | ⟨st, -, -, hpc, -⟩
      · rw [entries_pts_self]
        exact ht
      · rw [hpc] at hout
        cases hout

/-- **All a batch does to the db** is to store entries. Between two of its sections
others may do the same, so this is about one move. -/
theorem Move.enters (hm : Move fs s i op e s' op' evs)
    (hreq : op.call.req = .mkfls namearr mode k) :
    s'.db = s.db.map fun db => (entries (points evs) i).foldl Db.enter db := by
  cases hm with
  | acquire | refuse | pass | misplaced | enterRead | lockFirst | lockMore | finish | fail | clear
  | putFail | unlock | leave => exact Option.map_id'.symm ▸ rfl
  | bulk hpc hr =>
    rw [hreq] at hr
    cases hr
  | @collide op₁ name rest =>
    have hpt : entries (points ([.pt i (.collided op.call.dirId name)] : List FsEvent)) i =
        [.collided op.call.dirId name] := entries_pts_self i [_]
    rw [hpt]
    exact Option.map_id'.symm ▸ rfl
  | @put name rest db hpc hdb =>
    have hpt : entries (points ([.pt i (.created op.call.dirId name op.stat)] : List FsEvent)) i =
        [.created op.call.dirId name op.stat] := entries_pts_self i [_]
    rw [hpt, hdb]
    rfl
  | read hpc hname =>
    rw [Call.name?, hreq] at hname
    cases hname

/-! ## A batch among other operations

Other operations run between the sections of the batch. `exec_op` is the rule for one operation
of a schedule: what its own moves keep is kept, whatever the others do. What is said of the db
and of the counter is about stretches in which only the batch moves (`Alone`), since others
change them too. -/

variable {db : Option Db} {tr : List FsEvent} {ks : List Label}

/-- A step of the server, as operation `i` sees it: it moves, or it stays. -/
theorem step_op (hr : (fs.system db).Run (fun _ _ => True) tr s) {l : Label}
    (hs : (fs.system db).step s l = some (s', evs)) (hop : s.ops[i]? = some op) :
    (∃ e s₁ op', l = .advance i e ∧ Move fs s i op e s₁ op' evs ∧
      (s'.inoq = s₁.inoq ∧ s'.db = s₁.db) ∧ s'.ops[i]? = some op') ∨
    (∀ e, l ≠ .advance i e) ∧ s'.ops[i]? = some op ∧ entries (points evs) i = [] := by
  rcases step_cases hs with ⟨c, stat, rfl, rfl, rfl⟩ | ⟨j, e, o, s₁, o', rfl, hk, hm, rfl⟩
  · refine .inr ⟨?_, pool_push_old hop, rfl⟩
    intro e h
    cases h
  · by_cases hj : i = j
    · cases hj
      rw [hop] at hk
      cases hk
      refine .inl ⟨e, s₁, o', rfl, hm, ⟨rfl, rfl⟩, ?_⟩
      dsimp only
      rw [hm.ops_eq]
      exact pool_set_self hop
    · refine .inr ⟨fun e h => ?_, ?_, ?_⟩
      · cases h
        exact hj rfl
      · dsimp only
        rw [hm.ops_eq, pool_set_ne hj]
        exact hop
      · rcases hm.touched (run_blocks hr) hk trivial ((run_log hr).touched hk) with
          ⟨ts, rfl, -⟩ | ⟨st, rfl, -⟩
        · exact entries_pts_ne hj ts
        · rfl

/-- **Rule for one operation of a schedule**: what all its moves keep of it and
of what it has touched holds in the end. -/
theorem exec_op {P : Op → List Touch → Prop}
    (hmove : ∀ {s₀ s₁ : State} {o o' : Op} {e : Env} {es : List Touch} {evs : List FsEvent},
      .advance i e ∈ ks → Move fs s₀ i o e s₁ o' evs → Blocks fs s₀.table s₀.ops →
        s₀.ops[i]? = some o → (∃ all, o.Touched fs (fun _ _ => True) i all) → P o es →
          P o' (es ++ entries (points evs) i))
    (hr : (fs.system db).Run (fun _ _ => True) tr s) (hop : s.ops[i]? = some op) (hP : P op [])
    (hx : (fs.system db).exec (fun _ _ => true) s ks = some (s', evs)) :
    ∃ op', s'.ops[i]? = some op' ∧ P op' (entries (points evs) i) := by
  have hnil : P op (entries (points ([] : List FsEvent)) i) := hP
  have hinv := exec_invariant
    (I := fun t evs => (fs.system db).Run (fun _ _ => True) (tr ++ evs) t ∧
      ∃ o, t.ops[i]? = some o ∧ P o (entries (points evs) i)) ?_
    ⟨by rwa [List.append_nil], op, hop, hnil⟩ hx
  · exact hinv.2
  · rintro t evs l t' evs' hl ⟨hrt, o, ho, hPo⟩ - hs
    refine ⟨?_, ?_⟩
    · rw [← List.append_assoc]
      exact hrt.step trivial hs
    · rw [points_append, entries_append]
      rcases step_op hrt hs ho with ⟨e, s₁, o', rfl, hm, -, ho'⟩ | ⟨-, ho', hnil⟩
      · exact ⟨o', ho', hmove hl hm (run_blocks hrt) ho ⟨_, (run_log hrt).touched ho⟩ hPo⟩
      · rw [hnil, List.append_nil]
        exact ⟨o, ho', hPo⟩

/-- The checks are behind for good. -/
theorem Move.isChecked (hm : Move fs s i op e s' op' evs) (h : op.pc.isChecked = true) :
    op'.pc.isChecked = true := by
  cases hm with
  | acquire hpc | refuse hpc | pass hpc =>
    rw [hpc] at h
    cases h
  | lockFirst | lockMore =>
    dsimp only
    split <;> rfl
  | put =>
    rw [putDone]
    split <;> rfl
  | read =>
    obtain ⟨-, -, st, hst⟩ := read_frame fs s op _ e
    rw [hst]
    rfl
  | _ => rfl

/-- What a move leaves of the numbers an operation has taken, and of the
counter. -/
theorem Move.numbers (hm : Move fs s i op e s' op' evs) (hplaced : op.Placed)
    (ht : op.Touched fs C i es) (hpc : op.pc ≠ .entered) :
    op'.startino = op.startino ∧ op'.myino = op.myino ∧
      ((∀ st, op'.pc ≠ .done st) ∧ s'.inoq = s.inoq ∨
        ∃ st, op'.pc = .done st ∧ s'.inoq = giveBack op' st s.inoq) := by
  rcases hm.inos ht hplaced with ⟨h, -⟩ | ⟨st, hst, hinoq, -, hdone⟩ | ⟨hinoq, hk, -⟩
  · exact absurd h hpc
  · obtain ⟨-, dir, pc, -, rfl⟩ := hm.leaving (by rw [hst]; rfl)
    exact ⟨rfl, rfl, .inr ⟨st, hdone, hinoq⟩⟩
  · refine ⟨hk.startino, hk.myino, .inl ⟨fun st hst => ?_, hinoq⟩⟩
    have hin := hk.inside'
    rw [hst] at hin
    cases hin

/-- A stretch of a run in which only operation `i` moves. -/
def Alone (i : Nat) (ks : List Label) : Prop := ∀ l ∈ ks, ∃ e, l = .advance i e

/-- An operation that runs alone keeps the counter, and gives numbers back when
it returns. -/
theorem exec_alone (hr : (fs.system db).Run (fun _ _ => True) tr s) (hop : s.ops[i]? = some op)
    (hpc : op.pc.isChecked = true) (hrun : ∀ st, op.pc ≠ .done st) (halone : Alone i ks)
    (hx : (fs.system db).exec (fun _ _ => true) s ks = some (s', evs)) :
    ∃ op', s'.ops[i]? = some op' ∧ ∀ st, op'.pc = .done st → s'.inoq = giveBack op' st s.inoq := by
  have hinv := exec_invariant
    (I := fun t evs => (fs.system db).Run (fun _ _ => True) (tr ++ evs) t ∧
      ∃ o, t.ops[i]? = some o ∧ o.pc.isChecked = true ∧
        ((∀ st, o.pc ≠ .done st) ∧ t.inoq = s.inoq ∨
          ∃ st, o.pc = .done st ∧ t.inoq = giveBack o st s.inoq)) ?_
    ⟨by rwa [List.append_nil], op, hop, hpc, .inl ⟨hrun, rfl⟩⟩ hx
  · obtain ⟨-, o, ho, -, ⟨hno, -⟩ | ⟨st, hst, hinoq⟩⟩ := hinv
    · exact ⟨o, ho, fun st hst => absurd hst (hno st)⟩
    · refine ⟨o, ho, fun st' hst' => ?_⟩
      rw [hst] at hst'
      cases hst'
      exact hinoq
  · rintro t evs l t' evs' hl ⟨hrt, o, ho, hchk, hI⟩ - hs
    refine ⟨by rw [← List.append_assoc]; exact hrt.step trivial hs, ?_⟩
    rcases step_op hrt hs ho with ⟨e, s₁, o', rfl, hm, ⟨hinoq, -⟩, ho'⟩ | ⟨hno, -⟩
    · have hplaced := (run_blocks hrt).placed ho
      have ht := (run_log hrt).touched ho
      have hent : o.pc ≠ .entered := fun h => by rw [h] at hchk; cases hchk
      obtain ⟨-, -, hnum⟩ := hm.numbers hplaced ht hent
      rcases hI with ⟨-, hsame⟩ | ⟨st, hst, -⟩
      · rw [← hinoq, hsame] at hnum
        exact ⟨o', ho', hm.isChecked hchk, hnum⟩
      · rcases hm.touched (run_blocks hrt) ho trivial ht with ⟨-, -, -, hno, -⟩ | ⟨-, -, -, -, hno⟩
        · exact absurd hst (hno st)
        · exact absurd hst (hno st)
    · obtain ⟨e, rfl⟩ := halone l hl
      exact absurd rfl (hno e)

/-- Touches that store nothing do nothing to the db. -/
theorem enter_filter (es : List Touch) (db : Db) :
    (es.filter Touch.isCreated).foldl Db.enter db = es.foldl Db.enter db := by
  induction es generalizing db with
  | nil => rfl
  | cons t es ih =>
    cases t with
    | created id name stat =>
      rw [List.filter_cons_of_pos rfl, List.foldl_cons, List.foldl_cons, ih]
    | collided id name =>
      rw [List.filter_cons_of_neg Bool.false_ne_true, List.foldl_cons, ih]
      rfl
    | looked id name found =>
      rw [List.filter_cons_of_neg Bool.false_ne_true, List.foldl_cons, ih]
      rfl

/-- The call of an operation stays. -/
theorem exec_call (hr : (fs.system db).Run (fun _ _ => True) tr s) (hop : s.ops[i]? = some op)
    (hx : (fs.system db).exec (fun _ _ => true) s ks = some (s', evs)) :
    ∃ op', s'.ops[i]? = some op' ∧ op'.call = op.call :=
  exec_op (P := fun o _ => o.call = op.call)
    (fun _ hm _ _ _ hcall => hm.call_eq.trans hcall) hr hop rfl hx

/-- All that changes in the db while a batch runs alone are the entries it stores. -/
theorem exec_enters (hr : (fs.system db).Run (fun _ _ => True) tr s) (hop : s.ops[i]? = some op)
    (hreq : op.call.req = .mkfls namearr mode k) (halone : Alone i ks)
    (hx : (fs.system db).exec (fun _ _ => true) s ks = some (s', evs)) :
    s'.db = s.db.map fun db => (entries (points evs) i).foldl Db.enter db := by
  have hinv := exec_invariant
    (I := fun t evs => (fs.system db).Run (fun _ _ => True) (tr ++ evs) t ∧
      (∃ o, t.ops[i]? = some o ∧ o.call = op.call) ∧
      t.db = s.db.map fun db => (entries (points evs) i).foldl Db.enter db) ?_
    ⟨by rwa [List.append_nil], ⟨op, hop, rfl⟩, Option.map_id'.symm⟩ hx
  · exact hinv.2.2
  · rintro t evs l t' evs' hl ⟨hrt, ⟨o, ho, hcall⟩, hdb⟩ - hs
    rcases step_op hrt hs ho with ⟨e, s₁, o', rfl, hm, ⟨-, hdb'⟩, ho'⟩ | ⟨hno, -⟩
    · refine ⟨by rw [← List.append_assoc]; exact hrt.step trivial hs,
        ⟨o', ho', hm.call_eq.trans hcall⟩, ?_⟩
      rw [hdb', hm.enters (hcall ▸ hreq), hdb, Option.map_map, points_append, entries_append]
      congr 1
      funext db
      exact List.foldl_append.symm
    · obtain ⟨e, rfl⟩ := halone l hl
      exact absurd rfl (hno e)

/-- The section under `mutex_` every operation starts with. -/
theorem Move.first (hm : Move fs s i op e s' op' evs) (hpc : op.pc = .entered) :
    evs = [] ∧ s'.inoq = s.inoq + op.call.inos ∧
      ∃ p, op' = { fs.reserve op (s.inoq + op.call.inos) with dir := p, pc := .acquired } := by
  cases hm with
  | acquire => exact ⟨rfl, rfl, _, rfl⟩
  | refuse h | pass h | misplaced h | enterRead h | lockFirst h | lockMore h | bulk h | finish h
  | collide h | fail h | clear h | put h | putFail h | read h | unlock h | leave h =>
    rw [h] at hpc
    cases hpc

/-- The checks. -/
theorem Move.second (hm : Move fs s i op e s' op' evs) (hpc : op.pc = .acquired) :
    evs = [] ∧ s' = s ∧
      ((∃ st, fs.refusal op.call e.ts = some st ∧ op' = { op with pc := .leaving st }) ∨
        fs.refusal op.call e.ts = none ∧ op' = { op with pc := .checked }) := by
  cases hm with
  | @refuse st h hr => exact ⟨rfl, rfl, .inl ⟨st, hr, rfl⟩⟩
  | pass h hr => exact ⟨rfl, rfl, .inr ⟨hr, rfl⟩⟩
  | acquire h | misplaced h | enterRead h | lockFirst h | lockMore h | bulk h | finish h
  | collide h | fail h | clear h | put h | putFail h | read h | unlock h | leave h =>
    rw [h] at hpc
    cases hpc

/-- Once its checks are done, an operation keeps the numbers it has taken. -/
theorem exec_checked (hr : (fs.system db).Run (fun _ _ => True) tr s) (hop : s.ops[i]? = some op)
    (hpc : op.pc.isChecked = true)
    (hx : (fs.system db).exec (fun _ _ => true) s ks = some (s', evs))
    (hop' : s'.ops[i]? = some op') :
    op'.call = op.call ∧ op'.startino = op.startino ∧ op'.myino = op.myino := by
  obtain ⟨o, ho, -, hkept⟩ := exec_op
    (P := fun o _ => o.pc.isChecked = true ∧ o.call = op.call ∧ o.startino = op.startino ∧
      o.myino = op.myino)
    (fun _ hm hb hk hall hkeep => by
      obtain ⟨all, ht⟩ := hall
      obtain ⟨hchk, hcall, hst, hmy⟩ := hkeep
      have hne : ∀ {o : Op}, o.pc.isChecked = true → o.pc ≠ .entered := by
        intro o h h'
        rw [h'] at h
        cases h
      obtain ⟨h₁, h₂, -⟩ := hm.numbers (hb.placed hk) ht (hne hchk)
      exact ⟨hm.isChecked hchk, hm.call_eq.trans hcall, h₁.trans hst, h₂.trans hmy⟩)
    hr hop ⟨hpc, rfl, rfl, rfl⟩ hx
  rw [hop'] at ho
  cases ho
  exact hkept

/-- An operation whose checks failed stores nothing. -/
theorem exec_refused (hr : (fs.system db).Run (fun _ _ => True) tr s) (hop : s.ops[i]? = some op)
    (hpc : op.pc.isLeaving = true)
    (hx : (fs.system db).exec (fun _ _ => true) s ks = some (s', evs))
    (hop' : s'.ops[i]? = some op') : op'.n = op.n ∧ entries (points evs) i = [] := by
  obtain ⟨o, ho, -, hn, hnil⟩ := exec_op
    (P := fun o es => o.pc.isLeaving = true ∧ o.n = op.n ∧ es = [])
    (fun _ hm _ _ _ hleft => by
      obtain ⟨hin, hn, hes⟩ := hleft
      obtain ⟨hpts, dir, pc, hpc, rfl⟩ := hm.leaving hin
      exact ⟨hpc, hn, by rw [hes, hpts]; rfl⟩) hr hop ⟨hpc, rfl, rfl⟩ hx
  rw [hop'] at ho
  cases ho
  exact ⟨hn, hnil⟩

/-- A batch whose checks passed has stored, when it returns, the names it counts. -/
theorem exec_stored (hr : (fs.system db).Run (fun _ _ => True) tr s) (hop : s.ops[i]? = some op)
    (hpc : op.pc = .checked) (hreq : op.call.req = .mkfls namearr mode k)
    (hgo : op.Going fs (fun _ _ => True) i [])
    (hx : (fs.system db).exec (fun _ _ => true) s ks = some (s', evs))
    (hop' : s'.ops[i]? = some op') {st : Status} (hdone : op'.pc = .done st) :
    op'.Stored (entries (points evs) i) := by
  obtain ⟨o, ho, -, -, hgo'⟩ := exec_op
    (P := fun o es => o.pc.isChecked = true ∧ o.call = op.call ∧
      o.Going fs (fun _ _ => True) i es)
    (fun _ hm hb hk _ hgo => ⟨hm.isChecked hgo.1, hm.call_eq.trans hgo.2.1,
      hm.going (hgo.2.1 ▸ hreq) hb hk trivial hgo.1 hgo.2.2⟩) hr hop ⟨by rw [hpc]; rfl, rfl, hgo⟩
    hx
  rw [hop'] at ho
  cases ho
  rw [Op.Going, if_pos (by rw [hdone]; rfl)] at hgo'
  exact hgo'

/-! ## One call

The first section takes the numbers, the second checks the lease and the permission, and only
then the loop sets the count. A batch that is refused returns before, with the count it was
called with: it has stored nothing, and gives nothing back. So the condition is that the batch
is not refused, or that it asked for no number. -/

/-- What a batch should have done that runs from `s` to `s'` by the schedule
`ks` and returns: its count is that of the entries it has stored, its first
names. `op` is the operation in `s'`, its count `n` being that of the reply. -/
structure CountsStored (fs : Filesystem) (db : Option Db) (i : Nat) (s s' : State)
    (ks : List Label) (evs : List FsEvent) (op : Op) : Prop where
  /-- it counts names of the array -/
  le : op.n.toNat ≤ op.call.names.length
  /-- it has stored the names it counts, and no others, under consecutive numbers -/
  stored : (entries (points evs) i).filter Touch.isCreated =
    creates op.call.dirId op.stat (s.inoq + 1) (op.call.names.take op.n.toNat)
  /-- no section of it does anything else to the db -/
  sections : ∀ pre e post t es t' es', ks = pre ++ .advance i e :: post →
    (fs.system db).exec (fun _ _ => true) s pre = some (t, es) →
      fs.step t (.advance i e) = some (t', es') →
        t'.db = t.db.map fun db => (entries (points es') i).foldl Db.enter db
  /-- so its entries are all that changes in the db while it runs alone -/
  alone : Alone i ks → s'.db = s.db.map fun db =>
    (creates op.call.dirId op.stat (s.inoq + 1) (op.call.names.take op.n.toNat)).foldl Db.enter db
  /-- and the numbers it has not used are given back if it fails -/
  numbers : ∀ st, op.pc = .done st → st.isOk = false → Alone i ks →
    s'.inoq = s.inoq + op.n.toUInt64

/-- **A batch from its first section to its return**: which numbers it has taken,
and what it has stored. -/
theorem exec_batch (hr : (fs.system db).Run (fun _ _ => True) tr s) (hop : s.ops[i]? = some op)
    (hpc : op.pc = .entered) (hreq : op.call.req = .mkfls namearr mode k) {e₀ e₁ : Env}
    {ks₁ ks₂ : List Label} (hks₁ : ∀ e, .advance i e ∉ ks₁)
    (hx : (fs.system db).exec (fun _ _ => true) s
      (.advance i e₀ :: ks₁ ++ .advance i e₁ :: ks₂) = some (s', evs))
    (hop' : s'.ops[i]? = some op') {st : Status} (hdone : op'.pc = .done st) :
    op'.call = op.call ∧ op'.startino = s.inoq + 1 ∧ op'.myino = s.inoq + k.toUInt64 ∧
      (Alone i (.advance i e₀ :: ks₁ ++ .advance i e₁ :: ks₂) →
        s'.inoq = giveBack op' st (s.inoq + k.toUInt64)) ∧
      (fs.refusal op.call e₁.ts = none ∧ op'.Stored (entries (points evs) i) ∨
        (∃ r, fs.refusal op.call e₁.ts = some r) ∧ op'.n = k ∧ entries (points evs) i = []) := by
  have hinos : op.call.inos = k.toUInt64 := by rw [Call.inos, hreq]
  -- the first section
  obtain ⟨s₂, evs₁, evs₂, hx₁, hx₂, rfl⟩ := exec_append hx
  obtain ⟨s₁, evs₀, evs₁, -, hs₀, hothers, rfl⟩ := exec_cons hx₁
  have hr₁ := hr.step trivial hs₀
  rcases step_op hr hs₀ hop with ⟨e, s₁', op₁, hl, hm₀, ⟨hinoq₁, -⟩, hop₁⟩ | ⟨hno, -⟩
  case inr => exact absurd rfl (hno e₀)
  obtain ⟨rfl, hinoq, p, hop₁'⟩ := hm₀.first hpc
  rw [hinos] at hinoq hop₁'
  obtain ⟨hmy, hstart, hn⟩ := reserve_batch fs hreq (s.inoq + k.toUInt64)
  rw [UInt64.add_sub_cancel] at hstart
  -- the others
  obtain ⟨op₂, hop₂, hP₂⟩ := exec_op (P := fun o es => o = op₁ ∧ es = [])
    (fun hmem => absurd hmem (hks₁ _)) hr₁ hop₁ ⟨rfl, rfl⟩ hothers
  obtain ⟨rfl, hnil₁⟩ := hP₂
  have hr₂ := Run.exec (C := fun _ _ => True) (fun _ _ _ => trivial) hr₁ hothers
  have hpc₂ : op₂.pc = .acquired := by rw [hop₁']
  -- the checks
  obtain ⟨s₃, evs₂, evs₃, -, hs₂, hx₃, rfl⟩ := exec_cons hx₂
  have hr₃ := hr₂.step trivial hs₂
  rcases step_op hr₂ hs₂ hop₂ with ⟨e', s₃', op₃, hl', hm₂, ⟨hinoq₃, -⟩, hop₃⟩ | ⟨hno, -⟩
  case inr => exact absurd rfl (hno e₁)
  cases hl'
  obtain ⟨rfl, rfl, hchecks⟩ := hm₂.second hpc₂
  have hcall₂ : op₂.call = op.call := by
    rw [hop₁']
    exact reserve_call fs op _
  have hstart₂ : op₂.startino = s.inoq + 1 := by
    rw [hop₁']
    exact hstart
  have hmy₂ : op₂.myino = s.inoq + k.toUInt64 := by
    rw [hop₁']
    exact hmy
  have hent : op₂.pc ≠ .entered := by
    rw [hpc₂]
    simp
  obtain ⟨hpc₃, hcall₃, hstart₃, hmy₃⟩ : op₃.pc.isChecked = true ∧ op₃.call = op₂.call ∧
      op₃.startino = op₂.startino ∧ op₃.myino = op₂.myino := by
    rcases hchecks with ⟨r, -, rfl⟩ | ⟨-, rfl⟩ <;> exact ⟨rfl, rfl, rfl, rfl⟩
  -- the rest
  obtain ⟨hcall, hst, hmyo⟩ := exec_checked hr₃ hop₃ hpc₃ hx₃ hop'
  refine ⟨hcall.trans (hcall₃.trans hcall₂), hst.trans (hstart₃.trans hstart₂),
    hmyo.trans (hmy₃.trans hmy₂), fun halone => ?_, ?_⟩
  · have hnone : ks₁ = [] := by
      refine List.eq_nil_iff_forall_not_mem.mpr fun l hl => ?_
      obtain ⟨e, rfl⟩ := halone l (List.mem_append_left _ (List.mem_cons_of_mem _ hl))
      exact hks₁ e hl
    rw [hnone] at hothers
    obtain ⟨rfl, rfl⟩ := Prod.mk.inj (Option.some.inj hothers)
    have hrun₃ : ∀ r, op₃.pc ≠ .done r := by
      rcases hchecks with ⟨r, -, rfl⟩ | ⟨-, rfl⟩ <;> simp
    obtain ⟨o, ho, hinoq'⟩ := exec_alone hr₃ hop₃ hpc₃ hrun₃
      (fun l hl => halone l (List.mem_append_right _ (List.mem_cons_of_mem _ hl))) hx₃
    rw [hop'] at ho
    cases ho
    rw [hinoq' st hdone, hinoq₃, hinoq₁, hinoq]
  · have hall : entries (points ([] ++ evs₁ ++ ([] ++ evs₃))) i = entries (points evs₃) i := by
      rw [List.nil_append, List.nil_append, points_append, entries_append]
      rw [hnil₁, List.nil_append]
    rw [hall]
    rcases hchecks with ⟨r, href, rfl⟩ | ⟨href, rfl⟩
    · rw [hcall₂] at href
      obtain ⟨hn', hnil⟩ := exec_refused hr₃ hop₃ rfl hx₃ hop'
      have hbegun := (run_log hr).touched hop
      rw [Op.Touched, hpc] at hbegun
      refine .inr ⟨⟨r, href⟩, ?_, hnil⟩
      rw [hn', hop₁']
      exact hn.trans (hbegun.1.2 _ _ _ hreq).2
    · rw [hcall₂] at href
      have hbegun := (run_log hr₂).touched hop₂
      rw [Op.Touched, hpc₂] at hbegun
      have hgo : ({ op₂ with pc := .checked } : Op).Going fs (fun _ _ => True) i [] := by
        rw [Op.Going, if_neg (show ¬ Pc.checked.isLeaving = true from Bool.false_ne_true)]
        exact ⟨hbegun.1, rfl⟩
      exact .inl ⟨href, exec_stored hr₃ hop₃ rfl (by rw [hcall₂]; exact hreq) hgo hx₃ hop' hdone⟩

/-- The counter when the numbers a batch has not used are given back. -/
theorem numbers_left (inoq n m : UInt64) :
    inoq + n - (inoq + n - (inoq + 1) + 1 - m) = inoq + m := by
  grind

/-- **A batch counts what it has stored**, however it ends, unless it is refused:
then its count is still the one it was given.

The count is what `TryReuseIno` and the client go by. A batch sets it when it leaves the
loop over its names, whether the names have run out or one of them could not be put; a batch
that is turned down by a check before the loop returns without setting it. With `n = 0` the
two agree. -/
theorem mkfls_counts (fs : Filesystem) (db : Option Db) {C : State → Label → Prop}
    {tr : List FsEvent} {s : State} (hr : (fs.system db).Run C tr s) {i : Nat} {op : Op}
    {namearr : Slice} {mode n : UInt32} (hop : s.ops[i]? = some op) (hpc : op.pc = .entered)
    (hreq : op.call.req = .mkfls namearr mode n) {e₀ e₁ : Env} {ks₁ ks₂ : List Label}
    (hks₁ : ∀ e, .advance i e ∉ ks₁) {s' : State} {evs : List FsEvent}
    (hx : (fs.system db).exec (fun _ _ => true) s
      (.advance i e₀ :: ks₁ ++ .advance i e₁ :: ks₂) = some (s', evs))
    {op' : Op} (hop' : s'.ops[i]? = some op') {st : Status} (hdone : op'.pc = .done st) :
    CountsStored fs db i s s' (.advance i e₀ :: ks₁ ++ .advance i e₁ :: ks₂) evs op' ↔
      n = 0 ∨ fs.refusal op.call e₁.ts = none := by
  have hr := hr.mono (D := fun _ _ => True) fun _ _ _ => trivial
  obtain ⟨hcall, hstart, hmy, hinoq, hend⟩ := exec_batch hr hop hpc hreq hks₁ hx hop' hdone
  constructor
  · intro hc
    rcases hend with ⟨hpass, -⟩ | ⟨-, hn, hnil⟩
    · exact .inr hpass
    · refine .inl (by_contra fun hne => creates_ne_nil op'.call.dirId op'.stat (s.inoq + 1)
        ?_ hc.le ?_)
      · rw [hn]
        exact fun h => hne (UInt32.toNat_inj.mp h)
      · rw [← hc.stored, hnil]
        rfl
  · intro hcond
    have hstored : op'.Stored (entries (points evs) i) := by
      rcases hend with ⟨-, h⟩ | ⟨⟨r, href⟩, hn, hnil⟩
      · exact h
      · rcases hcond with rfl | hpass
        · refine ⟨by rw [hn]; exact Nat.zero_le _, ?_⟩
          rw [hnil, hn]
          rfl
        · rw [href] at hpass
          cases hpass
    have hst := hstored.2
    rw [hstart] at hst
    refine ⟨hstored.1, hst, ?_, fun halone => ?_, fun st' hst' hok halone => ?_⟩
    · intro pre e post t es t' es' hks hpre hs
      obtain ⟨o, ho, hcallo⟩ := exec_call hr hop hpre
      have hrt := Run.exec (C := fun _ _ => True) (fun _ _ _ => trivial) hr hpre
      have hs : (fs.system db).step t (.advance i e) = some (t', es') := hs
      rcases step_op hrt hs ho with ⟨e', s₁, o', -, hm, ⟨-, hdb⟩, -⟩ | ⟨hno, -⟩
      · rw [hdb]
        exact hm.enters (hcallo ▸ hreq)
      · exact absurd rfl (hno e)
    · rw [exec_enters hr hop hreq halone hx]
      congr 1
      funext d
      rw [← hst, enter_filter]
    · rw [hdone] at hst'
      cases hst'
      rw [hinoq halone, giveBack, if_neg (by rw [hok]; decide), hcall, hreq]
      dsimp only
      rw [hmy, tryReuseIno, if_pos rfl, hstart, numbers_left]

/-! ## A batch that counts, and one that does not

The same two names, once under a valid lease and with a number too many, which is given back,
and once under a lease that has ended. -/

/-- A batch of two names that asks for three numbers. -/
def shortBatch : Call := rootCall 0 (.mkfls (encodeNames [str "a", str "b"]) 0o660 3)

/-- A batch of two names under a lease that has ended. -/
def lateBatch : Call := ⟨⟨0, 0⟩, ⟨0, 0, 0, 0, 0, 0, 0⟩, .mkfls (encodeNames [str "a", str "b"]) 0o660 2⟩

/-- `plainServer` when its first call has arrived. -/
def arrived (c : Call) : State :=
  { plainServer.start (some fun _ => none) with ops := [Op.new c zeroStat] }

theorem run_arrived (c : Call) :
    (plainServer.system (some fun _ => none)).Run (fun _ _ => True) [.inv 0 c] (arrived c) := by
  have hinit : (plainServer.system (some fun _ => none)).init
      (plainServer.start (some fun _ => none)) := rfl
  exact Run.step (k := .call c zeroStat) (.init hinit) trivial rfl

/-- The schedule of a call that runs alone. -/
def aloneSteps (e : Env) (k : Nat) : List Label :=
  .advance 0 e :: [] ++ .advance 0 e :: List.replicate k (.advance 0 e)

/-- The array is too short: two entries, and a count of two. -/
theorem mkfls_counts_short : ∃ s' evs op',
    (plainServer.system (some fun _ => none)).exec (fun _ _ => true) (arrived shortBatch)
      (aloneSteps calm 8) = some (s', evs) ∧
    s'.ops[0]? = some op' ∧ op'.pc = .done .ok ∧ op'.n = 2 ∧
    CountsStored plainServer (some fun _ => none) 0 (arrived shortBatch) s' (aloneSteps calm 8) evs
      op' := by
  have hend : ((plainServer.system (some fun _ => none)).exec (fun _ _ => true) (arrived shortBatch)
      (aloneSteps calm 8)).map (fun p => (p.1.ops[0]?.map fun o => (o.pc, o.n))) =
        some (some (.done .ok, 2)) := by decide +kernel
  obtain ⟨⟨s', evs⟩, hx, hop⟩ := Option.map_eq_some_iff.mp hend
  obtain ⟨op', hop, hend⟩ := Option.map_eq_some_iff.mp hop
  obtain ⟨hpc, hn⟩ := Prod.mk.inj hend
  refine ⟨s', evs, op', hx, hop, hpc, hn, ?_⟩
  exact (mkfls_counts plainServer _ (run_arrived shortBatch) (i := 0) rfl rfl rfl
    (fun e => List.not_mem_nil) hx hop hpc).mpr (.inr (by decide))

/-- The lease has ended: no entry, and still the count that was given. -/
theorem mkfls_late : ∃ s' evs op' msg,
    (plainServer.system (some fun _ => none)).exec (fun _ _ => true) (arrived lateBatch)
      (aloneSteps { calm with ts := 1 } 1) = some (s', evs) ∧
    s'.ops[0]? = some op' ∧ op'.pc = .done (.err .assertionFailed msg) ∧ op'.n = 2 ∧
    entries (points evs) 0 = [] ∧
    ¬ CountsStored plainServer (some fun _ => none) 0 (arrived lateBatch) s'
      (aloneSteps { calm with ts := 1 } 1) evs op' := by
  have hend : ((plainServer.system (some fun _ => none)).exec (fun _ _ => true) (arrived lateBatch)
      (aloneSteps { calm with ts := 1 } 1)).map
        (fun p => (p.1.ops[0]?.map fun o => (o.pc, o.n), entries (points p.2) 0)) =
      some (some (.done (.err .assertionFailed (str "Lease has expired")), 2), []) := by
    decide +kernel
  obtain ⟨⟨s', evs⟩, hx, hend⟩ := Option.map_eq_some_iff.mp hend
  obtain ⟨hop, hnil⟩ := Prod.mk.inj hend
  obtain ⟨op', hop, hend⟩ := Option.map_eq_some_iff.mp hop
  obtain ⟨hpc, hn⟩ := Prod.mk.inj hend
  refine ⟨s', evs, op', _, hx, hop, hpc, hn, hnil, fun hc => ?_⟩
  have hst := hc.stored
  have hle := hc.le
  dsimp only at hnil
  rw [hn] at hst hle
  rw [hnil] at hst
  exact creates_ne_nil _ _ _ (by decide) hle hst.symm

end Filesystem

end DeltaFs
