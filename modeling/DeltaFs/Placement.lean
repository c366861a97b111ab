import DeltaFs.Linear

/-!
# Where records are

A server answers for the names its index maps to it: `IsDirPartitionOk` refuses
a create or a lookup of any other name. Batches are not checked. So as long as
every name a batch puts is one of the server's own, every record of its db is,
and a name that was created is found again: no lookup of it is refused for its
partition.

What an operation has settled by its checks is remembered as `Judged`, which every move
keeps. `creates_found` puts this together with `lstat_sees`: the record is there, so an
`Lstat` returns it or is turned down; and of the ways to be turned down, the permission is
given and the partition is right.
-/

namespace DeltaFs

open Linearization TransitionSystem

namespace Filesystem

/-- The server is the one the index of directory `id` selects for a name. -/
def Serves (fs : Filesystem) (id : DirId) (name : Slice) : Prop :=
  fs.options.srvid = ((fs.index id).selectServer fs.xx name : Int)

instance (fs : Filesystem) (id : DirId) (name : Slice) : Decidable (fs.Serves id name) :=
  Int.instDecidableEq _ _

/-- Every record of a db is one of the server's own. -/
def Placed (fs : Filesystem) (db : Db) : Prop :=
  ∀ id x, id.Fits → (db (entryKey id x)).isSome = true → fs.Serves id x

variable {fs : Filesystem} {s s' : State} {i : Nat} {op op' : Op} {e : Env}
  {tr evs : List FsEvent} {db : Option Db} {C : State → Label → Prop}

theorem Placed.empty (fs : Filesystem) : fs.Placed fun _ => none := by
  intro id x _ h
  cases h

/-- A put of one of the server's own names. -/
theorem Placed.put {db : Db} (hp : fs.Placed db) {id : DirId} {name value : Slice} (hid : id.Fits)
    (h : fs.Serves id name) : fs.Placed (Function.update db (entryKey id name) (some value)) := by
  intro id' x hid' hx
  by_cases hk : entryKey id' x = entryKey id name
  · obtain ⟨rfl, rfl⟩ := entryKey_inj hid' hid hk
    exact h
  · rw [Function.update_of_ne hk] at hx
    exact hp id' x hid' hx

/-- The partition check, when it is not skipped. -/
theorem isPartitionOk_iff (hskip : fs.options.skipPartitionChecks = false) {c : Call} {name : Slice}
    (hname : c.name? = some name) :
    fs.isPartitionOk c (fs.index c.dirId) = true ↔ fs.Serves c.dirId name := by
  simp [isPartitionOk, hname, isDirPartitionOk, hskip, Serves]

/-- A call about a name the server answers for is not refused for its
partition, whether or not the check is skipped. -/
theorem isPartitionOk_of_serves {c : Call} {name : Slice} (hname : c.name? = some name)
    (h : fs.Serves c.dirId name) : fs.isPartitionOk c (fs.index c.dirId) = true := by
  rw [isPartitionOk, hname]
  dsimp only
  rw [isDirPartitionOk]
  split
  · rfl
  · exact decide_eq_true h

/-! ## What the checks have settled

An operation passes the check of its partition once, before it touches anything. From then on it
is known that its name is the server's own, and this knowledge is carried along by the
invariant. A refusal, on the other hand, names the check that has failed. -/

/-- The permission check of a call. -/
def isPermOk (fs : Filesystem) (c : Call) : Bool :=
  if c.isLookup then isLookupOk fs.options.skipPermChecks c.parent c.who
  else isDirWriteOk fs.options.skipPermChecks c.parent c.who

/-- The lease operation `i` was invoked under had ended when its lease was
checked: the clock it read was past `leaseDue`. -/
def Expired (C : State → Label → Prop) (i : Nat) (c : Call) : Prop :=
  ∃ s op e, Took C i c s op e ∧ op.pc = .acquired ∧ c.parent.leaseDue < e.ts

/-- The checks of the lease and of the permission, one by one. -/
theorem refusal_cases {c : Call} {ts : UInt64} {st : Status} (h : fs.refusal c ts = some st) :
    (st = .err .assertionFailed (str "Lease has expired") ∧ c.parent.leaseDue < ts) ∨
      ∃ msg, st = .err .accessDenied msg ∧ msg ≠ str "Wrong dir partition" ∧ fs.isPermOk c = false := by
  have hperm : ∀ {b : Bool} {msg : Slice}, fs.isPermOk c = b → ¬ b = true →
      msg ≠ str "Wrong dir partition" → ∃ m, Status.err .accessDenied msg = .err .accessDenied m ∧
        m ≠ str "Wrong dir partition" ∧ fs.isPermOk c = false :=
    fun hb hno hne => ⟨_, rfl, hne, hb.trans (Bool.eq_false_of_not_eq_true hno)⟩
  rw [refusal] at h
  split at h
  · rename_i hlease
    cases h
    refine .inl ⟨rfl, ?_⟩
    rw [isLeaseOk] at hlease
    split at hlease
    · cases hlease
    · simpa using hlease
  split at h
  · rename_i hlook
    split at h
    · cases h
    · rename_i hno
      cases h
      exact .inr (hperm (if_pos hlook) hno (by decide))
  · rename_i hlook
    split at h
    · cases h
    · rename_i hno
      cases h
      exact .inr (hperm (if_neg hlook) hno (by decide))

/-- **Why a check refuses a call**: its lease has ended, the user lacks the
permission, or its name is in another partition. -/
theorem Refused.cases {c : Call} {st : Status} (h : fs.Refused C i c st) :
    (st = .err .assertionFailed (str "Lease has expired") ∧ Expired C i c) ∨
      (∃ msg, st = .err .accessDenied msg ∧ msg ≠ str "Wrong dir partition" ∧
        fs.isPermOk c = false) ∨
      (st = .err .accessDenied (str "Wrong dir partition") ∧
        fs.isPartitionOk c (fs.index c.dirId) = false) := by
  cases h with
  | check htook hpc h =>
    rcases refusal_cases h with ⟨hst, hdue⟩ | hperm
    · exact .inl ⟨hst, _, _, _, htook, hpc, hdue⟩
    · exact .inr (.inl hperm)
  | partition h => exact .inr (.inr ⟨rfl, h⟩)

/-- What an operation about one name knows of the partition check: past it, the
check has not failed. -/
def Judged (fs : Filesystem) (op : Op) : Prop :=
  match op.pc with
  | .waiting _ => fs.isPartitionOk op.call (fs.index op.call.dirId) = true
  | .running => fs.isPartitionOk op.call (fs.index op.call.dirId) = true
  | .putting _ _ => fs.isPartitionOk op.call (fs.index op.call.dirId) = true
  | .reading => fs.isPartitionOk op.call (fs.index op.call.dirId) = true
  | _ => True

theorem judged_locked (h : fs.isPartitionOk op.call (fs.index op.call.dirId) = true) (j : Nat) :
    fs.Judged { op with pc := if j = op.call.ways.2 then .running else .waiting j } := by
  by_cases hj : j = op.call.ways.2
  · rw [if_pos hj]
    exact h
  · rw [if_neg hj]
    exact h

/-- **A move keeps what the check has settled.** The index of a directory is the same in
every block of it, so a name that was judged is judged the same way later. -/
theorem Judged.move (hj : fs.Judged op) (hb : Blocks fs s.table s.ops) (hk : s.ops[i]? = some op)
    (hm : Move fs s i op e s' op' evs) : fs.Judged op' := by
  cases hm with
  | enterRead hpc hp hd hok hlook =>
    rw [hb.index hk hp hd] at hok
    exact hok
  | lockFirst hpc hp hd hok hlook hlock =>
    rw [hb.index hk hp hd] at hok
    exact judged_locked hok _
  | lockMore hpc hp hd hfree hlock =>
    rw [Judged, hpc] at hj
    exact judged_locked hj _
  | clear hpc hn hread =>
    rw [Judged, hpc] at hj
    rw [Judged, hn.frame.1]
    exact hj
  | @put name rest db hpc hdb =>
    rw [Judged, hpc] at hj
    rw [putDone]
    split
    · exact hj
    · trivial
  | @read name hpc hname =>
    obtain ⟨-, -, st, hpc'⟩ := read_frame fs s op name e
    rw [Judged, hpc']
    trivial
  | _ => trivial

/-- **Every operation of a run** has been judged by its server's index, from the section
that makes the check on. -/
theorem run_judged (hr : (fs.system db).Run C tr s) :
    ∀ {k : Nat} {op : Op}, s.ops[k]? = some op → fs.Judged op := by
  refine hr.invariant (I := fun _ s => ∀ {k : Nat} {op : Op}, s.ops[k]? = some op → fs.Judged op)
    ?_ ?_
  · rintro s rfl k op hk
    cases hk
  · intro tr s l s' evs hr ih _ hs k op hk
    rcases step_cases hs with ⟨c, stat, -, rfl, rfl⟩ | ⟨i, e, o, s₁, o', -, ho, hm, rfl⟩
    · rcases pool_push hk with ⟨-, rfl⟩ | hk
      · trivial
      · exact ih hk
    · dsimp only at hk
      rw [hm.ops_eq] at hk
      rcases pool_set hk with ⟨-, rfl⟩ | ⟨-, hk⟩
      · exact (ih ho).move (run_blocks hr) ho hm
      · exact ih hk

/-- What holds of every call that arrives holds of every operation. -/
theorem run_calls {P : Call → Prop} (hP : ∀ s c stat, C s (.call c stat) → P c)
    (hr : (fs.system db).Run C tr s) :
    ∀ {k : Nat} {op : Op}, s.ops[k]? = some op → P op.call := by
  refine hr.invariant (I := fun _ s => ∀ {k : Nat} {op : Op}, s.ops[k]? = some op → P op.call)
    ?_ ?_
  · rintro s rfl k op hk
    cases hk
  · intro tr s l s' evs hr ih hC hs k op hk
    rcases step_cases hs with ⟨c, stat, rfl, rfl, rfl⟩ | ⟨i, e, o, s₁, o', -, ho, hm, rfl⟩
    · rcases pool_push hk with ⟨-, rfl⟩ | hk
      · exact hP _ _ _ hC
      · exact ih hk
    · dsimp only at hk
      rw [hm.ops_eq] at hk
      rcases pool_set hk with ⟨-, rfl⟩ | ⟨-, hk⟩
      · rw [hm.call_eq]
        exact ih ho
      · exact ih hk

/-! ## Records stay in place

Every record of the db is under a name the server answers for. A single create has been checked;
the names of a batch are not, since only the directory is checked there, so the condition is
that batches are sent to the server of their names. Records are never moved. -/

/-- What a move does to the db: a put of its name, or a bulk insertion. -/
theorem Move.db_cases (hm : Move fs s i op e s' op' evs) :
    s'.db = s.db ∨ op.call.isBukin = true ∨
      ∃ name rest db, op.pc = .putting name rest ∧ s.db = some db ∧
        s'.db = some (Function.update db (entryKey op.call.dirId name) (some op.stat.encodeTo)) := by
  cases hm with
  | bulk hpc hreq hdb => exact .inr (.inl (by rw [Call.isBukin, hreq]))
  | put hpc hdb => exact .inr (.inr ⟨_, _, _, hpc, hdb, rfl⟩)
  | _ => exact .inl rfl

/-- **A move keeps the records in place**, when it puts no name of another
server. -/
theorem Placed.move (hp : ∀ db, s.db = some db → fs.Placed db) (hm : Move fs s i op e s' op' evs)
    (hplain : op.call.Plain)
    (hput : ∀ name rest, op.pc = .putting name rest → fs.Serves op.call.dirId name) :
    ∀ db, s'.db = some db → fs.Placed db := by
  intro db hdb
  rcases hm.db_cases with heq | hbulk | ⟨name, rest, db', hpc, hdb', heq⟩
  · exact hp db (heq.symm.trans hdb)
  · rw [hplain.2] at hbulk
    cases hbulk
  · obtain rfl := Option.some.inj (heq.symm.trans hdb)
    exact (hp db' hdb').put hplain.1 (hput name rest hpc)

/-- A batch that is about to put is about to put a name its server answers
for. -/
def OwnName (fs : Filesystem) (op : Op) : Prop :=
  match op.pc with
  | .putting name _ => op.call.name? = none → fs.Serves op.call.dirId name
  | _ => True

instance (fs : Filesystem) (op : Op) : Decidable (fs.OwnName op) := by
  unfold OwnName
  split <;> infer_instance

/-- Steps on directories whose number fits a key, without bulk insertions, in
which a batch puts only names its server answers for. -/
def PutsOwn (fs : Filesystem) (s : State) : Label → Prop
  | .call c _ => c.Plain
  | .advance i _ => ∀ op ∈ s.ops[i]?, fs.OwnName op

instance (fs : Filesystem) (s : State) : (l : Label) → Decidable (fs.PutsOwn s l)
  | .call c _ => inferInstanceAs (Decidable c.Plain)
  | .advance i _ => inferInstanceAs (Decidable (∀ op ∈ s.ops[i]?, fs.OwnName op))

/-- A put in such a step is of one of the server's own names: a single create
has passed the check. -/
theorem PutsOwn.serves (hskip : fs.options.skipPartitionChecks = false) {name rest : Slice}
    (hC : fs.PutsOwn s (.advance i e)) (hk : s.ops[i]? = some op) (hplaced : op.Placed)
    (hj : fs.Judged op) (hpc : op.pc = .putting name rest) : fs.Serves op.call.dirId name := by
  rcases hname : op.call.name? with _ | x
  · have hown := hC op hk
    rw [OwnName, hpc] at hown
    exact hown hname
  · rw [Op.Placed, hpc] at hplaced
    rw [Judged, hpc] at hj
    obtain rfl := hplaced.2 x hname
    exact (isPartitionOk_iff hskip hname).mp hj

/-- **Records stay in place.** A put is one of a single create, which has been checked, or
of a batch, which the condition is about. -/
theorem run_placed (hskip : fs.options.skipPartitionChecks = false) {db₀ : Db}
    (hdb₀ : fs.Placed db₀) (hr : (fs.system (some db₀)).Run fs.PutsOwn tr s) :
    ∀ db, s.db = some db → fs.Placed db := by
  refine hr.invariant (I := fun _ s => ∀ db, s.db = some db → fs.Placed db) ?_ ?_
  · rintro s rfl db hdb
    cases hdb
    exact hdb₀
  · intro tr s l s' evs hr ih hC hs
    rcases step_cases hs with ⟨c, stat, rfl, rfl, rfl⟩ | ⟨i, e, op, s₁, op', rfl, hk, hm, rfl⟩
    · exact ih
    · have hplain := run_calls (P := Call.Plain) (fun _ _ _ h => h) hr hk
      suffices h : ∀ db, s₁.db = some db → fs.Placed db from h
      refine Placed.move ih hm hplain fun name rest hpc => ?_
      exact PutsOwn.serves hskip hC hk ((run_blocks hr).placed hk) (run_judged hr hk) hpc

/-! ## What was created is found

A create that returned OK has put its record at the server that its name is mapped to, and a
later lookup of the name is sent to the same server. That the lookup sees the record is then the
linearizability of one server. -/

/-- Only a put creates. -/
theorem Move.created (hm : Move fs s i op e s' op' evs) {j : Nat} {id : DirId} {x : Slice}
    {st : Stat} (h : .pt j (.created id x st) ∈ evs) :
    id = op.call.dirId ∧ ∃ rest, op.pc = .putting x rest := by
  cases hm with
  | put hpc hdb =>
    cases List.mem_singleton.mp h
    exact ⟨rfl, _, hpc⟩
  | collide hpc hn hskip hread => cases List.mem_singleton.mp h
  | @read name hpc hname =>
    obtain ⟨t, ht, heq⟩ := List.mem_map.mp h
    cases heq
    rw [read_touches] at ht
    split at ht
    · cases List.mem_singleton.mp ht
    · cases List.mem_singleton.mp ht
    · cases List.mem_singleton.mp ht
    · cases ht
  | leave hpc hp hrel => cases List.mem_singleton.mp h
  | _ => cases h

/-- **What a run has created** is under the server's own names. A single create has
passed the check of its name; a batch is not checked for each name, hence the condition
on what it puts. -/
theorem run_created (hskip : fs.options.skipPartitionChecks = false)
    (hr : (fs.system db).Run fs.PutsOwn tr s) :
    ∀ {j : Nat} {id : DirId} {x : Slice} {st : Stat}, .pt j (.created id x st) ∈ tr →
      fs.Serves id x := by
  refine hr.invariant (I := fun tr _ => ∀ {j : Nat} {id : DirId} {x : Slice} {st : Stat},
    .pt j (.created id x st) ∈ tr → fs.Serves id x) ?_ ?_
  · intro s _ j id x st h
    cases h
  · intro tr s l s' evs hr ih hC hs j id x st h
    rcases List.mem_append.mp h with h | h
    · exact ih h
    rcases step_cases hs with ⟨c, stat, rfl, rfl, rfl⟩ | ⟨i, e, op, s₁, op', rfl, hk, hm, rfl⟩
    · cases List.mem_singleton.mp h
    · obtain ⟨rfl, rest, hpc⟩ := hm.created h
      exact PutsOwn.serves hskip hC hk ((run_blocks hr).placed hk) (run_judged hr hk) hpc

/-- A create that returned OK has created each of its names. -/
theorem ok_created (hr : (fs.system db).Run C tr s) {c : Call} {r : Reply} {x : Slice}
    (hinv : .inv i c ∈ tr) (hret : .ret i r ∈ tr) (hok : r.status = .ok)
    (hlook : c.isLookup = false) (hx : c.Names x) :
    ∃ st, .pt i (.created c.dirId x st) ∈ tr := by
  obtain ⟨ino, hout⟩ := (run_log hr).outcome hinv hret
  obtain ⟨st', hmem⟩ := hout.ok_created hok hlook hx
  exact ⟨st', mem_entries_points.mp hmem⟩

/-- **Records are where lookups look for them.** Take any run, of a server that
checks partitions and names, in which a batch puts only names its server answers
for, and let `ks` be the steps it takes. Every record of the db is one of the
server's own, so a lookup is sent where the record is; and an `Lstat`, by a user
who may look up, invoked after a create has returned OK finds each name of the
create. Only two things can come between: the lease of the `Lstat` had ended when
it was checked, by the clock the `Lstat` itself read in one of the steps `ks`, or
a db failed in one of its steps. -/
theorem creates_found (fs : Filesystem) (hskip : fs.options.skipPartitionChecks = false)
    (hcoll : fs.options.skipNameCollisionChecks = false) (db₀ : Db) (hdb₀ : fs.Placed db₀)
    {ks : List (State × Label)} {tr : List FsEvent} {s : State}
    (hsteps : (fs.system (some db₀)).Steps ks tr s) (hown : ∀ p ∈ ks, fs.PutsOwn p.1 p.2) :
    (∀ db, s.db = some db → fs.Placed db) ∧
      ∀ l₁ l₂ l₃ i c r x j c' r', tr = l₁ ++ .ret i r :: (l₂ ++ .inv j c' :: l₃) →
        .inv i c ∈ tr → r.status = .ok → c.isLookup = false → c.Names x →
        c'.dirId = c.dirId → c'.req = .lstat x →
        isLookupOk fs.options.skipPermChecks c'.parent c'.who = true → .ret j r' ∈ tr →
          (∃ st, .pt i (.created c.dirId x st) ∈ tr ∧ r'.status = .ok ∧ r'.stat = st) ∨
            (r'.status = .err .assertionFailed (str "Lease has expired") ∧
              Expired (Among ks) j c') ∨
            fs.Faulted (Among ks) j c' r'.status := by
  have hrun := hsteps.run_of hown
  refine ⟨run_placed hskip hdb₀ hrun, ?_⟩
  intro l₁ l₂ l₃ i c r x j c' r' htr hinv hok hlook hx hid hreq hperm hret
  have hret₁ : .ret i r ∈ tr := by
    rw [htr]
    simp
  obtain ⟨st, hcre⟩ := ok_created hrun hinv hret₁ hok hlook hx
  have hplain : (fs.system (some db₀)).Run (fun _ l => l.Plain) tr s := by
    refine hrun.mono fun s l h => ?_
    cases l with
    | call c stat => exact h
    | advance i e => trivial
  obtain ⟨a, ha, -⟩ := (run_refines hcoll hplain).legal
  have hcre' : .pt i (.created c'.dirId x st) ∈ tr := hid.symm ▸ hcre
  have hname : c'.name? = some x := by
    rw [Call.name?, hreq]
  rcases lstat_sees hsteps.run ha htr hcre' hreq hret with ⟨hst, hstat⟩ | href | hfault
  · exact .inl ⟨st, hcre, hst, hstat⟩
  · -- the permission is given, and the name is one of the server's own
    rcases href.cases with hexp | ⟨msg, -, -, hno⟩ | ⟨-, hno⟩
    · exact .inr (.inl hexp)
    · rw [isPermOk, Call.isLookup, hreq, if_pos rfl, hperm] at hno
      cases hno
    · rw [isPartitionOk_of_serves hname (run_created hskip hrun hcre')] at hno
      cases hno
  · exact .inr (.inr hfault)

/-- A hash that tells names apart: the sum of their bytes. -/
def sumHash : XXHash where
  xxhash32 _ _ := 0
  xxhash64 b _ := b.foldl (fun h c => h + c.toUInt64) 17241709254077376921

/-- Server `i` of two. -/
def pairServer (i : Nat) : Filesystem where
  options := { FilesystemOptions.default with vsrvs := 2, nsrvs := 2, srvid := i }
  xx := sumHash
  readonlyDbs := []

/-- A batch of one name, and then `Lstat` of the name. -/
def mkflsThenLstat (k : Nat) : List Label :=
  .call (rootCall 0 (.mkfls (encodeNames [str "ab"]) 0o660 1)) zeroStat :: sections 0 8 ++
    .call (rootCall 0 (.lstat (str "ab"))) zeroStat :: sections 1 k

/-- At the server of the name, the lookup finds it. -/
theorem creates_found_mkflsThenLstat :
    ∃ ks tr s, ((pairServer 1).system (some fun _ => none)).Steps ks tr s ∧
      .ret 1 ⟨.ok, firstStat, none, 0⟩ ∈ tr ∧ ∀ db, s.db = some db → (pairServer 1).Placed db := by
  have htr : (((pairServer 1).system (some fun _ => none)).exec
      (fun s l => decide ((pairServer 1).PutsOwn s l)) ((pairServer 1).start (some fun _ => none))
      (mkflsThenLstat 5)).map (fun p => p.2.getLast?) =
        some (some (.ret 1 ⟨.ok, firstStat, none, 0⟩)) := by decide +kernel
  obtain ⟨⟨s, tr⟩, hp, htr⟩ := Option.map_eq_some_iff.mp htr
  have hinit : ((pairServer 1).system (some fun _ => none)).init
      ((pairServer 1).start (some fun _ => none)) := rfl
  have hrun := Run.exec (C := (pairServer 1).PutsOwn) (fun _ _ hd => of_decide_eq_true hd)
    (.init hinit) hp
  obtain ⟨ks, hsteps, hown⟩ := hrun.steps
  obtain ⟨hplaced, -⟩ :=
    creates_found (pairServer 1) rfl rfl (fun _ => none) (Placed.empty _) hsteps hown
  exact ⟨ks, _, _, hsteps, List.mem_of_getLast? htr, hplaced⟩

/-- At the other server, the batch is accepted and the lookup is not: the record
is in the wrong place. -/
theorem batch_misplaced :
    ∃ tr s db, ((pairServer 0).system (some fun _ => none)).Run (fun _ l => l.Plain) tr s ∧
      s.db = some db ∧ ¬ (pairServer 0).Placed db ∧
      .ret 0 ⟨.ok, firstStat, none, 1⟩ ∈ tr ∧
      .ret 1 ⟨.err .accessDenied (str "Wrong dir partition"), zeroStat, none, 0⟩ ∈ tr := by
  have htr : (((pairServer 0).system (some fun _ => none)).exec (fun _ l => decide l.Plain)
      ((pairServer 0).start (some fun _ => none)) (mkflsThenLstat 4)).map (fun p =>
        (p.2, p.1.db.map fun db => (db (entryKey ⟨0, 0⟩ (str "ab"))).isSome)) =
        some ([.inv 0 (rootCall 0 (.mkfls (encodeNames [str "ab"]) 0o660 1)),
          .pt 0 (.created ⟨0, 0⟩ (str "ab") firstStat), .ret 0 ⟨.ok, firstStat, none, 1⟩,
          .inv 1 (rootCall 0 (.lstat (str "ab"))),
          .ret 1 ⟨.err .accessDenied (str "Wrong dir partition"), zeroStat, none, 0⟩],
          some true) := by decide +kernel
  obtain ⟨⟨s, tr⟩, hp, htr⟩ := Option.map_eq_some_iff.mp htr
  obtain ⟨htr, hdb⟩ := Prod.mk.inj htr
  obtain ⟨db, hdb, hsome⟩ := Option.map_eq_some_iff.mp hdb
  have hinit : ((pairServer 0).system (some fun _ => none)).init
      ((pairServer 0).start (some fun _ => none)) := rfl
  have hrun := Run.exec (C := fun _ l => l.Plain) (fun _ _ hd => of_decide_eq_true hd)
    (.init hinit) hp
  refine ⟨_, _, db, hrun, hdb, fun hplaced => ?_, ?_, ?_⟩
  · have hno : ¬ (pairServer 0).Serves ⟨0, 0⟩ (str "ab") := by decide +kernel
    exact hno (hplaced _ _ (by decide) hsome)
  · rw [List.nil_append, show tr = _ from htr]
    simp
  · rw [List.nil_append, show tr = _ from htr]
    simp

/-! ## Requests that were routed to their server

If clients send each request to the server of its name, the conditions above hold by themselves,
whether the server checks partitions or not, and no request is refused for its partition. -/

/-- A call about one name, at the server of that name. -/
def Routed (fs : Filesystem) (c : Call) : Prop :=
  c.Plain ∧ ∃ name, c.name? = some name ∧ fs.Serves c.dirId name

/-- Steps that bring routed calls only. -/
def Label.Routed (fs : Filesystem) : Label → Prop
  | .call c _ => fs.Routed c
  | .advance _ _ => True

/-- What was routed is stored in place, whether or not the server checks. -/
theorem routed_placed {db₀ : Db} (hdb₀ : fs.Placed db₀)
    (hr : (fs.system (some db₀)).Run (fun _ l => l.Routed fs) tr s) :
    ∀ db, s.db = some db → fs.Placed db := by
  refine hr.invariant (I := fun _ s => ∀ db, s.db = some db → fs.Placed db) ?_ ?_
  · rintro s rfl db hdb
    cases hdb
    exact hdb₀
  · intro tr s l s' evs hr ih hC hs
    rcases step_cases hs with ⟨c, stat, rfl, rfl, rfl⟩ | ⟨i, e, op, s₁, op', rfl, hk, hm, rfl⟩
    · exact ih
    · obtain ⟨hplain, x, hname, hserves⟩ := run_calls (P := fs.Routed) (fun _ _ _ h => h) hr hk
      suffices h : ∀ db, s₁.db = some db → fs.Placed db from h
      refine Placed.move ih hm hplain fun name rest hpc => ?_
      have hplaced := (run_blocks hr).placed hk
      rw [Op.Placed, hpc] at hplaced
      obtain rfl := hplaced.2 x hname
      exact hserves

/-- **What was routed is not refused for its partition.** The condition is about calls
alone: each has come to the server of its name. -/
theorem routed_not_refused (hr : (fs.system db).Run (fun _ l => l.Routed fs) tr s) {k : Nat}
    {r : Reply} (hret : .ret k r ∈ tr) :
    r.status ≠ .err .accessDenied (str "Wrong dir partition") := by
  intro hst
  have hl := run_log hr
  obtain ⟨c, hinv⟩ := hl.wf.invoked hret
  obtain ⟨op, hk, rfl⟩ := hl.inv.mp hinv
  obtain ⟨-, x, hname, hserves⟩ := run_calls (P := fs.Routed) (fun _ _ _ h => h) hr hk
  obtain ⟨ino, hout⟩ := hl.outcome hinv hret
  have href := hout.accessDenied hname hst
  rw [hst] at href
  rcases href.cases with ⟨heq, -⟩ | ⟨msg, heq, hne, -⟩ | ⟨-, hno⟩
  · cases heq
  · cases heq
    exact hne rfl
  · rw [isPartitionOk_of_serves hname hserves] at hno
    cases hno

end Filesystem

end DeltaFs
