import DeltaFs.DirTable
import DeltaFs.FsDb
import DeltaFs.Linearization
import DeltaFs.Transition

/-!
# The metadata server

`fs.cc`: any number of threads run `Bukin`, `Mkfls`, `Mkfle`, `Mkdir`, `Lokup`
and `Lstat` on one `Filesystem`. Every section under `mutex_` or under a
directory's `mu` is one step, and so is every call on a db; a thread that finds
a way busy waits and goes on from that way. An operation is where its thread
has got to, its `Pc`, with the locals it still needs.

A step may show events: an operation is invoked, it returns, or it touches the
entries of the server. `Move` lists what a step can do; everything about runs
is derived from it.
-/

namespace DeltaFs

/-! ## Requests, replies and operations

What a server is opened with, what it is asked, and what it says. An operation is a thread in
one of the functions of `fs.cc`: where it has got to, and its local variables. -/

/-- `FilesystemOptions`. -/
structure FilesystemOptions where
  dirLruSize : Nat
  skipPartitionChecks : Bool
  skipNameCollisionChecks : Bool
  skipLeaseDueChecks : Bool
  skipPermChecks : Bool
  /-- total number of virtual servers -/
  vsrvs : Nat
  /-- number of servers -/
  nsrvs : Nat
  /-- my id in giga partitioning -/
  srvid : Int
  /-- my dnode no for allocating new fids -/
  mydno : UInt64

/-- The options a `FilesystemOptions` starts with. -/
def FilesystemOptions.default : FilesystemOptions where
  dirLruSize := 4096
  skipPartitionChecks := false
  skipNameCollisionChecks := false
  skipLeaseDueChecks := false
  skipPermChecks := false
  vsrvs := 1
  nsrvs := 1
  srvid := 0
  mydno := 0

/-- What is constant after a server has been opened. -/
structure Filesystem where
  options : FilesystemOptions
  xx : XXHash
  readonlyDbs : List Db

/-- The requests of `FilesystemIf`. -/
inductive Request where
  | bukin (tableDir : Slice)
  | mkfls (namearr : Slice) (mode n : UInt32)
  | mkfle (name : Slice) (mode : UInt32)
  | mkdir (name : Slice) (mode : UInt32)
  | lokup (name : Slice)
  | lstat (name : Slice)
  deriving DecidableEq

/-- A request with who makes it and the lease of the parent directory. -/
structure Call where
  who : User
  parent : LookupStat
  req : Request
  deriving DecidableEq

/-- `at`: the id of the parent directory. -/
def Call.dirId (c : Call) : DirId := c.parent.dirId

/-- What an operation returns: its status and its output parameters. -/
structure Reply where
  status : Status
  /-- `*stat`, of `Mkfle`, `Mkdir` and `Lstat` -/
  stat : Stat
  /-- `*stat`, of `Lokup` -/
  look : Option LookupStat
  /-- `*n`, of `Mkfls` -/
  n : UInt32
  deriving DecidableEq

/-- How an operation touches the entries of a server. -/
inductive Touch where
  /-- an entry was put -/
  | created : DirId → Slice → Stat → Touch
  /-- a create found the entry there -/
  | collided : DirId → Slice → Touch
  /-- a lookup read the entry, `none` when there is none to return -/
  | looked : DirId → Slice → Option Stat → Touch
  deriving DecidableEq

/-- The events of a server. -/
abbrev FsEvent : Type := Linearization.Event Call Reply Touch

/-- Where an operation's thread has got to. -/
inductive Pc where
  /-- before `AcquireDir` -/
  | entered
  /-- before the checks of the lease -/
  | acquired
  /-- before locking `dir->mu` -/
  | checked
  /-- waiting for a way -/
  | waiting (i : Nat)
  /-- holding its ways, before the next read of `CheckAndPut`, or `BulkInsert` -/
  | running
  /-- holding its ways, before `Put`; with what is left of the name array -/
  | putting (name rest : Slice)
  /-- before the read of `Lstat1` -/
  | reading
  /-- before giving its ways back -/
  | unlocking (s : Status)
  /-- before the last section under `mutex_` -/
  | leaving (s : Status)
  /-- returned -/
  | done (s : Status)
  deriving DecidableEq

/-- An operation: its call, and the locals of its thread. -/
structure Op where
  call : Call
  pc : Pc
  /-- the control block it references -/
  dir : Option Nat
  /-- `*stat`; what it holds before it is set is the caller's business -/
  stat : Stat
  look : Option LookupStat
  /-- the last inode number it was given -/
  myino : UInt64
  /-- the first one, of a batch -/
  startino : UInt64
  /-- `*n`, of a batch -/
  n : UInt32
  /-- the number of names put, of a batch -/
  m : Nat
  /-- what is left of the name array -/
  input : Slice
  deriving DecidableEq

/-- An operation that has just been invoked. -/
def Op.new (call : Call) (stat : Stat) : Op where
  call := call
  pc := .entered
  dir := none
  stat := stat
  look := none
  myino := 0
  startino := 0
  n := match call.req with
    | .mkfls _ _ n => n
    | _ => 0
  m := 0
  input := match call.req with
    | .mkfls namearr _ _ => namearr
    | _ => []

/-- What an operation that returns `s` replies. -/
def Op.reply (op : Op) (s : Status) : Reply := ⟨s, op.stat, op.look, op.n⟩

/-- `SetInodeNo`, on the stat of a batch: the number of its next name. -/
def Op.setInodeNo (op : Op) : Op :=
  { op with stat := { op.stat with inodeNo := op.startino + UInt64.ofNat op.m } }

/-- `kWays`. -/
def kWays : Nat := 8

/-- The ways a call locks, `[first, end)`: that of its name, or all. -/
def Call.ways (c : Call) : Nat × Nat :=
  match c.req with
  | .mkfle name _ => ((hash name 0).toNat % kWays, (hash name 0).toNat % kWays + 1)
  | .mkdir name _ => ((hash name 0).toNat % kWays, (hash name 0).toNat % kWays + 1)
  | _ => (0, kWays)

/-- How many inode numbers a call takes. -/
def Call.inos (c : Call) : UInt64 :=
  match c.req with
  | .mkfls _ _ n => n.toUInt64
  | .mkfle _ _ => 1
  | .mkdir _ _ => 1
  | _ => 0

/-- The name of a call that is about one name. -/
def Call.name? (c : Call) : Option Slice :=
  match c.req with
  | .bukin _ => none
  | .mkfls _ _ _ => none
  | .mkfle name _ => some name
  | .mkdir name _ => some name
  | .lokup name => some name
  | .lstat name => some name

/-- Whether a call only reads. -/
def Call.isLookup (c : Call) : Bool :=
  match c.req with
  | .lokup _ => true
  | .lstat _ => true
  | _ => false

/-- A call about one name that does not look it up creates it. -/
theorem Call.single_cases {c : Call} {name : Slice} (hname : c.name? = some name)
    (hlook : c.isLookup = false) :
    (∃ mode, c.req = .mkfle name mode) ∨ ∃ mode, c.req = .mkdir name mode := by
  obtain ⟨who, parent, req⟩ := c
  cases req with
  | bukin d => cases hname
  | mkfls a m n => cases hname
  | mkfle x m =>
    cases hname
    exact .inl ⟨m, rfl⟩
  | mkdir x m =>
    cases hname
    exact .inr ⟨m, rfl⟩
  | lokup x => cases hlook
  | lstat x => cases hlook

/-- One that looks it up does nothing else. -/
theorem Call.lookup_cases {c : Call} {name : Slice} (hname : c.name? = some name)
    (hlook : c.isLookup = true) : c.req = .lokup name ∨ c.req = .lstat name := by
  obtain ⟨who, parent, req⟩ := c
  cases req with
  | bukin d => cases hlook
  | mkfls a m n => cases hlook
  | mkfle x m => cases hlook
  | mkdir x m => cases hlook
  | lokup x =>
    cases hname
    exact .inl rfl
  | lstat x =>
    cases hname
    exact .inr rfl

namespace Filesystem

/-! ## The state of a server

What the operations share, and what a section finds out from outside: the clock, and which calls
on the dbs fail. -/

/-- The state of a server. -/
structure State where
  inoq : UInt64
  table : DirTable
  /-- `db_`, when it has been set -/
  db : Option Db
  /-- all operations, in the order of their invocation -/
  ops : List Op

/-- What a section leaves to the environment: the clock, the reads and writes
that fail, and what the db holds after a bulk insertion. -/
structure Env where
  ts : UInt64
  faults : Nat → Option Slice
  putFault : Option Slice
  bulk : Status × Db

/-- What a step is: a new operation, with what its output parameter holds, or
the next section of one. -/
inductive Label where
  | call (c : Call) (stat : Stat)
  | advance (i : Nat) (e : Env)

variable (fs : Filesystem)

/-- The dbs a read asks, in order. -/
def dbs (s : State) : List Db := s.db.toList ++ fs.readonlyDbs

/-- The index of a directory at this server. -/
def index (id : DirId) : DirIndex := fetchIndex fs.xx id fs.options.vsrvs fs.options.nsrvs

/-! ## The first section: `AcquireDir` and inode numbers

One section of `mutex_`: the block of the directory is acquired, and a create takes its
numbers, all of them at once. -/

/-- The stat of a new entry. -/
def newStat (c : Call) (type mode zserver : UInt32) (ino : UInt64) : Stat where
  dnodeNo := fs.options.mydno
  inodeNo := ino
  fileSize := 0
  fileMode := type ||| (mode &&& accessPerms)
  zerothServer := zserver
  userId := c.who.uid
  groupId := c.who.gid
  modifyTime := 0
  changeTime := 0

/-- The inode numbers and the stat of a create, `inoq` being the last number
now taken. The stat of a batch has no number yet. -/
def reserve (op : Op) (inoq : UInt64) : Op :=
  match op.call.req with
  | .mkfls _ mode n =>
    { op with
      stat := fs.newStat op.call sIfreg mode (-1) op.stat.inodeNo
      myino := inoq
      startino := inoq - n.toUInt64 + 1 }
  | .mkfle _ mode => { op with stat := fs.newStat op.call sIfreg mode (-1) inoq, myino := inoq }
  | .mkdir _ mode =>
    let zserver := pickupServer fs.xx ⟨fs.options.mydno, inoq⟩
    { op with stat := fs.newStat op.call sIfdir mode zserver inoq, myino := inoq }
  | _ => op

/-- The section under `mutex_` every operation starts with. -/
def acquire (s : State) (op : Op) : Option (State × Op) :=
  match s.table.acquireDir op.call.dirId with
  | none => none
  | some (t, p) =>
    let inoq := s.inoq + op.call.inos
    some ({ s with table := t, inoq := inoq },
      { fs.reserve op inoq with dir := some p, pc := .acquired })

/-! ## The checks

Under the `mu` of the directory: the lease against the clock, the permission, and, with the
index that may have to be fetched first, whether the server answers for the name. Batches
skip the last one. -/

/-- `IsLeaseOk`. -/
def isLeaseOk (parent : LookupStat) (ts : UInt64) : Bool :=
  if fs.options.skipLeaseDueChecks then true else ts ≤ parent.leaseDue

/-- The checks `Lstat1`, `Mknos1`, `Bukin1` and `Mknod1` start with; `none`
when they pass. -/
def refusal (c : Call) (ts : UInt64) : Option Status :=
  if !fs.isLeaseOk c.parent ts then some (.err .assertionFailed (str "Lease has expired"))
  else if c.isLookup then
    if isLookupOk fs.options.skipPermChecks c.parent c.who then none
    else some (.err .accessDenied (str "No dir x perm"))
  else if isDirWriteOk fs.options.skipPermChecks c.parent c.who then none
  else some (.err .accessDenied (str "No write perm"))

/-- The checks, as a step. -/
def check (op : Op) (ts : UInt64) : Op :=
  match fs.refusal op.call ts with
  | some s => { op with pc := .leaving s }
  | none => { op with pc := .checked }

/-- `MaybeFetchDir`. -/
def maybeFetchDir (d : Dir) : Dir :=
  match d.giga with
  | some _ => d
  | none => { d with giga := some (fs.index d.id) }

/-- The index of a block that has been fetched. -/
def gigaOf (d : Dir) : DirIndex := d.giga.getD (fs.index d.id)

/-- `IsDirPartitionOk`. -/
def isDirPartitionOk (giga : DirIndex) (name : Slice) : Bool :=
  if fs.options.skipPartitionChecks then true
  else fs.options.srvid = (giga.selectServer fs.xx name : Int)

/-- The partition check of `Mknod1` and `Lstat1`. `Mknos1` and `Bukin1` make
none. -/
def isPartitionOk (c : Call) (giga : DirIndex) : Bool :=
  match c.name? with
  | none => true
  | some name => fs.isDirPartitionOk giga name

/-! ## Ways

A create of one name locks one of the eight ways of its directory, a batch all of them, from
the lowest up. A way that is busy ends the section: the thread waits, and goes on from that
way when it is woken up. -/

/-- Lock `k` ways from `i` on, up to one that is busy. Returns the way it
stopped at. -/
def lockWays : Nat → Nat → (Nat → Bool) → Nat × (Nat → Bool)
  | 0, i, busy => (i, busy)
  | k + 1, i, busy =>
    if busy i then (i, busy) else lockWays k (i + 1) (Function.update busy i true)

/-- Give the ways of `[i, j)` back. -/
def unlockWays (i j : Nat) (busy : Nat → Bool) : Nat → Bool :=
  fun k => if i ≤ k ∧ k < j then false else busy k

/-- Go on locking from way `i` of a block. -/
def lockFrom (op : Op) (d : Dir) (i : Nat) : Op × Dir :=
  let (j, busy) := lockWays (op.call.ways.2 - i) i d.busy
  ({ op with pc := if j = op.call.ways.2 then .running else .waiting j }, { d with busy := busy })

/-- The section under `dir->mu` that fetches the index, checks the partition and
locks ways; lookups lock none. -/
def enter (op : Op) (d : Dir) : Op × Dir :=
  let d := fs.maybeFetchDir d
  if fs.isPartitionOk op.call (fs.gigaOf d) then
    if op.call.isLookup then ({ op with pc := .reading }, d)
    else lockFrom op d op.call.ways.1
  else ({ op with pc := .leaving (.err .accessDenied (str "Wrong dir partition")) }, d)

/-! ## Calls on the db

Nothing is locked but the ways, so each call is a section of its own, and the environment
chooses how it ends. A batch goes from one name to the next until one fails. -/

/-- An operation that is done with the db: a batch has put `m` names. -/
def stop (op : Op) (s : Status) : Op :=
  { op with
    n := match op.call.req with
      | .mkfls _ _ _ => UInt32.ofNat op.m
      | _ => op.n
    pc := .unlocking s }

/-- The read of `CheckAndPut`, for `name`. -/
def checkName (s : State) (op : Op) (name rest : Slice) (e : Env) : Op × List Touch :=
  if fs.options.skipNameCollisionChecks then ({ op with pc := .putting name rest }, [])
  else
    let r := dbGet (fs.dbs s) op.call.dirId name e.faults op.stat
    if r.1.isOk then (stop op (.err .alreadyExists name), [.collided op.call.dirId name])
    else if r.1.isNotFound then ({ op with pc := .putting name rest }, [])
    else (stop op r.1, [])

/-- The next name of a batch, if its loop goes on, and the rest of the
array. -/
def nextName (op : Op) : Option (Slice × Slice) :=
  if op.m < op.n.toNat then getLengthPrefixedSlice op.input else none

/-- The next thing an operation that has its ways does. A bulk insertion needs
a db. -/
def run (s : State) (op : Op) (e : Env) : Option (State × Op × List Touch) :=
  match op.call.req with
  | .bukin _ => s.db.map fun _ => ({ s with db := some e.bulk.2 }, stop op e.bulk.1, [])
  | .mkfls _ _ _ =>
    match nextName op with
    | none => some (s, stop op .ok, [])
    | some (name, rest) => some (s, fs.checkName s op.setInodeNo name rest e)
  | .mkfle name _ => some (s, fs.checkName s op name [] e)
  | .mkdir name _ => some (s, fs.checkName s op name [] e)
  | _ => none

/-- What follows a successful put: a batch goes on, a single create is over. -/
def putDone (op : Op) (rest : Slice) : Op :=
  match op.call.req with
  | .mkfls _ _ _ => { op with m := op.m + 1, input := rest, pc := .running }
  | _ => stop op .ok

/-- The put of `CheckAndPut`; it needs a db. -/
def put (s : State) (op : Op) (name rest : Slice) (e : Env) : Option (State × Op × List Touch) :=
  match s.db with
  | none => none
  | some db =>
    let (st, db) := db.put op.call.dirId name op.stat e.putFault
    if st.isOk then
      some ({ s with db := some db }, putDone op rest, [.created op.call.dirId name op.stat])
    else some (s, stop op st, [])

/-- The read of `Lstat1`, and what `Lokup1` makes of it. -/
def read (s : State) (op : Op) (name : Slice) (e : Env) : Op × List Touch :=
  let r := dbGet (fs.dbs s) op.call.dirId name e.faults op.stat
  let touch : List Touch := match r.1 with
    | .ok => [.looked op.call.dirId name (some r.2)]
    | .err .notFound _ => [.looked op.call.dirId name none]
    | .err .corruption _ => [.looked op.call.dirId name none]
    | .err _ _ => []
  match op.call.req with
  | .lokup _ =>
    if r.1.isOk then
      if isDir r.2.fileMode then
        ({ op with look := some (LookupStat.copyFrom r.2 (-1)), pc := .leaving .ok }, touch)
      else ({ op with pc := .leaving (.err .dirExpected (str "Not a dir")) }, touch)
    else ({ op with pc := .leaving r.1 }, touch)
  | _ => ({ op with stat := r.2, pc := .leaving r.1 }, touch)

/-! ## The last section

The numbers that are left are given back if they are the last ones drawn, and the block is
released, which may delete it. -/

/-- `TryReuseIno`. -/
def tryReuseIno (inoq ino n : UInt64) : UInt64 := if ino = inoq then inoq - n else inoq

/-- What becomes of `inoq_` when an operation returns: a create that failed
gives numbers back. -/
def giveBack (op : Op) (s : Status) (inoq : UInt64) : UInt64 :=
  if s.isOk then inoq
  else
    match op.call.req with
    | .mkfls _ _ _ => tryReuseIno inoq op.myino (op.myino - op.startino + 1 - op.n.toUInt64)
    | .mkfle _ _ => tryReuseIno inoq op.myino 1
    | .mkdir _ _ => tryReuseIno inoq op.myino 1
    | _ => inoq

/-- The section under `mutex_` every operation ends with. -/
def leave (s : State) (op : Op) (st : Status) (p : Nat) : Option (State × Op) :=
  match s.table.release p with
  | none => none
  | some t =>
    some ({ s with table := t, inoq := giveBack op st s.inoq }, { op with dir := none, pc := .done st })

/-! ## Steps

The sections of an operation put together. `advance` is a match on where the operation has got
to; each section reads and writes the state, with a lock held or, for the puts and reads of the
db, without one, and this is where threads interleave. A thread that waits for a way has no step
while the way is busy. -/

/-- Change the block an operation references. -/
def onDir (s : State) (op : Op) (f : Dir → Op × Dir) : Option (State × Op) :=
  match op.dir with
  | none => none
  | some p =>
    match s.table.mem p with
    | none => none
    | some d => some ({ s with table := s.table.setDir p (f d).2 }, (f d).1)

/-- The next section of operation `i`. A thread waiting for a way that is busy
cannot go on. -/
def advance (s : State) (i : Nat) (op : Op) (e : Env) : Option (State × Op × List FsEvent) :=
  match op.pc with
  | .entered => (fs.acquire s op).map fun r => (r.1, r.2, [])
  | .acquired => some (s, fs.check op e.ts, [])
  | .checked => (onDir s op (fs.enter op)).map fun r => (r.1, r.2, [])
  | .waiting j =>
    if (op.dir.bind s.table.mem).any (fun d => d.busy j) then none
    else (onDir s op (fun d => lockFrom op d j)).map fun r => (r.1, r.2, [])
  | .running => (fs.run s op e).map fun r => (r.1, r.2.1, r.2.2.map (.pt i))
  | .putting name rest => (put s op name rest e).map fun r => (r.1, r.2.1, r.2.2.map (.pt i))
  | .reading =>
    match op.call.name? with
    | none => none
    | some name =>
      let r := fs.read s op name e
      some (s, r.1, r.2.map (.pt i))
  | .unlocking st =>
    (onDir s op fun d => ({ op with pc := .leaving st },
      { d with busy := unlockWays op.call.ways.1 op.call.ways.2 d.busy })).map
        fun r => (r.1, r.2, [])
  | .leaving st =>
    match op.dir with
    | none => none
    | some p => (leave s op st p).map fun r => (r.1, r.2, [.ret i (op.reply st)])
  | .done _ => none

/-- One step. -/
def step (s : State) : Label → Option (State × List FsEvent)
  | .call c stat => some ({ s with ops := s.ops ++ [Op.new c stat] }, [.inv s.ops.length c])
  | .advance i e =>
    match s.ops[i]? with
    | none => none
    | some op => (fs.advance s i op e).map fun r => ({ r.1 with ops := r.1.ops.set i r.2.1 }, r.2.2)

/-- A server that has just been opened on a db. -/
def start (db : Option Db) : State where
  inoq := 0
  table := DirTable.empty fs.options.dirLruSize
  db := db
  ops := []

/-- A server, opened on a db. -/
def system (db : Option Db) : TransitionSystem State Label FsEvent where
  init s := s = fs.start db
  step := fs.step

/-! ## What a step can do

`advance` is written as the source is, and `Move` as proofs need it: one rule for each way a
section can end, with its guards. `advance_move` is the only proof that opens `advance`. -/

variable {fs}

/-- `Next op op₁ name rest`: an operation that has its ways goes on with
`name`, as `op₁`. -/
inductive Next (op : Op) : Op → Slice → Slice → Prop where
  /-- a single create -/
  | single {name : Slice} :
      op.call.name? = some name → op.call.isLookup = false → Next op op name []
  /-- the next name of a batch -/
  | batch {namearr name rest : Slice} {mode n : UInt32} :
      op.call.req = .mkfls namearr mode n → nextName op = some (name, rest) →
      Next op op.setInodeNo name rest

/-- `Locked busy i k busy' j`: of the `k` ways from `i` on, those below `j` were
free and are locked now, and `j` is the first one that is busy, or the end. -/
structure Locked (busy : Nat → Bool) (i k : Nat) (busy' : Nat → Bool) (j : Nat) : Prop where
  le : i ≤ j
  le_end : j ≤ i + k
  free : ∀ w, i ≤ w → w < j → busy w = false
  locked : ∀ w, busy' w = true ↔ busy w = true ∨ i ≤ w ∧ w < j
  stop : j < i + k → busy j = true

/-- No way is locked when the first one is busy, or there is none. -/
theorem Locked.stay {busy : Nat → Bool} {i k : Nat} (hstop : i < i + k → busy i = true) :
    Locked busy i k busy i := by
  have hempty : ∀ w, ¬(i ≤ w ∧ w < i) := fun w h =>
    absurd (Nat.lt_of_le_of_lt h.1 h.2) (Nat.lt_irrefl i)
  refine ⟨Nat.le_refl i, Nat.le_add_right .., ?_, ?_, hstop⟩
  · intro w hw hw'
    exact absurd ⟨hw, hw'⟩ (hempty w)
  · intro w
    rw [or_iff_left (hempty w)]

theorem lockWays_locked (k : Nat) : ∀ (i : Nat) (busy : Nat → Bool),
    Locked busy i k (lockWays k i busy).2 (lockWays k i busy).1 := by
  induction k with
  | zero =>
    intro i busy
    exact Locked.stay fun h => absurd h (Nat.lt_irrefl i)
  | succ k ih =>
    intro i busy
    rw [lockWays]
    split
    · rename_i hb
      exact Locked.stay fun _ => hb
    · rename_i hb
      obtain ⟨hle, hend, hfree, hlocked, hstop⟩ := ih (i + 1) (Function.update busy i true)
      refine ⟨by omega, by omega, ?_, ?_, ?_⟩
      · intro w hw hw'
        by_cases hwi : w = i
        · rw [hwi]
          exact Bool.eq_false_of_not_eq_true hb
        · have h := hfree w (by omega) hw'
          rwa [Function.update_of_ne hwi] at h
      · intro w
        rw [hlocked]
        by_cases hwi : w = i
        · subst hwi
          rw [Function.update_self]
          exact iff_of_true (.inl rfl) (.inr ⟨Nat.le_refl w, by omega⟩)
        · rw [Function.update_of_ne hwi]
          exact or_congr_right ⟨fun h => ⟨by omega, h.2⟩, fun h => ⟨by omega, h.2⟩⟩
      · intro hj
        have h := hstop (by omega)
        rwa [Function.update_of_ne (by omega)] at h

/-- The read of `CheckAndPut` on `name`, by operation `op`. -/
def nameRead (fs : Filesystem) (s : State) (op : Op) (name : Slice) (e : Env) : Status :=
  (dbGet (fs.dbs s) op.call.dirId name e.faults op.stat).1

/-- **What a section of operation `i` can do** to the server and to the
operation, and the events it shows. -/
inductive Move (fs : Filesystem) (s : State) (i : Nat) (op : Op) (e : Env) :
    State → Op → List FsEvent → Prop where
  /-- acquire the control block, and inode numbers -/
  | acquire {t : DirTable} {p : Nat} : op.pc = .entered →
      s.table.acquireDir op.call.dirId = some (t, p) →
      Move fs s i op e { s with table := t, inoq := s.inoq + op.call.inos }
        { fs.reserve op (s.inoq + op.call.inos) with dir := some p, pc := .acquired } []
  /-- no valid lease, or no permission -/
  | refuse {st : Status} : op.pc = .acquired → fs.refusal op.call e.ts = some st →
      Move fs s i op e s { op with pc := .leaving st } []
  /-- the checks pass -/
  | pass : op.pc = .acquired → fs.refusal op.call e.ts = none →
      Move fs s i op e s { op with pc := .checked } []
  /-- the name is in another partition -/
  | misplaced {p : Nat} {d : Dir} : op.pc = .checked → op.dir = some p →
      s.table.mem p = some d →
      fs.isPartitionOk op.call (fs.gigaOf (fs.maybeFetchDir d)) = false →
      Move fs s i op e { s with table := s.table.setDir p (fs.maybeFetchDir d) }
        { op with pc := .leaving (.err .accessDenied (str "Wrong dir partition")) } []
  /-- a lookup goes on without locking -/
  | enterRead {p : Nat} {d : Dir} : op.pc = .checked → op.dir = some p →
      s.table.mem p = some d →
      fs.isPartitionOk op.call (fs.gigaOf (fs.maybeFetchDir d)) = true →
      op.call.isLookup = true →
      Move fs s i op e { s with table := s.table.setDir p (fs.maybeFetchDir d) }
        { op with pc := .reading } []
  /-- lock the first ways -/
  | lockFirst {p : Nat} {d : Dir} {busy : Nat → Bool} {j : Nat} : op.pc = .checked →
      op.dir = some p → s.table.mem p = some d →
      fs.isPartitionOk op.call (fs.gigaOf (fs.maybeFetchDir d)) = true →
      op.call.isLookup = false →
      Locked d.busy op.call.ways.1 (op.call.ways.2 - op.call.ways.1) busy j →
      Move fs s i op e
        { s with table := s.table.setDir p { fs.maybeFetchDir d with busy := busy } }
        { op with pc := if j = op.call.ways.2 then .running else .waiting j } []
  /-- lock more ways -/
  | lockMore {p : Nat} {d : Dir} {k : Nat} {busy : Nat → Bool} {j : Nat} : op.pc = .waiting k →
      op.dir = some p → s.table.mem p = some d → d.busy k = false →
      Locked d.busy k (op.call.ways.2 - k) busy j →
      Move fs s i op e { s with table := s.table.setDir p { d with busy := busy } }
        { op with pc := if j = op.call.ways.2 then .running else .waiting j } []
  /-- a bulk insertion -/
  | bulk {tableDir : Slice} {db : Db} : op.pc = .running → op.call.req = .bukin tableDir →
      s.db = some db → Move fs s i op e { s with db := some e.bulk.2 } (stop op e.bulk.1) []
  /-- a batch runs out of names -/
  | finish {namearr : Slice} {mode n : UInt32} : op.pc = .running →
      op.call.req = .mkfls namearr mode n → nextName op = none →
      Move fs s i op e s (stop op .ok) []
  /-- the name exists -/
  | collide {op₁ : Op} {name rest : Slice} : op.pc = .running → Next op op₁ name rest →
      fs.options.skipNameCollisionChecks = false → nameRead fs s op₁ name e = .ok →
      Move fs s i op e s (stop op₁ (.err .alreadyExists name)) [.pt i (.collided op.call.dirId name)]
  /-- the read fails -/
  | fail {op₁ : Op} {name rest : Slice} : op.pc = .running → Next op op₁ name rest →
      nameRead fs s op₁ name e ≠ .ok → (nameRead fs s op₁ name e).isNotFound = false →
      Move fs s i op e s (stop op₁ (nameRead fs s op₁ name e)) []
  /-- the name can be put -/
  | clear {op₁ : Op} {name rest : Slice} : op.pc = .running → Next op op₁ name rest →
      (fs.options.skipNameCollisionChecks = false →
        (nameRead fs s op₁ name e).isNotFound = true) →
      Move fs s i op e s { op₁ with pc := .putting name rest } []
  /-- the put succeeds -/
  | put {name rest : Slice} {db : Db} : op.pc = .putting name rest → s.db = some db →
      Move fs s i op e
        { s with db := some (Function.update db (entryKey op.call.dirId name) (some op.stat.encodeTo)) }
        (putDone op rest) [.pt i (.created op.call.dirId name op.stat)]
  /-- the put fails -/
  | putFail {name rest msg : Slice} {db : Db} : op.pc = .putting name rest → s.db = some db →
      e.putFault = some msg → Move fs s i op e s (stop op (.err .ioError msg)) []
  /-- a lookup reads -/
  | read {name : Slice} : op.pc = .reading → op.call.name? = some name →
      Move fs s i op e s (fs.read s op name e).1 ((fs.read s op name e).2.map (.pt i))
  /-- give the ways back -/
  | unlock {st : Status} {p : Nat} {d : Dir} : op.pc = .unlocking st → op.dir = some p →
      s.table.mem p = some d →
      Move fs s i op e
        { s with
          table := s.table.setDir p
            { d with busy := unlockWays op.call.ways.1 op.call.ways.2 d.busy } }
        { op with pc := .leaving st } []
  /-- give numbers and the block back, and return -/
  | leave {st : Status} {p : Nat} {t : DirTable} : op.pc = .leaving st → op.dir = some p →
      s.table.release p = some t →
      Move fs s i op e { s with table := t, inoq := giveBack op st s.inoq }
        { op with dir := none, pc := .done st } [.ret i (op.reply st)]

/-- A section that works on the operation's block finds it. -/
theorem onDir_eq_some {s s' : State} {op op' : Op} {f : Dir → Op × Dir}
    (h : onDir s op f = some (s', op')) :
    ∃ p d, op.dir = some p ∧ s.table.mem p = some d ∧ op' = (f d).1 ∧
      s' = { s with table := s.table.setDir p (f d).2 } := by
  rw [onDir] at h
  split at h
  · cases h
  rename_i p hp
  split at h
  · cases h
  rename_i d hd
  cases h
  exact ⟨p, d, hp, hd, rfl, rfl⟩

/-- The section that locks the first ways. -/
theorem enter_move {s s' : State} {i : Nat} {op op' : Op} {e : Env} (hpc : op.pc = .checked)
    (h : onDir s op (fs.enter op) = some (s', op')) : Move fs s i op e s' op' [] := by
  obtain ⟨p, d, hp, hd, rfl, rfl⟩ := onDir_eq_some h
  simp only [enter]
  split
  · rename_i hok
    split
    · rename_i hlook
      exact .enterRead hpc hp hd hok hlook
    · rename_i hlook
      have hbusy : (fs.maybeFetchDir d).busy = d.busy := by
        rw [maybeFetchDir]
        split <;> rfl
      have hlocked := lockWays_locked (op.call.ways.2 - op.call.ways.1) op.call.ways.1 d.busy
      rw [← hbusy] at hlocked
      refine .lockFirst hpc hp hd hok (Bool.eq_false_of_not_eq_true hlook) ?_
      rw [hbusy] at hlocked ⊢
      exact hlocked
  · rename_i hok
    exact .misplaced hpc hp hd (Bool.eq_false_of_not_eq_true hok)

/-- The read of `CheckAndPut`. -/
theorem checkName_move {s : State} {i : Nat} {op op₁ : Op} {name rest : Slice} {e : Env}
    (hpc : op.pc = .running) (hn : Next op op₁ name rest) :
    Move fs s i op e s (fs.checkName s op₁ name rest e).1
      ((fs.checkName s op₁ name rest e).2.map (.pt i)) := by
  have hid : op₁.call = op.call := by
    cases hn <;> rfl
  rw [checkName]
  split
  · rename_i hskip
    exact .clear hpc hn fun h => by rw [hskip] at h; cases h
  rename_i hskip
  dsimp only
  split
  · rename_i hok
    rw [hid]
    exact .collide hpc hn (Bool.eq_false_of_not_eq_true hskip) (Status.isOk_iff.mp hok)
  rename_i hok
  split
  · rename_i hnf
    exact .clear hpc hn fun _ => hnf
  · rename_i hnf
    exact .fail hpc hn (fun h => hok (Status.isOk_iff.mpr h)) (Bool.eq_false_of_not_eq_true hnf)

/-- **Every section is a move.** One case for each place an operation can be at, in the
order of the source. -/
theorem advance_move {s s' : State} {i : Nat} {op op' : Op} {e : Env} {es : List FsEvent}
    (h : fs.advance s i op e = some (s', op', es)) : Move fs s i op e s' op' es := by
  rw [advance] at h
  split at h
  -- `AcquireDir`: the one section that may find the index too busy
  case h_1 hpc =>
    obtain ⟨⟨s₁, op₁⟩, ha, heq⟩ := Option.map_eq_some_iff.mp h
    cases heq
    rw [acquire] at ha
    split at ha
    · cases ha
    · rename_i t p hacq
      cases ha
      exact .acquire hpc hacq
  -- the checks of lease and permissions
  case h_2 hpc =>
    cases h
    rw [check]
    split
    · rename_i st hst
      exact .refuse hpc hst
    · rename_i hst
      exact .pass hpc hst
  -- under the directory's mutex: the partition test, then the first way
  case h_3 hpc =>
    obtain ⟨⟨s₁, op₁⟩, ha, heq⟩ := Option.map_eq_some_iff.mp h
    cases heq
    exact enter_move hpc ha
  -- a bulk call taking the remaining ways, one a section
  case h_4 k hpc =>
    split at h
    · cases h
    rename_i hfree
    obtain ⟨⟨s₁, op₁⟩, ha, heq⟩ := Option.map_eq_some_iff.mp h
    cases heq
    obtain ⟨p, d, hp, hd, rfl, rfl⟩ := onDir_eq_some ha
    rw [hp, Option.bind_some, hd, Option.any_some] at hfree
    exact .lockMore hpc hp hd (Bool.eq_false_of_not_eq_true hfree) (lockWays_locked ..)
  -- the body of the call, one name at a time for a batch
  case h_5 hpc =>
    obtain ⟨⟨s₁, op₁, ts⟩, ha, heq⟩ := Option.map_eq_some_iff.mp h
    cases heq
    rw [run] at ha
    split at ha
    · rename_i tableDir hreq
      obtain ⟨db, hdb, heq⟩ := Option.map_eq_some_iff.mp ha
      cases heq
      exact .bulk hpc hreq hdb
    · rename_i namearr mode n hreq
      split at ha
      · rename_i hnext
        cases ha
        exact .finish hpc hreq hnext
      · rename_i name rest hnext
        obtain ⟨rfl, hc⟩ := Prod.mk.inj (Option.some.inj ha)
        have hm : Move fs s i op e _ _ _ := checkName_move hpc (.batch hreq hnext)
        rwa [hc] at hm
    · rename_i name mode hreq
      obtain ⟨rfl, hc⟩ := Prod.mk.inj (Option.some.inj ha)
      have hm : Move fs s i op e _ _ _ := checkName_move hpc
        (.single (by rw [Call.name?, hreq]) (by rw [Call.isLookup, hreq]))
      rwa [hc] at hm
    · rename_i name mode hreq
      obtain ⟨rfl, hc⟩ := Prod.mk.inj (Option.some.inj ha)
      have hm : Move fs s i op e _ _ _ := checkName_move hpc
        (.single (by rw [Call.name?, hreq]) (by rw [Call.isLookup, hreq]))
      rwa [hc] at hm
    · cases ha
  -- the record of the name just checked is written
  case h_6 name rest hpc =>
    obtain ⟨⟨s₁, op₁, ts⟩, ha, heq⟩ := Option.map_eq_some_iff.mp h
    cases heq
    rw [Filesystem.put] at ha
    split at ha
    · cases ha
    rename_i db hdb
    rcases hfault : e.putFault with _ | msg
    · rw [hfault] at ha
      cases ha
      exact .put hpc hdb
    · rw [hfault] at ha
      cases ha
      exact .putFail hpc hdb hfault
  -- `Lokup1` and `Lstat1` read
  case h_7 hpc =>
    split at h
    · cases h
    · rename_i name hname
      cases h
      exact .read hpc hname
  -- the ways are given back, then the partition
  case h_8 st hpc =>
    obtain ⟨⟨s₁, op₁⟩, ha, heq⟩ := Option.map_eq_some_iff.mp h
    cases heq
    obtain ⟨p, d, hp, hd, rfl, rfl⟩ := onDir_eq_some ha
    exact .unlock hpc hp hd
  case h_9 st hpc =>
    split at h
    · cases h
    rename_i p hp
    obtain ⟨⟨s₁, op₁⟩, ha, heq⟩ := Option.map_eq_some_iff.mp h
    cases heq
    rw [Filesystem.leave] at ha
    split at ha
    · cases ha
    · rename_i t hrel
      cases ha
      exact .leave hpc hp hrel
  case h_10 => cases h

/-- **What a step can do**: a new operation arrives, or one moves. This is the inversion
lemma that every invariant starts from. -/
theorem step_cases {s s' : State} {l : Label} {es : List FsEvent} (h : fs.step s l = some (s', es)) :
    (∃ c stat, l = .call c stat ∧ s' = { s with ops := s.ops ++ [Op.new c stat] } ∧
      es = [.inv s.ops.length c]) ∨
    ∃ i e op s₁ op', l = .advance i e ∧ s.ops[i]? = some op ∧ Move fs s i op e s₁ op' es ∧
      s' = { s₁ with ops := s₁.ops.set i op' } := by
  cases l with
  | call c stat =>
    cases h
    exact .inl ⟨c, stat, rfl, rfl, rfl⟩
  | advance i e =>
    rw [step] at h
    split at h
    · cases h
    · rename_i op hop
      obtain ⟨⟨s₁, op', es'⟩, ha, heq⟩ := Option.map_eq_some_iff.mp h
      cases heq
      exact .inr ⟨i, e, op, s₁, op', rfl, hop, advance_move ha, rfl⟩

end Filesystem

end DeltaFs
