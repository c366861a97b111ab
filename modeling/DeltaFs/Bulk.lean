import DeltaFs.Identity
import Mathlib.Data.List.Induction

/-!
# What a bulk commit hands over

The handles for bulk insertion a client opens, fills, commits and abandons, one
call after the other. A handle belongs to a bulk context, which has a db for each
server, at a path made of the context's number, the directory and the server.
The db is made when it is first needed, after whatever is there has been
destroyed, and is closed and handed over by the commit. Later contexts use the
same paths again.

`World.Apart` is what the paths and the lives of contexts must be like;
`Sound` is the invariant, and `commit_exact` what a commit hands over.

A call works on the db and the path of one server at a time, and leaves those of the others
alone (`bukin1_set`); contexts are apart if their paths are. So the invariant is about one
context and one server, and is kept by the calls of all contexts at once (`Sound.call`).
-/

namespace DeltaFs

namespace Bulk

open TransitionSystem

/-! ## Paths

The location of a db is printed into a path: the number of the context, the directory and the
server. `bkid` is a buffer of 50 bytes, and what does not fit is cut off, so that two contexts
may come to have one path. Which numbers and directories are printed apart is a question of its
own, and is a hypothesis here (`DistinctPaths`). -/

/-- `%llu`. -/
def decimal (n : Nat) : Slice := (Nat.toDigits 10 n).map fun c => UInt8.ofNat c.toNat

/-- `%d`. -/
def signed : Int → Slice
  | .ofNat n => decimal n
  | .negSucc n => str "-" ++ decimal (n + 1)

/-- What `snprintf` puts into `bkid[50]`. -/
def bkidOf (bkid : Int) (dir : DirId) (i : Nat) : Slice :=
  (str "/b" ++ signed bkid ++ str "-" ++ decimal dir.dno.toNat ++ str "-" ++
    decimal dir.ino.toNat ++ str "-" ++ decimal i).take 49

/-! ## Dbs and their locations

What is at a path is either files nobody here has made, or what context `k` has flushed there.
The distinction is needed for one reason only: a context whose files have been taken away by
another one goes on with a db that is open, and what a flush then leaves is anybody's guess
(`torn`). How each call on a db turns out is part of the label of the step, so that all runs are
considered. -/

/-- What there is at a path. -/
inductive Location where
  | nothing
  /-- files some db has left -/
  | files (db : Db)
  /-- the files of the db bulk context `k` has made there: what it has flushed -/
  | made (k : Nat) (db : Db)

/-- What a reader of the path finds. -/
def Location.contents : Location → Db
  | .nothing => fun _ => none
  | .files db => db
  | .made _ db => db

/-- What is left at a path, `none` for nothing. -/
def Location.left : Option Db → Location
  | none => .nothing
  | some db => .files db

/-- `BukDb`. -/
structure OpenDb where
  /-- whether `Open` succeeded -/
  opened : Bool
  /-- what has been put -/
  content : Db

/-- How the calls on a db and a path, and the server, turn out. -/
structure Env where
  /-- what `DestroyDb` leaves -/
  left : Option Db
  opening : Status
  putting : Status
  flushing : Status
  /-- what a flush leaves of a db whose files have been destroyed meanwhile -/
  torn : Db
  reply : Status
  /-- what is there when the db has been closed, or has failed to open -/
  closed : Option Db

/-- What `Bukin2` hands to a server. -/
structure Handed where
  srv : Nat
  dir : Slice
  me : User
  /-- what is there -/
  db : Db

/-- A db that is opened where there is one already fails to: `error_if_exists`. -/
def Env.openStatus (e : Env) : Status :=
  if e.left.isSome && e.opening.isOk then .err .alreadyExists [] else e.opening

/-- The first part of `Bukin1`, of context `k`. -/
def openDb (k : Nat) (e : Env) (l : Location) (d : Option OpenDb) : Status × Location × OpenDb :=
  match d with
  | some d => (.ok, l, d)
  | none =>
    if e.openStatus.isOk then (.ok, .made k fun _ => none, ⟨true, fun _ => none⟩)
    else (e.openStatus, .left e.closed, ⟨false, fun _ => none⟩)

/-- `BukDb::Put`, when the name is not empty; `none` on a db that could not be
opened. -/
def OpenDb.put (d : OpenDb) (id : DirId) (name : Slice) (stat : Stat) (e : Env) :
    Option (Status × OpenDb) :=
  if name = [] then some (.ok, d)
  else if !d.opened then none
  else if e.putting.isOk then some (e.putting, { d with content := (d.content.put id name stat none).2 })
  else some (e.putting, d)

/-- What a flush of a db of context `k` makes of its path. -/
def Location.flushed (l : Location) (k : Nat) (content : Db) (e : Env) : Location :=
  match l with
  | .made k' _ => if k' = k then .made k content else .files e.torn
  | _ => .files e.torn

/-! ## Contexts

A context is made with the first handle of a lease and shared by the later ones. It has a place
for one db a server, a status that keeps the first error, and the commit status. `World` has all
contexts ever made, the dead ones too, since their files may still be there. -/

/-- `BulkInserts`, with the lease and the client context it is used with. -/
structure Inserts where
  handle : Handle
  /-- `ctx->bkid` -/
  bkid : Int
  /-- `ctx->bkrt` -/
  bkrt : Slice
  /-- `uint32_t`: of fewer than 2^32 handles at once -/
  refs : Nat
  commitStatus : CommitStatus
  bgStatus : Status
  /-- `bulks` -/
  dbs : Nat → Option OpenDb

namespace Inserts

/-- `CreateBulkContext`, and the handle it is for. -/
def new (h : Handle) (bkid : Int) (bkrt : Slice) : Inserts :=
  ⟨h, bkid, bkrt, 1, .notCommitted, .ok, fun _ => none⟩

/-- `dbloc`. -/
def loc (c : Inserts) (i : Nat) : Slice := c.bkrt ++ bkidOf c.bkid c.handle.parent.dirId i

/-- The server of a name. -/
def route (c : Inserts) (name : Slice) : Nat := c.handle.servers.select name

/-- An error of the context is kept if it is the first. -/
def setBg (c : Inserts) (st : Status) : Inserts :=
  { c with bgStatus := if !st.isOk && c.bgStatus.isOk then st else c.bgStatus }

end Inserts

/-- The paths, and the contexts made so far. -/
structure World where
  locs : Slice → Location
  ctxs : List Inserts

/-- What happens next. -/
inductive Label where
  /-- `BulkInit`, with a context of its own -/
  | create (h : Handle) (bkid : Int) (bkrt : Slice)
  /-- `BulkInit`, with the context of a lease that is there -/
  | share (k : Nat)
  /-- `BulkInsert` -/
  | insert (k : Nat) (name : Slice) (e : Env)
  /-- `BulkCommit`; `e` says how it turns out at each server -/
  | commit (k : Nat) (e : Nat → Env)
  /-- `Destroy` -/
  | destroy (k : Nat) (e : Nat → Env)

/-- What calls return, and what is handed to servers meanwhile. -/
inductive Event where
  | insert (k : Nat) (name : Slice) (st : Status)
  | commit (k : Nat) (st : Status) (handed : List Handed)

/-! ## Calls

The calls run one after the other, each with the context and the paths as the last one has left
them. `BulkCommit` goes through the servers in turn and stops at the first failure; what has
been handed over by then stays handed over. -/

/-- What a call on a context can change: the paths and the context. -/
abbrev Spot : Type := (Slice → Location) × Inserts

/-- Server `i` of a context is left with `l` at its path, and `d`. -/
def Spot.set (s : Spot) (i : Nat) (l : Location) (d : Option OpenDb) : Spot :=
  (Function.update s.1 (s.2.loc i) l, { s.2 with dbs := Function.update s.2.dbs i d })

/-- The last part of `Bukin1`: flush, close, and hand the db over. -/
def flush (k i : Nat) (e : Env) (s : Spot) (l : Location) (d : OpenDb) :
    Option (Status × Spot × List Handed) :=
  if !d.opened then none
  else if e.flushing.isOk then
    let l := l.flushed k d.content e
    if !isDirWriteOk s.2.handle.skipPermChecks s.2.handle.parent s.2.handle.who then
      some (.err .accessDenied (str "No write perm"), s.set i (.left e.closed) none, [])
    else
      some (e.reply, s.set i (.left e.closed) none, [⟨i, s.2.loc i, s.2.handle.who, l.contents⟩])
  else some (e.flushing, s.set i l (some d), [])

/-- `Bukin1`, of context `k`. -/
def bukin1 (k : Nat) (name : Slice) (force : Bool) (i : Nat) (e : Env) (s : Spot) :
    Option (Status × Spot × List Handed) :=
  let (st, l, d) := openDb k e (s.1 (s.2.loc i)) (s.2.dbs i)
  if st.isOk then
    match d.put s.2.handle.parent.dirId name s.2.handle.bulkStat e with
    | none => none
    | some (st, d) =>
      if st.isOk && force then flush k i e s l d else some (st, s.set i l (some d), [])
  else some (st, s.set i l (some d), [])

/-- `BulkInsert`. -/
def bulkInsert (k : Nat) (name : Slice) (e : Env) (s : Spot) : Option (Spot × List Event) :=
  if s.2.commitStatus ≠ .notCommitted then
    some (s, [.insert k name (.err .assertionFailed (str "Already committed"))])
  else if !s.2.bgStatus.isOk then some (s, [.insert k name s.2.bgStatus])
  else
    (bukin1 k name false (s.2.route name) e s).map fun r =>
      ((r.2.1.1, r.2.1.2.setBg r.1), [.insert k name r.1])

/-- The loop of `BulkCommit`, from server `i` on; `n` servers are left. -/
def commitFrom (k : Nat) (e : Nat → Env) : Nat → Nat → Spot → Option (Status × Spot × List Handed)
  | 0, _, s => some (.ok, s, [])
  | n + 1, i, s =>
    match bukin1 k [] true i (e i) s with
    | none => none
    | some (st, s, handed) =>
      if st.isOk then
        (commitFrom k e n (i + 1) s).map fun r => (r.1, r.2.1, handed ++ r.2.2)
      else some (st, s, handed)

/-- `BulkCommit`. No other call runs meanwhile. -/
def bulkCommit (k : Nat) (e : Nat → Env) (s : Spot) : Option (Spot × List Event) :=
  if s.2.commitStatus = .beingCommitted then
    some (s, [.commit k (.err .assertionFailed (str "Bulk context is being committed")) []])
  else if s.2.commitStatus = .committed || !s.2.bgStatus.isOk then
    some (s, [.commit k s.2.bgStatus []])
  else
    (commitFrom k e s.2.handle.srvs 0 s).map fun r =>
      ((r.2.1.1, { r.2.1.2.setBg r.1 with commitStatus := .committed }), [.commit k r.1 r.2.2])

/-- A context is deleted, with its dbs. -/
def close (e : Nat → Env) (s : Spot) : Spot :=
  ((List.range s.2.handle.srvs).foldl
      (fun locs i =>
        if (s.2.dbs i).isSome then Function.update locs (s.2.loc i) (.left (e i).closed) else locs)
      s.1,
    { s.2 with dbs := fun _ => none })

/-- `Destroy`. -/
def destroy (e : Nat → Env) (s : Spot) : Spot :=
  let s : Spot := (s.1, { s.2 with refs := s.2.refs - 1 })
  if s.2.refs = 0 then close e s else s

namespace World

/-- A call on context `k`, which has a handle. -/
def on (w : World) (k : Nat) (f : Spot → Option (Spot × List Event)) :
    Option (World × List Event) :=
  match w.ctxs[k]? with
  | none => none
  | some c =>
    if c.refs = 0 then none
    else (f (w.locs, c)).map fun r => (⟨r.1.1, w.ctxs.set k r.1.2⟩, r.2)

/-- One call. -/
def step (w : World) : Label → Option (World × List Event)
  | .create h bkid bkrt => some ({ w with ctxs := w.ctxs ++ [.new h bkid bkrt] }, [])
  | .share k => w.on k fun s => some ((s.1, { s.2 with refs := s.2.refs + 1 }), [])
  | .insert k name e => w.on k (bulkInsert k name e)
  | .commit k e => w.on k (bulkCommit k e)
  | .destroy k e => w.on k fun s => some (destroy e s, [])

end World

/-- Clients that start with files of any kind at any path. -/
def bulks (locs : Slice → Location) : TransitionSystem World Label Event where
  init w := w = ⟨locs, []⟩
  step := World.step

/-! ## Which histories

What is at a path is destroyed when another context opens its db there, so contexts for the same
number and directory must not overlap. A context that has no handle any more, or has been
committed with OK, is out of the way: it will not write again. -/

namespace Inserts

/-- Distinct numbers, directories and servers have distinct paths. -/
def DistinctPaths (c c' : Inserts) : Prop :=
  ∀ i < c.handle.srvs, ∀ j < c'.handle.srvs, c.loc i = c'.loc j →
    c.bkid = c'.bkid ∧ c.handle.parent.dirId = c'.handle.parent.dirId ∧ i = j

/-- A context with a handle that may still write at its paths. -/
def Active (c : Inserts) : Prop := c.refs ≠ 0 ∧ ¬ (c.commitStatus = .committed ∧ c.bgStatus = .ok)

/-- Two contexts are for one number and directory. -/
def SamePlace (c c' : Inserts) : Prop :=
  c.bkid = c'.bkid ∧ c.handle.parent.dirId = c'.handle.parent.dirId

end Inserts

/-- A context is made when no other one for its number and directory may still
write, and the paths tell contexts apart. -/
def World.Apart (w : World) : Label → Prop
  | .create h bkid bkrt =>
    (Inserts.new h bkid bkrt).DistinctPaths (Inserts.new h bkid bkrt) ∧
      ∀ c ∈ w.ctxs, (Inserts.new h bkid bkrt).DistinctPaths c ∧
        (c.Active → ¬ (Inserts.new h bkid bkrt).SamePlace c)
  | _ => True

/-! ## The invariant

For a context that may still write, each open db holds exactly the entries of the names that
have been inserted for its server, and if one is open its files are at its path. For the others
nothing is said of their files. `inserted` reads the names off the events, so the invariant ties
the state to the history. -/

/-- The names inserted into a context for server `i`, by calls that returned
OK. -/
def inserted (evs : List Event) (k : Nat) (c : Inserts) (i : Nat) : List Slice :=
  evs.flatMap fun
    | .insert k' name .ok => if k' = k ∧ c.route name = i then nonEmpty name else []
    | _ => []

/-- The db of these names. -/
def contentOf (c : Inserts) (names : List Slice) : Db :=
  names.foldl (fun db name => (db.put c.handle.parent.dirId name c.handle.bulkStat none).2)
    fun _ => none

/-- What context `k` has for server `i` holds `names`. -/
def Holds (k i : Nat) (s : Spot) (names : List Slice) : Prop :=
  match s.2.dbs i with
  | none => names = []
  | some d => d.opened = true ∧ (∃ db, s.1 (s.2.loc i) = .made k db) ∧ d.content = contentOf s.2 names

/-- The invariant of context `k`. -/
structure Filled (evs : List Event) (k : Nat) (s : Spot) : Prop where
  filling : s.2.refs ≠ 0 → s.2.commitStatus = .notCommitted → s.2.bgStatus = .ok →
    ∀ i < s.2.handle.srvs, Holds k i s (inserted evs k s.2 i)
  closed : s.2.commitStatus = .committed → s.2.bgStatus = .ok → ∀ i < s.2.handle.srvs, s.2.dbs i = none
  fresh : s.2.commitStatus = .notCommitted → ∀ handed, .commit k .ok handed ∉ evs
  first : s.2.commitStatus = .committed → s.2.bgStatus = .ok → ∃ handed, .commit k .ok handed ∈ evs
  calm : s.2.commitStatus ≠ .beingCommitted
  own : ∀ i < s.2.handle.srvs, ∀ j < s.2.handle.srvs, s.2.loc i = s.2.loc j → i = j

/-- The context an event is about. -/
def Event.ctx : Event → Nat
  | .insert k _ _ => k
  | .commit k _ _ => k

/-- The invariant of the world. -/
structure Sound (evs : List Event) (w : World) : Prop where
  filled : ∀ {k : Nat} {c : Inserts}, w.ctxs[k]? = some c → Filled evs k (w.locs, c)
  apart : ∀ {k k' : Nat} {c c' : Inserts}, w.ctxs[k]? = some c → w.ctxs[k']? = some c' → k ≠ k' → c.Active →
    c'.Active → ∀ i < c.handle.srvs, ∀ j < c'.handle.srvs, c.loc i ≠ c'.loc j
  scope : ∀ ev ∈ evs, ev.ctx < w.ctxs.length

variable {k i : Nat} {e : Env} {s s' : Spot} {st : Status} {handed : List Handed} {names : List Slice}
  {name : Slice} {force : Bool}

/-! ## One server

What `Bukin1` does for one server: a name adds one entry, a flush hands over what is there, and
the other servers' dbs and paths are as they were. All later lemmas use these three and never
look into the function again. -/

@[simp] theorem Spot.set_handle (s : Spot) (i : Nat) (l : Location) (d : Option OpenDb) :
    (s.set i l d).2.handle = s.2.handle := rfl

@[simp] theorem Spot.set_loc (s : Spot) (i j : Nat) (l : Location) (d : Option OpenDb) :
    (s.set i l d).2.loc j = s.2.loc j := rfl

@[simp] theorem Spot.set_db (s : Spot) (i : Nat) (l : Location) (d : Option OpenDb) :
    (s.set i l d).2.dbs i = d := Function.update_self ..

/-- What returns OK has not failed before. -/
theorem returned_ok {α : Type} {P : Prop} {x y : α} (h : some (st, x) = some (.ok, y))
    (hno : ¬st.isOk = true) : P :=
  absurd (Status.isOk_iff.mpr (Prod.mk.inj (Option.some.inj h)).1) hno

/-- **`Bukin1` touches one server's db and path.** So calls of different contexts, or on
different servers, do not interfere unless their paths do. -/
theorem bukin1_set (h : bukin1 k name force i e s = some (st, s', handed)) :
    ∃ l d, s' = s.set i l d := by
  simp only [bukin1] at h
  split at h
  · split at h
    · cases h
    · split at h
      · rw [flush] at h
        split at h
        · cases h
        · split at h
          · dsimp only at h
            split at h <;> cases h <;> exact ⟨_, _, rfl⟩
          · cases h
            exact ⟨_, _, rfl⟩
      · cases h
        exact ⟨_, _, rfl⟩
  · cases h
    exact ⟨_, _, rfl⟩

/-- **A db is opened empty.** Whatever `DestroyDb` leaves, the db that is opened has no
records: if files are left, the opening fails. -/
theorem openDb_spec (h : Holds k i s names)
    (hok : (openDb k e (s.1 (s.2.loc i)) (s.2.dbs i)).1 = .ok) :
    (openDb k e (s.1 (s.2.loc i)) (s.2.dbs i)).2.2.opened = true ∧
      (∃ db, (openDb k e (s.1 (s.2.loc i)) (s.2.dbs i)).2.1 = .made k db) ∧
      (openDb k e (s.1 (s.2.loc i)) (s.2.dbs i)).2.2.content = contentOf s.2 names := by
  rw [Holds] at h
  cases hd : s.2.dbs i with
  | some d =>
    rw [hd] at h
    exact h
  | none =>
    -- nothing has been inserted for the server yet, and `DestroyDb` has cleared the path
    rw [hd] at h
    rw [hd, openDb] at hok
    rw [openDb]
    split at hok
    · rename_i hopen
      rw [if_pos hopen, h]
      exact ⟨rfl, ⟨_, rfl⟩, rfl⟩
    · rename_i hopen
      exact absurd (Status.isOk_iff.mpr hok) hopen

/-- A put that succeeds adds the name. -/
theorem OpenDb.put_spec {d d' : OpenDb} {c : Inserts} (hd : d.opened = true)
    (hcontent : d.content = contentOf c names)
    (h : d.put c.handle.parent.dirId name c.handle.bulkStat e = some (st, d')) :
    d'.opened = true ∧ (st = .ok → d'.content = contentOf c (names ++ nonEmpty name)) := by
  rw [OpenDb.put] at h
  split at h
  · rename_i hnil
    cases h
    rw [hnil]
    refine ⟨hd, fun _ => ?_⟩
    rw [show nonEmpty [] = [] from rfl, List.append_nil]
    exact hcontent
  · rename_i hne
    rw [hd] at h
    simp only [Bool.not_true, Bool.false_eq_true, if_false] at h
    split at h
    · cases h
      refine ⟨rfl, fun _ => ?_⟩
      rw [nonEmpty, if_neg hne, contentOf, List.foldl_append]
      dsimp only
      rw [hcontent]
      rfl
    · rename_i hno
      cases h
      exact ⟨hd, fun hok => absurd (Status.isOk_iff.mpr hok) hno⟩

/-- A `Bukin1` that succeeds has opened the db and put the name. -/
theorem bukin1_put {force : Bool} (hh : Holds k i s names)
    (h : bukin1 k name force i e s = some (.ok, s', handed)) :
    ∃ db st d, d.opened = true ∧ (st = .ok → d.content = contentOf s.2 (names ++ nonEmpty name)) ∧
      (if st.isOk && force then flush k i e s (.made k db) d
        else some (st, s.set i (.made k db) (some d), [])) = some (.ok, s', handed) := by
  simp only [bukin1] at h
  split at h
  · rename_i hok
    obtain ⟨hopen, ⟨db, hl⟩, hcontent⟩ := openDb_spec hh (Status.isOk_iff.mp hok)
    rw [hl] at h
    split at h
    · cases h
    · rename_i st d hput
      obtain ⟨hopen', hcontent'⟩ := OpenDb.put_spec hopen hcontent hput
      exact ⟨db, st, d, hopen', hcontent', h⟩
  · rename_i hno
    exact returned_ok h hno

/-- **An insert that succeeds** adds the name for its server. It opens the db when it is
the first, destroying what was at the path, and writes the record with the stat of the
context. -/
theorem bukin1_insert (hh : Holds k i s names)
    (h : bukin1 k name false i e s = some (.ok, s', handed)) :
    Holds k i s' (names ++ nonEmpty name) := by
  obtain ⟨db, st, d, hopen, hcontent, h⟩ := bukin1_put hh h
  -- an insert does not flush
  rw [Bool.and_false] at h
  cases h
  rw [Holds, Spot.set_db]
  refine ⟨hopen, ⟨db, ?_⟩, hcontent rfl⟩
  rw [Spot.set_loc]
  exact Function.update_self ..

/-- **A commit that succeeds** hands over the db with the names, and closes it. The db is
closed before the server hears of it, and is what was flushed. -/
theorem bukin1_commit (hh : Holds k i s names)
    (h : bukin1 k [] true i e s = some (.ok, s', handed)) :
    handed = [⟨i, s.2.loc i, s.2.handle.who, contentOf s.2 names⟩] ∧ s'.2.dbs i = none := by
  obtain ⟨db, st, d, hopen, hcontent, h⟩ := bukin1_put hh h
  rw [Bool.and_true] at h
  split at h
  · rename_i hst
    have hcontent := hcontent (Status.isOk_iff.mp hst)
    rw [show nonEmpty [] = [] from rfl, List.append_nil] at hcontent
    rw [flush, hopen] at h
    simp only [Bool.not_true, Bool.false_eq_true, if_false] at h
    split at h
    · split at h
      · cases h
      · obtain ⟨-, h⟩ := Prod.mk.inj (Option.some.inj h)
        obtain ⟨rfl, rfl⟩ := Prod.mk.inj h
        refine ⟨?_, Spot.set_db ..⟩
        rw [Location.flushed, if_pos rfl, hcontent]
        rfl
    · rename_i hno
      exact returned_ok h hno
  · rename_i hno
    exact returned_ok h hno

/-! ## All servers

A commit is the flush of each server in turn. The part of the invariant about server `i` is used
once, when its turn comes, and is not disturbed by the others, because the paths of different
servers are different. -/

/-- What a commit of the context should hand over. -/
def Inserts.due (c : Inserts) (evs : List Event) (k : Nat) : List Handed :=
  (List.range c.handle.srvs).map fun i =>
    ⟨i, c.loc i, c.handle.who, contentOf c (inserted evs k c i)⟩

/-- Only dbs of the context, and its own paths, are written. -/
structure Writes (s s' : Spot) : Prop where
  ctx : ∃ dbs, s'.2 = { s.2 with dbs := dbs }
  locs : ∀ x, (∀ i < s.2.handle.srvs, s.2.loc i ≠ x) → s'.1 x = s.1 x

theorem Writes.refl (s : Spot) : Writes s s := ⟨⟨_, rfl⟩, fun _ _ => rfl⟩

theorem Writes.set (s : Spot) (hi : i < s.2.handle.srvs) (l : Location) (d : Option OpenDb) :
    Writes s (s.set i l d) :=
  ⟨⟨_, rfl⟩, fun _ hx => Function.update_of_ne (hx i hi).symm ..⟩

theorem Writes.trans {s₁ s₂ s₃ : Spot} (h : Writes s₁ s₂) (h' : Writes s₂ s₃) : Writes s₁ s₃ := by
  obtain ⟨dbs, hctx⟩ := h.ctx
  obtain ⟨dbs', hctx'⟩ := h'.ctx
  refine ⟨⟨dbs', by rw [hctx', hctx]⟩, fun x hx => ?_⟩
  have hx' : ∀ i < s₂.2.handle.srvs, s₂.2.loc i ≠ x := by
    rw [hctx]
    exact hx
  rw [h'.locs x hx', h.locs x hx]

/-- One server's db does not disturb another's. -/
theorem Holds.set {j : Nat} (h : Holds k j s names) (hj : j ≠ i) (hloc : s.2.loc j ≠ s.2.loc i)
    (l : Location) (d : Option OpenDb) : Holds k j (s.set i l d) names := by
  have hdb : (s.set i l d).2.dbs j = s.2.dbs j := Function.update_of_ne hj ..
  have hl : (s.set i l d).1 (s.2.loc j) = s.1 (s.2.loc j) := Function.update_of_ne hloc ..
  rw [Holds, hdb, Spot.set_loc, hl]
  exact h

/-- The loop of `BulkCommit` writes what is the context's. -/
theorem commitFrom_writes {e : Nat → Env} (n : Nat) : ∀ {i : Nat} {s s' : Spot} {st : Status}
    {handed : List Handed}, i + n ≤ s.2.handle.srvs →
      commitFrom k e n i s = some (st, s', handed) → Writes s s' := by
  induction n with
  | zero =>
    intro i s s' st handed hn h
    cases h
    exact .refl s
  | succ n ih =>
    intro i s s' st handed hn h
    rw [commitFrom] at h
    split at h
    · cases h
    · rename_i st₁ s₁ handed₁ hb
      obtain ⟨l, d, rfl⟩ := bukin1_set hb
      have hset := Writes.set s (i := i) (by omega) l d
      split at h
      · obtain ⟨⟨st₂, s₂, handed₂⟩, hc, heq⟩ := Option.map_eq_some_iff.mp h
        cases heq
        exact hset.trans (ih (by rw [Spot.set_handle]; omega) hc)
      · cases h
        exact hset

/-- **A commit that succeeds** hands over the db of each server in turn. By induction on the
servers that are left. The loop stops at the first that fails, and the commit fails then. -/
theorem commitFrom_spec {e : Nat → Env} {names : Nat → List Slice} (n : Nat) :
    ∀ {i : Nat} {s s' : Spot} {handed : List Handed}, i + n ≤ s.2.handle.srvs →
      (∀ i < s.2.handle.srvs, ∀ j < s.2.handle.srvs, s.2.loc i = s.2.loc j → i = j) →
      (∀ j, i ≤ j → j < i + n → Holds k j s (names j)) →
      commitFrom k e n i s = some (.ok, s', handed) →
        handed = (List.range' i n).map (fun j =>
          ⟨j, s.2.loc j, s.2.handle.who, contentOf s.2 (names j)⟩) ∧
        (∀ j, i ≤ j → j < i + n → s'.2.dbs j = none) ∧ ∀ j < i, s'.2.dbs j = s.2.dbs j := by
  induction n with
  | zero =>
    intro i s s' handed hn hown hh h
    cases h
    exact ⟨rfl, fun j h₁ h₂ => absurd h₁ (by omega), fun _ _ => rfl⟩
  | succ n ih =>
    intro i s s' handed hn hown hh h
    rw [commitFrom] at h
    split at h
    · cases h
    · rename_i st₁ s₁ handed₁ hb
      split at h
      · rename_i hok
        obtain ⟨⟨st₂, s₂, handed₂⟩, hc, heq⟩ := Option.map_eq_some_iff.mp h
        obtain ⟨rfl, heq⟩ := Prod.mk.inj heq
        obtain ⟨rfl, rfl⟩ := Prod.mk.inj heq
        rw [Status.isOk_iff.mp hok] at hb
        obtain ⟨hhanded, hnone⟩ := bukin1_commit (hh i le_rfl (by omega)) hb
        obtain ⟨l, d, rfl⟩ := bukin1_set hb
        obtain ⟨h₁, h₂, h₃⟩ := ih (s := s.set i l d) (by rw [Spot.set_handle]; omega) hown
          (fun j hj hjn => (hh j (by omega) (by omega)).set (by omega)
            (fun heq => absurd (hown j (by omega) i (by omega) heq) (by omega)) l d) hc
        -- the servers after `i` are as they were, since no two of them share a db
        refine ⟨?_, fun j hj hjn => ?_, fun j hj => ?_⟩
        · rw [hhanded, h₁, List.range'_succ, List.map_cons]
          rfl
        · by_cases hji : j = i
          · rw [hji]
            exact (h₃ i (by omega)).trans hnone
          · exact h₂ j (by omega) (by omega)
        · exact (h₃ j (by omega)).trans (Function.update_of_ne (by omega) ..)
      · rename_i hno
        exact returned_ok h hno

/-! ## What a call does

One record for all calls of a handle (`Call`): what it changes of its own context, what it
shows, and what it leaves alone. A call of a context that has failed already does nothing, and
this is one of its cases. -/

/-- What a call on a context with a handle does. -/
structure Call (evs : List Event) (k : Nat) (s s' : Spot) (es : List Event) : Prop where
  same : s'.2.handle = s.2.handle ∧ s'.2.bkid = s.2.bkid ∧ s'.2.bkrt = s.2.bkrt
  active : s'.2.Active → s.2.Active
  locs : ∀ x, (s.2.Active → ∀ i < s.2.handle.srvs, s.2.loc i ≠ x) → s'.1 x = s.1 x
  filled : Filled (evs ++ es) k s'
  events : es = [] ∨ ∃ ev, es = [ev] ∧ ev.ctx = k ∧ ∀ handed, ev = .commit k .ok handed →
    (∀ handed', .commit k .ok handed' ∉ evs) → handed = s.2.due evs k

variable {evs es : List Event}

theorem inserted_append (evs es : List Event) (k : Nat) (c : Inserts) (i : Nat) :
    inserted (evs ++ es) k c i = inserted evs k c i ++ inserted es k c i := List.flatMap_append

/-- A call that fails inserts nothing. -/
theorem inserted_failed (hst : st ≠ .ok) (c : Inserts) : inserted [.insert k name st] k c i = [] := by
  cases st with
  | ok => exact absurd rfl hst
  | err c' msg => rfl

/-- Events that add no name and are no successful commit. -/
theorem Filled.quiet (h : Filled evs k s) {ev : Event} (hins : ∀ c i, inserted [ev] k c i = [])
    (hno : s.2.commitStatus = .notCommitted → ∀ handed, ev ≠ .commit k .ok handed) :
    Filled (evs ++ [ev]) k s where
  filling hr hn hb i hi := by
    rw [inserted_append, hins, List.append_nil]
    exact h.filling hr hn hb i hi
  closed := h.closed
  fresh hn handed hmem := by
    rcases List.mem_append.mp hmem with hmem | hmem
    · exact h.fresh hn handed hmem
    · exact hno hn handed (List.mem_singleton.mp hmem).symm
  first hc hb := by
    obtain ⟨handed, hmem⟩ := h.first hc hb
    exact ⟨handed, List.mem_append_left _ hmem⟩
  calm := h.calm
  own := h.own

/-- **`BulkInsert`.** The call concerns the db of one server, and what it says has been
inserted is there. A call that fails sets the status of the context, after which nothing
is promised of it any more. -/
theorem bulkInsert_call {e : Env} (h : Filled evs k s) (hrefs : s.2.refs ≠ 0)
    (hs : bulkInsert k name e s = some (s', es)) : Call evs k s s' es := by
  rw [bulkInsert] at hs
  split at hs
  · cases hs
    exact ⟨⟨rfl, rfl, rfl⟩, id, fun _ _ => rfl, h.quiet (fun _ _ => rfl) (fun _ _ => by simp),
      .inr ⟨_, rfl, rfl, fun _ hev => by cases hev⟩⟩
  rename_i hnot
  have hnot : s.2.commitStatus = .notCommitted := by simpa using hnot
  split at hs
  · rename_i hbg
    cases hs
    have hbg : s.2.bgStatus ≠ .ok := by
      intro hok
      rw [hok] at hbg
      cases hbg
    exact ⟨⟨rfl, rfl, rfl⟩, id, fun _ _ => rfl,
      h.quiet (fun c i => inserted_failed hbg c) (fun _ _ => by simp),
      .inr ⟨_, rfl, rfl, fun _ hev => by cases hev⟩⟩
  rename_i hbg
  have hbg : s.2.bgStatus = .ok := Status.isOk_iff.mp (by simpa using hbg)
  have hact : s.2.Active := ⟨hrefs, fun hc => by rw [hnot] at hc; cases hc.1⟩
  obtain ⟨⟨st, s₁, handed⟩, hb, heq⟩ := Option.map_eq_some_iff.mp hs
  obtain ⟨rfl, rfl⟩ := Prod.mk.inj heq
  have hroute : s.2.route name < s.2.handle.srvs := s.2.handle.servers.select_lt name
  obtain ⟨l, d, hset⟩ := bukin1_set hb
  refine ⟨by rw [hset]; exact ⟨rfl, rfl, rfl⟩, fun _ => hact, fun x hx => ?_, ?_,
    .inr ⟨_, rfl, rfl, fun _ hev => by cases hev⟩⟩
  · rw [hset]
    exact (Writes.set s hroute l d).locs x (hx hact)
  subst hset
  refine ⟨fun _ _ hb' => ?_, fun hc => ?_, fun _ handed' hmem => ?_, fun hc => ?_, h.calm, h.own⟩
  · obtain rfl : st = .ok := by
      by_contra hne
      rw [Inserts.setBg] at hb'
      have hst : (!st.isOk && (s.set (s.2.route name) l d).2.bgStatus.isOk) = true := by
        have hbg : (s.set (s.2.route name) l d).2.bgStatus = .ok := hbg
        rw [hbg, Status.not_isOk hne]
        rfl
      dsimp only at hb'
      rw [if_pos hst] at hb'
      exact hne hb'
    intro i hi
    rw [inserted_append]
    -- the name is one of its own server only
    by_cases hi' : i = s.2.route name
    · subst hi'
      have hone : inserted [.insert k name .ok] k s.2 (s.2.route name) = nonEmpty name := by
        show (if k = k ∧ s.2.route name = s.2.route name then nonEmpty name else []) ++ [] = _
        rw [if_pos ⟨rfl, rfl⟩, List.append_nil]
      have hold := bukin1_insert (h.filling hrefs hnot hbg _ hroute) hb
      rw [← hone] at hold
      exact hold
    · have hone : inserted [.insert k name .ok] k s.2 i = [] := by
        show (if k = k ∧ s.2.route name = i then nonEmpty name else []) ++ [] = _
        rw [if_neg fun hc => hi' hc.2.symm]
        rfl
      have hold := (h.filling hrefs hnot hbg i hi).set hi'
        (fun heq => hi' (h.own i hi _ hroute heq)) l d
      rw [← List.append_nil (inserted evs k s.2 i), ← hone] at hold
      exact hold
  · have hc : s.2.commitStatus = .committed := hc
    rw [hnot] at hc
    cases hc
  · rcases List.mem_append.mp hmem with hmem | hmem
    · exact h.fresh hnot handed' hmem
    · cases List.mem_singleton.mp hmem
  · have hc : s.2.commitStatus = .committed := hc
    rw [hnot] at hc
    cases hc

/-- **`BulkCommit`.** It goes through the servers in turn, opening the dbs that are not
there yet, and hands each over. The first commit that succeeds therefore finds in every
db what was inserted for the server. -/
theorem bulkCommit_call {e : Nat → Env} (h : Filled evs k s) (hrefs : s.2.refs ≠ 0)
    (hs : bulkCommit k e s = some (s', es)) : Call evs k s s' es := by
  rw [bulkCommit] at hs
  split at hs
  · rename_i hbeing
    exact absurd hbeing h.calm
  split at hs
  · -- what an earlier commit has left, or an insert that has failed
    rename_i hdone
    cases hs
    refine ⟨⟨rfl, rfl, rfl⟩, id, fun _ _ => rfl, h.quiet (fun _ _ => rfl) fun hnot handed hev => ?_,
      .inr ⟨_, rfl, rfl, fun handed hev hno => ?_⟩⟩
    · have hbg := (Event.commit.inj hev).2.1
      rw [hnot, hbg] at hdone
      simp at hdone
    · have hbg := (Event.commit.inj hev).2.1
      rw [hbg] at hdone
      have hcom : s.2.commitStatus = .committed := by simpa using hdone
      obtain ⟨handed', hmem⟩ := h.first hcom hbg
      exact absurd hmem (hno handed')
  rename_i hgo
  obtain ⟨hnot, hbg⟩ : s.2.commitStatus = .notCommitted ∧ s.2.bgStatus = .ok := by
    have hcalm := h.calm
    rw [Bool.or_eq_true, not_or] at hgo
    obtain ⟨h₁, h₂⟩ := hgo
    refine ⟨?_, Status.isOk_iff.mp (by simpa using h₂)⟩
    cases hc : s.2.commitStatus with
    | notCommitted => rfl
    | beingCommitted => exact absurd hc hcalm
    | committed => exact absurd (by rw [hc]; rfl) h₁
  have hact : s.2.Active := ⟨hrefs, fun hc => by rw [hnot] at hc; cases hc.1⟩
  obtain ⟨⟨st, s₁, handed⟩, hc, heq⟩ := Option.map_eq_some_iff.mp hs
  obtain ⟨rfl, rfl⟩ := Prod.mk.inj heq
  have hw := commitFrom_writes s.2.handle.srvs (Nat.zero_add _).le hc
  obtain ⟨dbs, hctx⟩ := hw.ctx
  have hbg₁ : s₁.2.bgStatus = .ok := by
    rw [hctx]
    exact hbg
  -- the commit has succeeded if no error is kept
  have hst : (s₁.2.setBg st).bgStatus = .ok → st = .ok := by
    intro hb
    by_contra hne
    rw [Inserts.setBg, hbg₁] at hb
    dsimp only at hb
    rw [if_pos (by rw [Status.not_isOk hne]; rfl)] at hb
    exact hne hb
  have hspec : st = .ok → handed = s.2.due evs k ∧
      ∀ i < s.2.handle.srvs, s₁.2.dbs i = none := by
    rintro rfl
    obtain ⟨h₁, h₂, -⟩ := commitFrom_spec s.2.handle.srvs (Nat.zero_add _).le h.own
      (fun j _ hj => h.filling hrefs hnot hbg j (by omega)) hc
    refine ⟨?_, fun i hi => h₂ i (Nat.zero_le i) (by omega)⟩
    rw [h₁, Inserts.due, List.range_eq_range']
  refine ⟨?_, fun _ => hact, fun x hx => hw.locs x (hx hact), ?_,
    .inr ⟨_, rfl, rfl, fun handed' hev _ => ?_⟩⟩
  · dsimp only [Inserts.setBg]
    rw [hctx]
    exact ⟨rfl, rfl, rfl⟩
  · have hhandle : s₁.2.handle = s.2.handle := by rw [hctx]
    have hloc : s₁.2.loc = s.2.loc := by
      rw [hctx]
      rfl
    refine ⟨fun _ hn => CommitStatus.noConfusion hn, fun _ hb i hi => ?_,
      fun hn => CommitStatus.noConfusion hn, fun _ hb => ?_, CommitStatus.noConfusion, ?_⟩
    · have hi : i < s₁.2.handle.srvs := hi
      rw [hhandle] at hi
      exact (hspec (hst hb)).2 i hi
    · refine ⟨handed, List.mem_append_right _ ?_⟩
      rw [← hst hb]
      exact List.mem_singleton_self _
    · intro i hi j hj hij
      have hi : i < s₁.2.handle.srvs := hi
      have hj : j < s₁.2.handle.srvs := hj
      have hij : s₁.2.loc i = s₁.2.loc j := hij
      rw [hhandle] at hi hj
      rw [hloc] at hij
      exact h.own i hi j hj hij
  · obtain ⟨-, hok, rfl⟩ := Event.commit.inj hev
    exact (hspec hok).1

/-- `BulkInit`, with a context that is there. -/
theorem share_call (h : Filled evs k s) (hrefs : s.2.refs ≠ 0) :
    Call evs k s (s.1, { s.2 with refs := s.2.refs + 1 }) [] := by
  refine ⟨⟨rfl, rfl, rfl⟩, fun hact => ⟨hrefs, hact.2⟩, fun _ _ => rfl, ?_, .inl rfl⟩
  rw [List.append_nil]
  exact ⟨fun _ => h.filling hrefs, h.closed, h.fresh, h.first, h.calm, h.own⟩

/-- Closing leaves other paths alone. -/
theorem close_locs (e : Nat → Env) (c : Inserts) (locs : Slice → Location) {x : Slice} (n : Nat)
    (hx : ∀ i < n, (c.dbs i).isSome = true → c.loc i ≠ x) :
    (List.range n).foldl (fun locs i => if (c.dbs i).isSome then
      Function.update locs (c.loc i) (.left (e i).closed) else locs) locs x = locs x := by
  induction n with
  | zero => rfl
  | succ n ih =>
    rw [List.range_succ, List.foldl_append]
    dsimp only [List.foldl_cons, List.foldl_nil]
    split
    · rename_i hsome
      rw [Function.update_of_ne (hx n n.lt_succ_self hsome).symm]
      exact ih fun i hi => hx i (Nat.lt_succ_of_lt hi)
    · exact ih fun i hi => hx i (Nat.lt_succ_of_lt hi)

/-- **`Destroy`.** The last handle closes the dbs. What it leaves at their paths is
nobody's, and the next context destroys it. -/
theorem destroy_call (e : Nat → Env) (h : Filled evs k s) (hrefs : s.2.refs ≠ 0) :
    Call evs k s (destroy e s) [] := by
  rw [destroy]
  dsimp only
  split
  · rename_i hzero
    refine ⟨⟨rfl, rfl, rfl⟩, fun hact => absurd hzero hact.1, fun x hx => ?_, ?_, .inl rfl⟩
    · refine close_locs e { s.2 with refs := s.2.refs - 1 } s.1 _ fun i hi hsome heq => ?_
      have hsome : (s.2.dbs i).isSome = true := hsome
      refine hx ⟨hrefs, fun hc => ?_⟩ i hi heq
      rw [h.closed hc.1 hc.2 i hi] at hsome
      cases hsome
    · rw [List.append_nil]
      exact ⟨fun hr => absurd hzero hr, fun _ _ _ _ => rfl, h.fresh, h.first, h.calm, h.own⟩
  · refine ⟨⟨rfl, rfl, rfl⟩, fun hact => ⟨hrefs, hact.2⟩, fun _ _ => rfl, ?_, .inl rfl⟩
    rw [List.append_nil]
    exact ⟨fun _ => h.filling hrefs, h.closed, h.fresh, h.first, h.calm, h.own⟩

/-! ## Histories

The contexts of a history keep out of each other's way as long as their paths differ, so the
step lemma has two parts: the context that is called, for which the call says what happens, and
the others, of which nothing changes. A new context is the third case: its paths are not in use,
and whatever is there is destroyed before they are. -/

variable {w w' : World} {c : Inserts}

/-- The context that was made first is not changed but for what is in it. -/
def Kept (w w' : World) : Prop :=
  ∀ {k : Nat} {c : Inserts}, w.ctxs[k]? = some c → ∃ c', w'.ctxs[k]? = some c' ∧
    c'.handle = c.handle ∧ c'.bkid = c.bkid ∧ c'.bkrt = c.bkrt

theorem loc_eq {c c' : Inserts}
    (h : c'.handle = c.handle ∧ c'.bkid = c.bkid ∧ c'.bkrt = c.bkrt) : c'.loc = c.loc := by
  obtain ⟨h₁, h₂, h₃⟩ := h
  funext i
  rw [Inserts.loc, Inserts.loc, h₁, h₂, h₃]

/-- What is due depends on nothing that changes. -/
theorem due_eq {c c' : Inserts} (h : c'.handle = c.handle ∧ c'.bkid = c.bkid ∧ c'.bkrt = c.bkrt)
    (evs : List Event) (k : Nat) : c'.due evs k = c.due evs k := by
  cases c
  cases c'
  obtain ⟨h₁, h₂, h₃⟩ := h
  dsimp only at h₁ h₂ h₃
  subst h₁ h₂ h₃
  rfl

/-- Events of other contexts insert nothing. -/
theorem inserted_other (hes : ∀ ev ∈ es, ev.ctx ≠ k) (c : Inserts) (i : Nat) :
    inserted es k c i = [] := by
  refine List.flatMap_eq_nil_iff.mpr fun ev hev => ?_
  have hne := hes ev hev
  cases ev with
  | commit k' st handed => rfl
  | insert k' name st =>
    cases st with
    | ok => exact if_neg fun hc => hne hc.1
    | err c msg => rfl

/-- **A call on one context keeps the invariant of all.** The contexts that are not called
keep what they have because their paths are not touched, which is where `World.Apart` comes
in. -/
theorem Sound.call (h : Sound evs w) (hc : w.ctxs[k]? = some c)
    (hcall : Call evs k (w.locs, c) s' es) : Sound (evs ++ es) ⟨s'.1, w.ctxs.set k s'.2⟩ := by
  have hloc := loc_eq hcall.same
  have hes : ∀ ev ∈ es, ev.ctx = k := by
    intro ev hev
    rcases hcall.events with rfl | ⟨ev', rfl, hk, -⟩
    · cases hev
    · rw [List.mem_singleton.mp hev, hk]
  refine ⟨fun {k' c'} hk' => ?_, fun {j j' d d'} hj hj' hne hact hact' i hi i' hi' => ?_,
    fun ev hev => ?_⟩
  · rcases pool_set hk' with ⟨rfl, rfl⟩ | ⟨hne, hold⟩
    · exact hcall.filled
    · have hf := h.filled hold
      refine ⟨fun hr hn hb i hi => ?_, hf.closed, fun hn handed hmem => ?_, fun hcm hb => ?_,
        hf.calm, hf.own⟩
      · have hact' : c'.Active := ⟨hr, fun hcm => by rw [hn] at hcm; cases hcm.1⟩
        have hother : ∀ ev ∈ es, ev.ctx ≠ k' := fun ev hev heq => hne (heq ▸ hes ev hev)
        rw [inserted_append, inserted_other hother, List.append_nil]
        have hsame : s'.1 (c'.loc i) = w.locs (c'.loc i) :=
          hcall.locs _ fun hact j hj => h.apart hc hold hne.symm hact hact' j hj i hi
        have hh := hf.filling hr hn hb i hi
        rw [Holds] at hh ⊢
        dsimp only at hh ⊢
        rw [hsame]
        exact hh
      · rcases List.mem_append.mp hmem with hmem | hmem
        · exact hf.fresh hn handed hmem
        · exact hne (hes _ hmem)
      · obtain ⟨handed, hmem⟩ := hf.first hcm hb
        exact ⟨handed, List.mem_append_left _ hmem⟩
  · have hsame : s'.2.handle = c.handle := hcall.same.1
    rcases pool_set hj with ⟨rfl, rfl⟩ | ⟨hjk, hold⟩
    · rcases pool_set hj' with ⟨rfl, rfl⟩ | ⟨-, hold'⟩
      · exact absurd rfl hne
      · rw [hsame] at hi
        rw [hloc]
        exact h.apart hc hold' hne (hcall.active hact) hact' i hi i' hi'
    · rcases pool_set hj' with ⟨rfl, rfl⟩ | ⟨-, hold'⟩
      · rw [hsame] at hi'
        rw [hloc]
        exact h.apart hold hc hne hact (hcall.active hact') i hi i' hi'
      · exact h.apart hold hold' hne hact hact' i hi i' hi'
  · rw [List.length_set]
    rcases List.mem_append.mp hev with hev | hev
    · exact h.scope ev hev
    · rw [hes ev hev]
      exact (List.getElem?_eq_some_iff.mp hc).1

/-- **A new context** has its paths for itself. This is where `World.Apart` is used: a
path that is shared with an open context would belong to both. -/
theorem Sound.create (h : Sound evs w) {hd : Handle} {bkid : Int} {bkrt : Slice}
    (hap : w.Apart (.create hd bkid bkrt)) :
    Sound evs { w with ctxs := w.ctxs ++ [.new hd bkid bkrt] } := by
  obtain ⟨hown, hothers⟩ := hap
  have hfree : ∀ {k : Nat} {c : Inserts}, w.ctxs[k]? = some c → c.Active →
      ∀ i < hd.srvs, ∀ j < c.handle.srvs, (Inserts.new hd bkid bkrt).loc i ≠ c.loc j := by
    intro k c hk hact i hi j hj heq
    obtain ⟨hpaths, hplace⟩ := hothers c (List.mem_of_getElem? hk)
    obtain ⟨h₁, h₂, -⟩ := hpaths i hi j hj heq
    exact hplace hact ⟨h₁, h₂⟩
  refine ⟨fun {k c} hk => ?_, fun {k k' c c'} hk hk' hne hact hact' i hi j hj => ?_, fun ev hev => ?_⟩
  · rcases pool_push hk with ⟨rfl, rfl⟩ | hold
    · have hnone : ∀ ev ∈ evs, ev.ctx ≠ w.ctxs.length := fun ev hev => (h.scope ev hev).ne
      refine ⟨fun _ _ _ i _ => ?_, fun hcm => CommitStatus.noConfusion hcm,
        fun _ handed hmem => hnone _ hmem rfl, fun hcm => CommitStatus.noConfusion hcm,
        CommitStatus.noConfusion, fun i hi j hj heq => (hown i hi j hj heq).2.2⟩
      exact inserted_other hnone _ i
    · exact h.filled hold
  · rcases pool_push hk with ⟨rfl, rfl⟩ | hold
    · rcases pool_push hk' with ⟨rfl, rfl⟩ | hold'
      · exact absurd rfl hne
      · exact hfree hold' hact' i hi j hj
    · rcases pool_push hk' with ⟨rfl, rfl⟩ | hold'
      · exact (hfree hold hact j hj i hi).symm
      · exact h.apart hold hold' hne hact hact' i hi j hj
  · rw [List.length_append]
    exact Nat.lt_add_right _ (h.scope ev hev)

/-- What a step does. -/
structure Steps (evs : List Event) (w w' : World) (es : List Event) : Prop where
  sound : Sound (evs ++ es) w'
  kept : Kept w w'
  events : es = [] ∨ ∃ ev, es = [ev] ∧ ∀ k handed, ev = .commit k .ok handed →
    (∀ handed', .commit k .ok handed' ∉ evs) → ∃ c, w.ctxs[k]? = some c ∧ handed = c.due evs k

/-- A call is a step. -/
theorem Sound.on (h : Sound evs w) {f : Spot → Option (Spot × List Event)}
    (hf : ∀ {s s' : Spot} {es : List Event}, Filled evs k s → s.2.refs ≠ 0 → f s = some (s', es) →
      Call evs k s s' es)
    (hs : w.on k f = some (w', es)) : Steps evs w w' es := by
  rw [World.on] at hs
  split at hs
  · cases hs
  · rename_i c hc
    split at hs
    · cases hs
    · rename_i hrefs
      obtain ⟨⟨s', es'⟩, hcall, heq⟩ := Option.map_eq_some_iff.mp hs
      obtain ⟨rfl, rfl⟩ := Prod.mk.inj heq
      have hcall := hf (h.filled hc) hrefs hcall
      refine ⟨h.call hc hcall, fun {k' c'} hk' => ?_, ?_⟩
      · by_cases hkk : k' = k
        · subst hkk
          rw [hc] at hk'
          cases hk'
          exact ⟨s'.2, pool_set_self hc, hcall.same⟩
        · exact ⟨c', by rw [pool_set_ne hkk]; exact hk', rfl, rfl, rfl⟩
      · rcases hcall.events with hnil | ⟨ev, hev, hk, hdue⟩
        · exact .inl hnil
        · refine .inr ⟨ev, hev, fun k' handed hcommit hno => ?_⟩
          have hkk : k' = k := by
            rw [hcommit] at hk
            exact hk
          subst hkk
          exact ⟨c, hc, hdue handed hcommit hno⟩

/-- **Every step.** A call leaves the other contexts alone because their paths are
different, and a new one begins with nothing inserted. -/
theorem Sound.step (h : Sound evs w) {l : Label} (hap : w.Apart l)
    (hs : w.step l = some (w', es)) : Steps evs w w' es := by
  cases l with
  | create hd bkid bkrt =>
    cases hs
    refine ⟨?_, fun {k c} hk => ⟨c, pool_push_old hk, rfl, rfl, rfl⟩, .inl rfl⟩
    rw [List.append_nil]
    exact h.create hap
  | share k =>
    rw [World.step] at hs
    refine h.on (fun hf hr hs => ?_) hs
    obtain ⟨rfl, rfl⟩ := Prod.mk.inj (Option.some.inj hs)
    exact share_call hf hr
  | insert k name e => exact h.on (fun hf hr hs => bulkInsert_call hf hr hs) hs
  | commit k e => exact h.on (fun hf hr hs => bulkCommit_call hf hr hs) hs
  | destroy k e =>
    rw [World.step] at hs
    refine h.on (fun hf hr hs => ?_) hs
    obtain ⟨rfl, rfl⟩ := Prod.mk.inj (Option.some.inj hs)
    exact destroy_call e hf hr

/-- Every first commit so far that returned OK has handed over what was due. -/
def Exact (evs : List Event) (w : World) : Prop :=
  ∀ pre k handed, pre ++ [.commit k .ok handed] <+: evs →
    (∀ handed', .commit k .ok handed' ∉ pre) → ∃ c, w.ctxs[k]? = some c ∧ handed = c.due pre k

theorem Exact.step (h : Exact evs w) (hs : Steps evs w w' es) : Exact (evs ++ es) w' := by
  have hold : ∀ pre k handed, pre ++ [.commit k .ok handed] <+: evs →
      (∀ handed', .commit k .ok handed' ∉ pre) →
        ∃ c, w'.ctxs[k]? = some c ∧ handed = c.due pre k := by
    intro pre k handed hpre hno
    obtain ⟨c, hc, rfl⟩ := h pre k handed hpre hno
    obtain ⟨c', hc', hsame⟩ := hs.kept hc
    exact ⟨c', hc', (due_eq hsame pre k).symm⟩
  intro pre k handed hpre hno
  rcases hs.events with rfl | ⟨ev, rfl, hev⟩
  · rw [List.append_nil] at hpre
    exact hold pre k handed hpre hno
  · rcases List.prefix_concat_iff.mp hpre with heq | hpre
    · obtain ⟨rfl, hlast⟩ := List.append_inj' heq rfl
      obtain ⟨c, hc, rfl⟩ := hev k handed (List.singleton_inj.mp hlast).symm hno
      obtain ⟨c', hc', hsame⟩ := hs.kept hc
      exact ⟨c', hc', (due_eq hsame pre k).symm⟩
    · exact hold pre k handed hpre hno

theorem Sound.start (locs : Slice → Location) : Sound [] ⟨locs, []⟩ where
  filled hk := by cases hk
  apart hk := by cases hk
  scope ev hev := absurd hev List.not_mem_nil

/-- **The invariant holds in every history.** A history is a run of calls one after the
other, in which contexts are made as `World.Apart` says. -/
theorem run_sound {locs : Slice → Location} (hr : (bulks locs).Run World.Apart evs w) :
    Sound evs w ∧ Exact evs w := by
  refine hr.invariant (I := fun evs w => Sound evs w ∧ Exact evs w) ?_ ?_
  · rintro w rfl
    refine ⟨Sound.start locs, fun pre k handed hpre => ?_⟩
    have hlen := hpre.length_le
    simp at hlen
  · rintro evs w l w' es - ⟨hsound, hexact⟩ hap hs
    have hsteps := hsound.step hap hs
    exact ⟨hsteps.sound, hexact.step hsteps⟩

/-! ## What is handed over

The result, read off the invariant at the moment of the commit: the dbs hold the entries of the
names inserted, and nothing else. The runs after it show what the hypotheses are for. -/

theorem mem_inserted : name ∈ inserted evs k c i ↔
    .insert k name .ok ∈ evs ∧ name ≠ [] ∧ c.route name = i := by
  rw [inserted, List.mem_flatMap]
  constructor
  · rintro ⟨ev, hev, hname⟩
    split at hname
    · rename_i k' name'
      split at hname
      · rename_i hc
        rw [nonEmpty] at hname
        split at hname
        · cases hname
        · rename_i hne
          obtain rfl := List.mem_singleton.mp hname
          rw [hc.1] at hev
          exact ⟨hev, hne, hc.2⟩
      · cases hname
    · cases hname
  · rintro ⟨hev, hne, hroute⟩
    refine ⟨_, hev, ?_⟩
    dsimp only
    rw [if_pos ⟨rfl, hroute⟩, nonEmpty, if_neg hne]
    exact List.mem_singleton_self name

/-- The db of some names has their entries, and no others. -/
theorem contentOf_eq_some {key value : Slice} : contentOf c names key = some value ↔
    ∃ name ∈ names, key = entryKey c.handle.parent.dirId name ∧
      value = c.handle.bulkStat.encodeTo := by
  induction names using List.reverseRecOn with
  | nil => exact iff_of_false (fun h => by cases h) fun ⟨name, hname, _⟩ => by cases hname
  | append_singleton names name ih =>
    have hlast : contentOf c (names ++ [name]) = Function.update (contentOf c names)
        (entryKey c.handle.parent.dirId name) (some c.handle.bulkStat.encodeTo) := by
      rw [contentOf, List.foldl_append]
      rfl
    rw [hlast]
    by_cases hkey : key = entryKey c.handle.parent.dirId name
    · subst hkey
      rw [Function.update_self]
      constructor
      · intro h
        exact ⟨name, List.mem_append_right _ (List.mem_singleton_self name), rfl,
          (Option.some.inj h).symm⟩
      · rintro ⟨_, -, -, rfl⟩
        rfl
    · rw [Function.update_of_ne hkey, ih]
      constructor
      · rintro ⟨name', hmem, h⟩
        exact ⟨name', List.mem_append_left _ hmem, h⟩
      · rintro ⟨name', hmem, hkey', h⟩
        rcases List.mem_append.mp hmem with hmem | hmem
        · exact ⟨name', hmem, hkey', h⟩
        · rw [List.mem_singleton.mp hmem] at hkey'
          exact absurd hkey' hkey

/-- **A bulk commit hands over what was inserted, and nothing else**: the first
commit of a context that returns OK hands a db to each server in turn, which has
an entry for each name that was inserted through the context for that server,
with the stat of the context, and no other entries. Whatever earlier contexts have
left at the path is not in it.

The db of a server is made when its first name is inserted, or by the commit if there was
none, and either way the path is destroyed before and must then be empty for the opening to
succeed. From then on the path is the context's own, by `World.Apart`. -/
theorem commit_exact {locs : Slice → Location} (hr : (bulks locs).Run World.Apart evs w)
    {pre post : List Event} (hevs : evs = pre ++ .commit k .ok handed :: post)
    (hfirst : ∀ handed', .commit k .ok handed' ∉ pre) :
    ∃ c, w.ctxs[k]? = some c ∧ handed.map Handed.srv = List.range c.handle.srvs ∧
      (c.handle.bulkStat.userId = c.handle.who.uid ∧
        c.handle.bulkStat.groupId = c.handle.who.gid) ∧
      ∀ x ∈ handed, x.dir = c.loc x.srv ∧ x.me = c.handle.who ∧ ∀ key value,
        x.db key = some value ↔ ∃ name, .insert k name .ok ∈ pre ∧ name ≠ [] ∧
          c.route name = x.srv ∧ key = entryKey c.handle.parent.dirId name ∧
            value = c.handle.bulkStat.encodeTo := by
  have hpre : pre ++ [.commit k .ok handed] <+: evs := ⟨post, by rw [hevs, List.append_assoc]; rfl⟩
  obtain ⟨c, hc, rfl⟩ := (run_sound hr).2 pre k handed hpre hfirst
  refine ⟨c, hc, ?_, ⟨rfl, rfl⟩, fun x hx => ?_⟩
  · rw [Inserts.due, List.map_map]
    exact List.map_id' _
  · obtain ⟨i, -, rfl⟩ := List.mem_map.mp hx
    refine ⟨rfl, rfl, fun key value => ?_⟩
    dsimp only
    rw [contentOf_eq_some]
    constructor
    · rintro ⟨name, hname, hkey⟩
      obtain ⟨hev, hne, hroute⟩ := mem_inserted.mp hname
      exact ⟨name, hev, hne, hroute, hkey⟩
    · rintro ⟨name, hev, hne, hroute, hkey⟩
      exact ⟨name, mem_inserted.mpr ⟨hev, hne, hroute⟩, hkey⟩

/-! ### Some histories

Litter at the path does no harm. An insert of the empty name, a second commit, and two contexts
at one path show what the theorem has to leave out. -/

/-- Calls that all succeed. -/
def calmEnv : Env := ⟨none, .ok, .ok, .ok, fun _ => none, .ok, none⟩

/-- A path has files that are not a client's. -/
def litter : Slice → Location := fun _ => .files fun _ => some []

/-- One context for `oneServer`, when there is litter at its path. -/
theorem run_create : (bulks litter).Run World.Apart [] ⟨litter, [.new oneServer 7 (str "/r")]⟩ := by
  have hinit : (bulks litter).init ⟨litter, []⟩ := rfl
  have hap : World.Apart ⟨litter, []⟩ (.create oneServer 7 (str "/r")) := by
    refine ⟨fun i hi j hj _ => ⟨rfl, rfl, ?_⟩, fun c hc => absurd hc List.not_mem_nil⟩
    have hi : i < 1 := hi
    have hj : j < 1 := hj
    omega
  exact Run.step (.init hinit) hap rfl

/-- No context is made. -/
def Label.isCall : Label → Bool
  | .create _ _ _ => false
  | _ => true

theorem apart_of_isCall (w : World) (l : Label) (h : l.isCall = true) : w.Apart l := by
  cases l with
  | create => cases h
  | share | insert | commit | destroy => trivial

/-- `commit_exact` for two names, and litter at the path. -/
theorem commit_exact_litter : ∃ w x, (bulks litter).Run World.Apart
    [.insert 0 (str "a") .ok, .insert 0 (str "b") .ok, .commit 0 .ok [x]] w ∧
    ∀ key value, x.db key = some value ↔ ∃ name,
      .insert 0 name .ok ∈ [Event.insert 0 (str "a") .ok, Event.insert 0 (str "b") .ok] ∧
        name ≠ [] ∧ oneServer.servers.select name = x.srv ∧
          key = entryKey oneServer.parent.dirId name ∧ value = oneServer.bulkStat.encodeTo := by
  have hx : ∃ w x, (bulks litter).exec (fun _ l => l.isCall)
      ⟨litter, [.new oneServer 7 (str "/r")]⟩
      [.insert 0 (str "a") calmEnv, .insert 0 (str "b") calmEnv, .commit 0 fun _ => calmEnv] =
        some (w, [.insert 0 (str "a") .ok, .insert 0 (str "b") .ok, .commit 0 .ok [x]]) ∧
      w.ctxs[0]?.map Inserts.handle = some oneServer :=
    ⟨_, _, rfl, rfl⟩
  obtain ⟨w, x, hx, hw⟩ := hx
  have hr := Run.exec (C := World.Apart) apart_of_isCall run_create hx
  refine ⟨w, x, hr, ?_⟩
  have hsplit : [] ++ [Event.insert 0 (str "a") .ok, .insert 0 (str "b") .ok, .commit 0 .ok [x]] =
      [Event.insert 0 (str "a") .ok, .insert 0 (str "b") .ok] ++ [.commit 0 .ok [x]] := rfl
  obtain ⟨c, hc, -, -, hall⟩ := commit_exact hr hsplit (by simp)
  rw [hc] at hw
  have hhandle : c.handle = oneServer := Option.some.inj hw
  simp only [Inserts.route, hhandle] at hall
  exact (hall x (List.mem_singleton_self x)).2.2

/-- An insert of the empty name returns OK and stores nothing, and so does a
second commit, which hands nothing over. And a context that is made for the
directory while another one is open destroys the db of that one, whose commit
still returns OK: it hands over whatever its flush leaves at the path, such as
what the new context has flushed there, or nothing at all. That depends on the
files of the db, so the last part holds for every `torn`. -/
theorem commit_inexact :
    (∃ w x, (bulks litter).Run World.Apart
      [.insert 0 [] .ok, .commit 0 .ok [x], .commit 0 .ok []] w ∧
        ∀ key, x.db key = none) ∧
    ∀ torn : Db, ∃ w x, (bulks litter).Run (fun _ _ => True)
      [.insert 0 (str "a") .ok, .insert 1 (str "b") .ok, .commit 0 .ok [x]] w ∧
        ∀ key, x.db key = torn key := by
  constructor
  · have hx : ∃ w x, (bulks litter).exec (fun _ l => l.isCall)
        ⟨litter, [.new oneServer 7 (str "/r")]⟩
        [.insert 0 [] calmEnv, .commit 0 fun _ => calmEnv, .commit 0 fun _ => calmEnv] =
          some (w, [.insert 0 [] .ok, .commit 0 .ok [x], .commit 0 .ok []]) ∧
        ∀ key, x.db key = none :=
      ⟨_, _, rfl, fun _ => rfl⟩
    obtain ⟨w, x, hx, hdb⟩ := hx
    exact ⟨w, x, Run.exec (C := World.Apart) apart_of_isCall run_create hx, hdb⟩
  · intro torn
    have hx : ∃ w x, (bulks litter).exec (fun _ _ => true)
        ⟨litter, [.new oneServer 7 (str "/r")]⟩
        [.insert 0 (str "a") calmEnv, .create oneServer 7 (str "/r"),
          .insert 1 (str "b") calmEnv, .commit 0 fun _ => { calmEnv with torn := torn }] =
          some (w, [.insert 0 (str "a") .ok, .insert 1 (str "b") .ok, .commit 0 .ok [x]]) ∧
        ∀ key, x.db key = torn key :=
      ⟨_, _, rfl, fun _ => rfl⟩
    obtain ⟨w, x, hx, hdb⟩ := hx
    have hr := run_create.mono (D := fun _ _ => True) fun _ _ _ => trivial
    exact ⟨w, x, Run.exec (C := fun _ _ => True) (fun _ _ _ => trivial) hr hx, hdb⟩

end Bulk

end DeltaFs
