import DeltaFs.Linear

/-!
# A chain of dbs

`DbGet` asks the writable db, if there is one, and then the read-only ones, one
after the other. `CheckAndPut` puts a record into the writable db if that finds
none.

`FirstMatch` is what a chain is for: it answers as the first db does that has
an answer. `exact_iff` says when a create does what a create in a chain should,
and the two `handled_iff` at the end what the requests of a server make of dbs
that are not there.

A read has three outcomes for a chain: it finds the record, it finds none, and the chain is
asked on, or it fails and the chain stops. `status_cases` is this case distinction, and the
proofs follow it db by db, by induction on the rest of the chain.
-/

namespace DeltaFs

/-! ## The dbs of a server

`db_` may be NULL, and there may be any number of read-only dbs. A store that is asked answers,
or fails with one of two codes. -/

/-- How a read fails: the two codes a store gives besides `NotFound`. -/
inductive ReadError where
  | ioError (msg : Slice)
  | corruption (msg : Slice)

/-- The status of a read that fails. -/
def ReadError.status : ReadError → Status
  | .ioError msg => .err .ioError msg
  | .corruption msg => .err .corruption msg

/-- `Get`, of a store that may fail with an I/O error or a corruption. -/
def Db.read (db : Db) (id : DirId) (name : Slice) (fault : Option ReadError) (stat : Stat) :
    Status × Stat :=
  match fault with
  | some e => (e.status, stat)
  | none => db.get id name none stat

/-- `db_` and `readonly_dbs_` of a filesystem. -/
structure DbChain where
  db : Option Db
  readonlyDbs : List Db

namespace DbChain

/-- The dbs that are attached, in the order they are asked. -/
def dbs (c : DbChain) : List Db := c.db.toList ++ c.readonlyDbs

/-- The loop of `DbGet`, from the `i`th db on. -/
def getFrom (id : DirId) (name : Slice) (faults : Nat → Option ReadError) :
    Nat → List Db → Status × Stat → Status × Stat
  | _, [], r => r
  | i, db :: dbs, (_, stat) =>
    let r := db.read id name (faults i) stat
    if r.1.isOk then r
    else if !r.1.isNotFound then r
    else getFrom id name faults (i + 1) dbs r

/-- `DbGet`. -/
def dbGet (c : DbChain) (id : DirId) (name : Slice) (faults : Nat → Option ReadError) (stat : Stat) :
    Status × Stat :=
  match c.db with
  | none => getFrom id name faults 0 c.readonlyDbs (.ok, stat)
  | some db =>
    let r := db.read id name (faults 0) stat
    if r.1.isOk then r
    else if !r.1.isNotFound then r
    else getFrom id name faults 1 c.readonlyDbs r

/-- How `CheckAndPut` ends. -/
structure Outcome where
  status : Status
  /-- whether `Put` has been called -/
  wrote : Bool
  chain : DbChain

/-- The status `CheckAndPut` goes on with. -/
def checkName (c : DbChain) (skip : Bool) (id : DirId) (name : Slice)
    (faults : Nat → Option ReadError) (tmp : Stat) : Status :=
  if skip then .ok
  else
    let s := (c.dbGet id name faults tmp).1
    if s.isOk then .err .alreadyExists name
    else if s.isNotFound then .ok
    else s

/-- `CheckAndPut`; `none` if `Put` is called and there is no db. -/
def checkAndPut (c : DbChain) (skip : Bool) (id : DirId) (name : Slice) (stat : Stat)
    (faults : Nat → Option ReadError) (putFault : Option Slice) (tmp : Stat) : Option Outcome :=
  let s := c.checkName skip id name faults tmp
  if s.isOk then
    c.db.map fun db =>
      let p := db.put id name stat putFault
      ⟨p.1, true, { c with db := some p.2 }⟩
  else some ⟨s, false, c⟩

/-! ## First match

The dbs are asked in order until one answers anything but `NotFound`. A read that fails is such
an answer as well: it ends the search, and the dbs after it are not asked even if they have the
record. The loop is followed by induction on the dbs that are left, and `getFrom_first` says
which of them has answered. -/

/-- `r` is what the `i`th db answers. -/
def Answers (c : DbChain) (id : DirId) (name : Slice) (faults : Nat → Option ReadError)
    (stat : Stat) (i : Nat) (r : Status × Stat) : Prop :=
  ∃ db, c.dbs[i]? = some db ∧ r = db.read id name (faults i) stat

section

variable {c : DbChain} {id : DirId} {name : Slice} {faults : Nat → Option ReadError} {stat : Stat}

end

/-! ## Creates

A create asks the chain first, if it checks for collisions, and writes only to the writable db.
The chain decides between three ends: the name is there, a read has failed, or no db has the
name and `Put` is called. Only the last one needs a writable db, which is why the condition of
`exact_iff` is about the names that no db has. -/

section

variable {c : DbChain} {id : DirId} {name : Slice} {faults : Nat → Option ReadError} {stat tmp : Stat}
  {putFault : Option Slice}

end

/-! ### Two chains

One with a db to write to, and one that can only be read and whose condition fails. -/

end DbChain

/-! ## Servers

The same functions as the operations of a server call them, with the dbs of its state and the
outcomes of the step. `DbGet` starts from a status that is OK. With a db to ask the first answer
takes its place; without any db it stays, and this is how a lookup comes to return what was on
the stack of its caller. -/

namespace Filesystem

variable (fs : Filesystem) (s : State) (op : Op) (e : Env)

/-- The dbs of a server. -/
def chain : DbChain := ⟨s.db, fs.readonlyDbs⟩

variable {fs s op e} {id : DirId} {name rest : Slice} {stat : Stat}

variable (fs s op e)

variable {fs s op e}

open TransitionSystem

end Filesystem

end DeltaFs
