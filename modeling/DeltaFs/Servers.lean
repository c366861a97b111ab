import DeltaFs.Cluster
import DeltaFs.Fresh
import DeltaFs.Namespace
import DeltaFs.Sequential
import DeltaFs.Unfolding

/-!
# The servers as one filesystem

A request goes to the server that is selected for its name. Seen from a client that
sends one request at a time, the servers together hold the graph of the directories:
`entry` is what is named in a directory, wherever it is. `Sound` is what they keep:
records can be read, directories have ids that fit a key and that their server has
given to no other, and no two paths lead to the same directory.

This is about the methods of the servers, called with what the client asks for
(`Cluster.asServer`). A client has them in its process only if there is one server.
Over stubs it gets less of a result, and nothing if its request does not fit a buffer:
that is added in `Access`.
-/

namespace DeltaFs

open FilesystemCli

namespace Filesystem

variable {fs : Filesystem} {d : Content} {c : Call} {name : Slice} {st : Stat}

/-! ## Requests that are served

A server that serves one request at a time, in terms of `view`: a lookup returns what is
there, and a create of what is not there adds it, under the next number. -/

/-- Whether a request creates the file or directory `name`. -/
def Creates (c : Call) (name : Slice) : Prop :=
  (∃ mode, c.req = .mkfle name mode) ∨ ∃ mode, c.req = .mkdir name mode

/-- The type, the mode and the zeroth server of what is created. -/
def newStatOf (fs : Filesystem) (c : Call) (ino : UInt64) : Stat :=
  match c.req with
  | .mkdir _ mode => fs.newStat c sIfdir mode (pickupServer fs.xx ⟨fs.options.mydno, ino⟩) ino
  | .mkfle _ mode => fs.newStat c sIfreg mode (-1) ino
  | _ => lokupStat

/-- No record of the directory is damaged under the name. -/
def Readable (fs : Filesystem) (d : Content) (id : DirId) (name : Slice) : Prop :=
  firstMatch (d.db :: fs.readonlyDbs) (entryKey id name) ≠ none →
    view (d.db :: fs.readonlyDbs) id name ≠ none

theorem dbGet_of_view (h : view (d.db :: fs.readonlyDbs) c.dirId name = some st) (stat : Stat) :
    dbGet (fs.dbs (d.state fs)) c.dirId name (fun _ => none) stat = (.ok, st) :=
  getFirst_of_view h 0 _

theorem getFirst_of_none {dbs : List Db} {id : DirId} (h : firstMatch dbs (entryKey id name) = none) :
    ∀ (i : Nat) (r : Status × Stat), (dbs = [] → r.1 = .err .notFound []) →
      getFirst id name (fun _ => none) i dbs r = (.err .notFound [], r.2) := by
  induction dbs with
  | nil =>
    rintro i ⟨s, stat⟩ hr
    obtain rfl : s = .err .notFound [] := hr rfl
    rfl
  | cons db dbs ih =>
    rintro i ⟨s, stat⟩ -
    rw [firstMatch_cons, Option.or_eq_none_iff] at h
    rw [getFirst]
    simp only [Db.get, h.1, Status.isNotFound, if_true]
    exact ih h.2 (i + 1) _ fun _ => rfl

theorem dbGet_of_none (hread : fs.Readable d c.dirId name)
    (h : view (d.db :: fs.readonlyDbs) c.dirId name = none) (stat : Stat) :
    dbGet (fs.dbs (d.state fs)) c.dirId name (fun _ => none) stat = (.err .notFound [], stat) := by
  have hnone : firstMatch (d.db :: fs.readonlyDbs) (entryKey c.dirId name) = none := by
    by_contra hsome
    exact hread hsome h
  exact getFirst_of_none hnone 0 _ fun hnil => absurd hnil (List.cons_ne_nil _ _)

/-- The check of the permission a request needs. -/
def Permitted (fs : Filesystem) (c : Call) : Prop :=
  (c.isLookup = true ∧ isLookupOk fs.options.skipPermChecks c.parent c.who = true) ∨
    (c.isLookup = false ∧ isDirWriteOk fs.options.skipPermChecks c.parent c.who = true)

/-- Requests pass the checks with a lease that does not end, if the user may make
them, at the server of their name. -/
theorem alone_passed (ts : UInt64) (hdue : c.parent.leaseDue = -1) (hname : c.name? = some name)
    (hserves : fs.Serves c.dirId name) (hperm : fs.Permitted c) {op : Op} (hop : op.call = c)
    (f : Op → Content × Op) : fs.alone ts op f d = f op := by
  have hrefusal : fs.refusal c ts = none := by
    rw [refusal]
    simp only [isLeaseOk_of_due hdue, Bool.not_true, Bool.false_eq_true, if_false]
    rcases hperm with ⟨hlook, hok⟩ | ⟨hlook, hok⟩
    · rw [if_pos hlook, if_pos hok]
    · rw [hlook, if_neg Bool.false_ne_true, if_pos hok]
  rw [alone, hop, hrefusal]
  dsimp only
  rw [if_pos (isPartitionOk_of_serves hname hserves)]

/-- What a lookup makes of an entry. -/
def found : Option Stat → Except (ErrCode × Slice) LookupStat
  | none => .error (.notFound, [])
  | some st => if isDir st.fileMode then .ok (.copyFrom st (-1)) else .error (.dirExpected, str "Not a dir")

/-- **`Lokup`** returns the entry. The lease does not end and the user may look up, so
no check is in the way, and nobody else is at work in between. -/
theorem lokup_eq (ts : UInt64) {who : User} {p : LookupStat} (hdue : p.leaseDue = -1)
    (hserves : fs.Serves p.dirId name) (hread : fs.Readable d p.dirId name)
    (hperm : isLookupOk fs.options.skipPermChecks p who = true) :
    (fs.server ts).lokup d who p name = (d, found (view (d.db :: fs.readonlyDbs) p.dirId name)) := by
  obtain ⟨c, hc⟩ : ∃ c : Call, c = ⟨who, p, .lokup name⟩ := ⟨_, rfl⟩
  have hparent : c.parent = p := by rw [hc]
  have hid : c.dirId = p.dirId := by rw [hc]; rfl
  have hpermitted : fs.Permitted c := .inl ⟨by rw [hc]; rfl, by rw [hc]; exact hperm⟩
  have hserve : fs.serveRead ts c name lokupStat d =
      (d, (fs.read (d.state fs) (Op.new c lokupStat) name (calmAt ts)).1) :=
    alone_passed ts (hparent ▸ hdue) (by rw [hc]; rfl) (hid ▸ hserves) hpermitted rfl _
  rw [← hid] at hread ⊢
  have hreq : c.req = .lokup name := by rw [hc]
  simp only [server, ← hc, hserve, Filesystem.read, Op.new, calmAt, hreq]
  cases hview : view (d.db :: fs.readonlyDbs) c.dirId name with
  | none =>
    simp only [dbGet_of_none hread hview, Status.isOk_err, Bool.false_eq_true, if_false, statusOf, found]
  | some st =>
    cases hdir : isDir st.fileMode with
    | false => simp only [dbGet_of_view hview, Status.isOk_ok, if_true, hdir, Bool.false_eq_true,
        if_false, statusOf, found]
    | true => simp only [dbGet_of_view hview, Status.isOk_ok, if_true, hdir, statusOf, found]

/-- **`Lstat`** returns what is read from the dbs. -/
theorem lstat_dbGet (ts : UInt64) {who : User} {p : LookupStat} (hdue : p.leaseDue = -1)
    (hserves : fs.Serves p.dirId name) (hperm : isLookupOk fs.options.skipPermChecks p who = true)
    (stat : Stat) : (fs.server ts).lstat d who p name stat =
      (d, dbGet (fs.dbs (d.state fs)) p.dirId name (fun _ => none) stat) := by
  obtain ⟨c, hc⟩ : ∃ c : Call, c = ⟨who, p, .lstat name⟩ := ⟨_, rfl⟩
  have hparent : c.parent = p := by rw [hc]
  have hid : c.dirId = p.dirId := by rw [hc]; rfl
  have hpermitted : fs.Permitted c := .inl ⟨by rw [hc]; rfl, by rw [hc]; exact hperm⟩
  have hserve : fs.serveRead ts c name stat d =
      (d, (fs.read (d.state fs) (Op.new c stat) name (calmAt ts)).1) :=
    alone_passed ts (hparent ▸ hdue) (by rw [hc]; rfl) (hid ▸ hserves) hpermitted rfl _
  have hreq : c.req = .lstat name := by rw [hc]
  rw [← hid]
  simp only [server, ← hc, hserve, Filesystem.read, Op.new, calmAt, hreq]
  rfl

/-- It is the entry. -/
theorem lstat_eq (ts : UInt64) {who : User} {p : LookupStat} (hdue : p.leaseDue = -1)
    (hserves : fs.Serves p.dirId name) (hread : fs.Readable d p.dirId name)
    (hperm : isLookupOk fs.options.skipPermChecks p who = true) (stat : Stat) :
    (fs.server ts).lstat d who p name stat =
      match view (d.db :: fs.readonlyDbs) p.dirId name with
      | none => (d, .err .notFound [], stat)
      | some st => (d, .ok, st) := by
  rw [lstat_dbGet ts hdue hserves hperm stat]
  obtain ⟨c, hc⟩ : ∃ c : Call, c = ⟨who, p, .lstat name⟩ := ⟨_, rfl⟩
  have hid : c.dirId = p.dirId := by rw [hc]; rfl
  rw [← hid] at hread ⊢
  cases hview : view (d.db :: fs.readonlyDbs) c.dirId name with
  | none => rw [dbGet_of_none hread hview]
  | some st => rw [dbGet_of_view hview]

/-- What a create takes of the counter, and puts into its stat. -/
theorem Creates.reserve (fs : Filesystem) (hc : Creates c name) (stat : Stat) (inoq : UInt64) :
    c.name? = some name ∧ c.isLookup = false ∧ c.inos = 1 ∧
      fs.reserve (Op.new c stat) inoq =
        { Op.new c stat with stat := fs.newStatOf c inoq, myino := inoq } ∧
      ∀ (op : Op) (st : Status), op.call = c →
        giveBack op st inoq = if st.isOk then inoq else tryReuseIno inoq op.myino 1 := by
  obtain ⟨who, parent, req⟩ := c
  rcases hc with ⟨mode, hreq⟩ | ⟨mode, hreq⟩
  · obtain rfl : req = .mkfle name mode := hreq
    refine ⟨rfl, rfl, rfl, rfl, fun op st hop => ?_⟩
    rw [giveBack, hop]
  · obtain rfl : req = .mkdir name mode := hreq
    refine ⟨rfl, rfl, rfl, rfl, fun op st hop => ?_⟩
    rw [giveBack, hop]

/-- **A create of what is there** fails, and gives its number back: nobody has drawn one
since, so the counter is what it was. -/
theorem serveCreate_exists (ts : UInt64) (hc : Creates c name) (hdue : c.parent.leaseDue = -1)
    (hserves : fs.Serves c.dirId name)
    (hperm : isDirWriteOk fs.options.skipPermChecks c.parent c.who = true)
    (hcoll : fs.options.skipNameCollisionChecks = false)
    (hview : view (d.db :: fs.readonlyDbs) c.dirId name = some st) (stat : Stat) :
    (fs.serveCreate ts c name stat d).1 = d ∧
      statusOf (fs.serveCreate ts c name stat d).2 = .err .alreadyExists name := by
  obtain ⟨hname, hlook, hinos, hreserve, hgive⟩ := hc.reserve fs stat (d.inoq + 1)
  obtain ⟨op, hop⟩ : ∃ op, op = fs.reserve (Op.new c stat) (d.inoq + 1) := ⟨_, rfl⟩
  have hcall : op.call = c := by rw [hop, hreserve]; rfl
  have hino : op.myino = d.inoq + 1 := by rw [hop, hreserve]
  have hcheck : fs.checkAndPut ts name { d with inoq := d.inoq + 1 } op =
      ({ d with inoq := d.inoq + 1 }, stop op (.err .alreadyExists name)) := by
    have hget := dbGet_of_view (d := { d with inoq := d.inoq + 1 }) hview op.stat
    rw [checkAndPut]
    simp only [checkName, hcoll, Bool.false_eq_true, if_false, hcall, calmAt, hget, Status.isOk_ok,
      if_true]
    rfl
  have halone : fs.alone ts op (fs.checkAndPut ts name { d with inoq := d.inoq + 1 })
      { d with inoq := d.inoq + 1 } = fs.checkAndPut ts name { d with inoq := d.inoq + 1 } op :=
    alone_passed ts hdue hname hserves (.inr ⟨hlook, hperm⟩) hcall _
  have hback : giveBack (stop op (.err .alreadyExists name)) (.err .alreadyExists name) (d.inoq + 1) =
      d.inoq := by
    rw [hgive (stop op _) _ hcall]
    simp only [Status.isOk_err, Bool.false_eq_true, if_false, stop, hino, tryReuseIno, if_true]
    exact UInt64.add_sub_cancel ..
  rw [serveCreate]
  simp only [hinos, ← hop, halone, hcheck]
  refine ⟨?_, rfl⟩
  show { d with inoq := giveBack _ _ _ } = d
  rw [show statusOf (stop op (.err .alreadyExists name)) = .err .alreadyExists name from rfl, hback]

/-- **A create of what is not there** puts it, under the next number. The record is
`newStatOf` the request: of its user, its mode and that number. -/
theorem serveCreate_new (ts : UInt64) (hc : Creates c name) (hdue : c.parent.leaseDue = -1)
    (hserves : fs.Serves c.dirId name)
    (hperm : isDirWriteOk fs.options.skipPermChecks c.parent c.who = true)
    (hcoll : fs.options.skipNameCollisionChecks = false) (hread : fs.Readable d c.dirId name)
    (hview : view (d.db :: fs.readonlyDbs) c.dirId name = none) (stat : Stat) :
    (fs.serveCreate ts c name stat d).1 =
        ⟨Function.update d.db (entryKey c.dirId name)
          (some (fs.newStatOf c (d.inoq + 1)).encodeTo), d.inoq + 1⟩ ∧
      statusOf (fs.serveCreate ts c name stat d).2 = .ok ∧
      (fs.serveCreate ts c name stat d).2.stat = fs.newStatOf c (d.inoq + 1) := by
  obtain ⟨hname, hlook, hinos, hreserve, -⟩ := hc.reserve fs stat (d.inoq + 1)
  obtain ⟨op, hop⟩ : ∃ op, op = fs.reserve (Op.new c stat) (d.inoq + 1) := ⟨_, rfl⟩
  have hcall : op.call = c := by rw [hop, hreserve]; rfl
  have hstat : op.stat = fs.newStatOf c (d.inoq + 1) := by rw [hop, hreserve]
  have hdone : putDone { op with pc := .putting name [] } [] =
      stop { op with pc := .putting name [] } .ok := by
    rw [putDone, hcall]
    rcases hc with ⟨mode, hreq⟩ | ⟨mode, hreq⟩
    · rw [hreq]
    · rw [hreq]
  have hcheck : fs.checkAndPut ts name { d with inoq := d.inoq + 1 } op =
      (⟨Function.update d.db (entryKey c.dirId name) (some op.stat.encodeTo), d.inoq + 1⟩,
        stop { op with pc := .putting name [] } .ok) := by
    have hget := dbGet_of_none (d := { d with inoq := d.inoq + 1 }) hread hview op.stat
    have hnext : (fs.checkName (Content.state fs { d with inoq := d.inoq + 1 }) op name []
        (calmAt ts)).1 = { op with pc := .putting name [] } := by
      simp only [checkName, hcoll, Bool.false_eq_true, if_false, hcall, calmAt, hget,
        Status.isOk_err, Status.isNotFound, if_true]
    have hput : put (Content.state fs { d with inoq := d.inoq + 1 }) { op with pc := .putting name [] }
        name [] (calmAt ts) = some ({ Content.state fs { d with inoq := d.inoq + 1 } with
          db := some (Function.update d.db (entryKey op.call.dirId name) (some op.stat.encodeTo)) },
          putDone { op with pc := .putting name [] } [],
          [.created op.call.dirId name op.stat]) := rfl
    rw [checkAndPut]
    simp only [hnext]
    rw [hput, hdone, hcall]
    rfl
  have halone : fs.alone ts op (fs.checkAndPut ts name { d with inoq := d.inoq + 1 })
      { d with inoq := d.inoq + 1 } = fs.checkAndPut ts name { d with inoq := d.inoq + 1 } op :=
    alone_passed ts hdue hname hserves (.inr ⟨hlook, hperm⟩) hcall _
  have hback : giveBack (stop { op with pc := .putting name [] } .ok) .ok (d.inoq + 1) = d.inoq + 1 :=
    rfl
  rw [serveCreate]
  simp only [hinos, ← hop, halone, hcheck]
  refine ⟨?_, rfl, hstat⟩
  rw [show statusOf (stop { op with pc := .putting name [] } .ok) = .ok from rfl, hback, hstat]

end Filesystem

namespace Cluster

open Filesystem (Content)

/-! ## The graph of the directories

The records of all servers are the edges of one graph, from directory ids to stats, in which
an edge belongs to the server of its name. A create is one new edge to a new node, so what
`Sound` says of the graph is kept. -/

/-- What the servers hold. -/
abbrev Contents : Type := Nat → Content

variable (cl : Cluster) (ts : UInt64)

/-- A request goes to the server that is selected for its name, and `f` is what its
method does there; how the request gets to it is not a matter of this. -/
def route {α : Type} (d : Contents) (id : DirId) (name : Slice)
    (f : Filesystem → Content → Content × α) : Contents × α :=
  let i := selectServer cl.xx cl.n id name
  let r := f (cl.servers i) (d i)
  (Function.update d i r.1, r.2)

/-- The methods of the servers, each at the server of the name. What a client gets of
their results is in `Site.Access.server`. -/
def asServer : FilesystemCli.Server Contents where
  lokup d who p name := cl.route d p.dirId name fun fs d => (fs.server ts).lokup d who p name
  mkfle d who p name mode stat :=
    cl.route d p.dirId name fun fs d => (fs.server ts).mkfle d who p name mode stat
  mkdir d who p name mode stat :=
    cl.route d p.dirId name fun fs d => (fs.server ts).mkdir d who p name mode stat
  lstat d who p name stat :=
    cl.route d p.dirId name fun fs d => (fs.server ts).lstat d who p name stat

/-- The dbs of the server of a name. -/
def dbsOf (d : Contents) (id : DirId) (name : Slice) : List Db :=
  (d (selectServer cl.xx cl.n id name)).db ::
    (cl.servers (selectServer cl.xx cl.n id name)).readonlyDbs

/-- What is named in a directory. -/
def entry (d : Contents) (id : DirId) (name : Slice) : Option Stat := view (cl.dbsOf d id name) id name

/-- What is named in a directory whose number fits a key. -/
def graph (d : Contents) (id : DirId) (name : Slice) : Option Stat :=
  if id.Fits then cl.entry d id name else none

/-- The id of a directory. -/
def kid (st : Stat) : Option DirId := if isDir st.fileMode then some st.dirId else none

/-- The id of the root. -/
def root : DirId := ⟨0, 0⟩

/-! ### Creating

A create adds one entry to one server and moves the counter of that server by one. -/

/-- The servers after a create. -/
def put (d : Contents) (id : DirId) (name : Slice) (st : Stat) : Contents :=
  let i := selectServer cl.xx cl.n id name
  Function.update d i ⟨Function.update (d i).db (entryKey id name) (some st.encodeTo), (d i).inoq + 1⟩

/-! ### Servers that are set up

The options a site needs, and what its contents have to be like: entries decode, numbers in use
have been drawn, and the directories that can be reached form a graph without two ways to one. -/

/-- How the servers of a site are set up: they check whether a name is there, give
numbers to files under dnode numbers of their own, and check no permission that a
client does not. -/
structure SetUp : Prop where
  collisions : ∀ i < cl.n, (cl.servers i).options.skipNameCollisionChecks = false
  dnodes : ∀ i < cl.n, ∀ j < cl.n,
    (cl.servers i).options.mydno = (cl.servers j).options.mydno → i = j
  perms : ∀ j, cl.skipPermChecks j = true → ∀ i < cl.n,
    (cl.servers i).options.skipPermChecks = true

/-- What the servers keep. -/
structure Sound (d : Contents) : Prop where
  readable : ∀ id name, (cl.servers (selectServer cl.xx cl.n id name)).Readable
    (d (selectServer cl.xx cl.n id name)) id name
  fits : ∀ id name st, id.Fits → cl.entry d id name = some st → isDir st.fileMode = true → st.dirId.Fits
  /-- a number that has been given to a directory is not above the counter -/
  used : ∀ i < cl.n, ∀ id name st, id.Fits → cl.entry d id name = some st →
    isDir st.fileMode = true → st.dnodeNo = (cl.servers i).options.mydno →
    st.inodeNo.toNat ≤ (d i).inoq.toNat
  /-- nothing is in the directories that are above it -/
  empty : ∀ i < cl.n, ∀ ino name, (⟨(cl.servers i).options.mydno, ino⟩ : DirId).Fits →
    (d i).inoq.toNat < ino.toNat → cl.entry d ⟨(cl.servers i).options.mydno, ino⟩ name = none
  unique : Unfolding.Unique kid (cl.graph d) root

variable {cl ts} {d : Contents} {id : DirId} {name : Slice} {st : Stat} {cs : List Slice} {i : Nat}

theorem graph_of_fits (hid : id.Fits) (name : Slice) : cl.graph d id name = cl.entry d id name :=
  if_pos hid

theorem root_fits : root.Fits := by decide

/-- What a path to a directory says of its id. -/
theorem Sound.walk (h : cl.Sound d) (hw : Unfolding.walk kid (cl.graph d) root cs = some id) :
    id.Fits ∧ ∀ i < cl.n, id.dno = (cl.servers i).options.mydno →
      id.ino.toNat ≤ (d i).inoq.toNat := by
  rcases List.eq_nil_or_concat cs with rfl | ⟨cs, c, rfl⟩
  · obtain rfl := Option.some.inj hw
    exact ⟨root_fits, fun i _ _ => Nat.zero_le _⟩
  · rw [List.concat_eq_append, Unfolding.walk_concat, Option.bind_eq_some_iff] at hw
    obtain ⟨parent, -, hw⟩ := hw
    obtain ⟨st, hst, hkid⟩ := Option.bind_eq_some_iff.mp hw
    rw [graph] at hst
    split at hst
    · rename_i hparent
      rw [kid] at hkid
      split at hkid
      · rename_i hdir
        obtain rfl := Option.some.inj hkid
        exact ⟨h.fits _ _ _ hparent hst hdir, fun i hi => h.used i hi _ _ _ hparent hst hdir⟩
      · cases hkid
    · cases hst

/-- **A create adds one entry.** It is written under its key at its server; the key of
another entry is another one, and another server's db is not touched. -/
theorem entry_put (hid : id.Fits) {id' : DirId} (hid' : id'.Fits) (name' : Slice) :
    cl.entry (cl.put d id name st) id' name' =
      if id' = id ∧ name' = name then some st else cl.entry d id' name' := by
  obtain ⟨i, hi⟩ : ∃ i, i = selectServer cl.xx cl.n id name := ⟨_, rfl⟩
  obtain ⟨j, hj⟩ : ∃ j, j = selectServer cl.xx cl.n id' name' := ⟨_, rfl⟩
  rw [entry, entry, dbsOf, dbsOf, put]
  rw [← hi, ← hj]
  by_cases hji : j = i
  · subst hji
    rw [Function.update_self, view_put]
    by_cases hsame : id' = id ∧ name' = name
    · rw [if_pos hsame, if_pos (by rw [hsame.1, hsame.2])]
    · rw [if_neg hsame, if_neg fun heq => hsame (entryKey_inj hid' hid heq)]
  · have hsame : ¬(id' = id ∧ name' = name) := by
      rintro ⟨rfl, rfl⟩
      exact hji (hj.trans hi.symm)
    rw [Function.update_of_ne hji, if_neg hsame]

theorem inoq_put (j : Nat) : (cl.put d id name st j).inoq =
    if j = selectServer cl.xx cl.n id name then (d j).inoq + 1 else (d j).inoq := by
  rw [put]
  by_cases hj : j = selectServer cl.xx cl.n id name
  · rw [if_pos hj, hj, Function.update_self]
  · rw [if_neg hj, Function.update_of_ne hj]

theorem toNat_inoq_put (j : Nat) : (cl.put d id name st j).inoq.toNat ≤ (d j).inoq.toNat + 1 := by
  rw [inoq_put]
  split
  · rw [UInt64.toNat_add]
    exact Nat.mod_le _ _
  · exact Nat.le_succ _

/-- What is new in the graph, and that its id is. -/
theorem Sound.insert (h : cl.Sound d)
    (hw : Unfolding.walk kid (cl.graph d) root cs = some id) (hfree : cl.entry d id name = none)
    (hi : i = selectServer cl.xx cl.n id name) (hroom : (d i).inoq.toNat + 1 < 2 ^ 56)
    (hdno : st.dnodeNo = (cl.servers i).options.mydno) (hino : st.inodeNo = (d i).inoq + 1) :
    Unfolding.Insert kid (cl.graph d) (cl.graph (cl.put d id name st)) root id name st := by
  have hid := (h.walk hw).1
  have hilt : i < cl.n := hi ▸ cl.selectServer_lt id name
  have hnum : st.inodeNo.toNat = (d i).inoq.toNat + 1 := by
    rw [hino, UInt64.toNat_add]
    exact Nat.mod_eq_of_lt (by simp; omega)
  constructor
  · rw [graph_of_fits hid, hfree]
  · rw [graph_of_fits hid, entry_put hid hid, if_pos ⟨rfl, rfl⟩]
  · intro k x hne
    by_cases hk : k.Fits
    · rw [graph_of_fits hk, graph_of_fits hk, entry_put hid hk, if_neg]
      rintro ⟨rfl, rfl⟩
      exact hne.elim (fun h => h rfl) (fun h => h rfl)
    · rw [graph, graph, if_neg hk, if_neg hk]
  · intro j hj
    rw [kid] at hj
    split at hj
    · rename_i hdir
      obtain rfl := Option.some.inj hj
      refine ⟨?_, ?_, ?_⟩
      · intro hroot
        have hzero : st.inodeNo.toNat = 0 := congrArg (fun id => id.ino.toNat) hroot
        omega
      · intro k x v hv hkid
        rw [graph] at hv
        split at hv
        · rename_i hk
          rw [kid] at hkid
          split at hkid
          · rename_i hvdir
            have heq := Option.some.inj hkid
            have hvino : v.inodeNo = st.inodeNo := congrArg DirId.ino heq
            have hvdno : v.dnodeNo = st.dnodeNo := congrArg DirId.dno heq
            have hle := h.used i hilt k x v hk hv hvdir (hvdno.trans hdno)
            rw [hvino] at hle
            omega
          · cases hkid
        · cases hv
      · intro x
        rw [graph]
        split
        · rename_i hfits
          have hdirid : st.dirId = ⟨(cl.servers i).options.mydno, st.inodeNo⟩ := by
            rw [Stat.dirId, hdno]
          rw [hdirid] at hfits ⊢
          exact h.empty i hilt _ _ hfits (by omega)
        · rfl
    · cases hj

/-- **A create keeps what the servers keep.** The new directory has an id of its own
because the counter has not passed its number, and no other server has its dnode number. -/
theorem Sound.put (hset : cl.SetUp) (h : cl.Sound d)
    (hw : Unfolding.walk kid (cl.graph d) root cs = some id) (hfree : cl.entry d id name = none)
    (hi : i = selectServer cl.xx cl.n id name) (hroom : (d i).inoq.toNat + 1 < 2 ^ 56)
    (hdno : st.dnodeNo = (cl.servers i).options.mydno) (hino : st.inodeNo = (d i).inoq + 1) :
    cl.Sound (cl.put d id name st) := by
  obtain ⟨hid, hown⟩ := h.walk hw
  have hilt : i < cl.n := hi ▸ cl.selectServer_lt id name
  have hnum : st.inodeNo.toNat = (d i).inoq.toNat + 1 := by
    rw [hino, UInt64.toNat_add]
    exact Nat.mod_eq_of_lt (by simp; omega)
  -- only the server that creates has its counter moved, by one
  have hinoq : ∀ j, (d j).inoq.toNat ≤ (cl.put d id name st j).inoq.toNat ∧
      (j = i → (cl.put d id name st j).inoq.toNat = (d i).inoq.toNat + 1) := by
    intro j
    rw [inoq_put, ← hi]
    by_cases hj : j = i
    · rw [if_pos hj, hj, ← hino, hnum]
      exact ⟨Nat.le_succ _, fun _ => rfl⟩
    · rw [if_neg hj]
      exact ⟨Nat.le_refl _, fun h => absurd h hj⟩
  constructor
  · intro id' name'
    have hread := h.readable id' name'
    rw [Filesystem.Readable] at hread ⊢
    rw [Cluster.put]
    by_cases hj : selectServer cl.xx cl.n id' name' = selectServer cl.xx cl.n id name
    · rw [hj] at hread ⊢
      rw [Function.update_self, view_put, firstMatch_put]
      split
      · exact fun _ => Option.some_ne_none _
      · exact hread
    · rw [Function.update_of_ne hj]
      exact hread
  · intro id' name' st' hid' hst' hdir
    rw [entry_put hid hid'] at hst'
    split at hst'
    · obtain rfl := Option.some.inj hst'
      show st.inodeNo.toNat < 2 ^ 56
      omega
    · exact h.fits id' name' st' hid' hst' hdir
  · intro j hj id' name' st' hid' hst' hdir hdno'
    obtain ⟨hle, hself⟩ := hinoq j
    rw [entry_put hid hid'] at hst'
    split at hst'
    · obtain rfl := Option.some.inj hst'
      have hji : j = i := hset.dnodes j hj i hilt (hdno'.symm.trans hdno)
      have := hself hji
      omega
    · exact (h.used j hj id' name' st' hid' hst' hdir hdno').trans hle
  · intro j hj ino name' hfits hlt
    obtain ⟨hle, hself⟩ := hinoq j
    rw [entry_put hid hfits]
    split
    · rename_i hsame
      obtain ⟨rfl, -⟩ := hsame
      have := hown j hj rfl
      -- the parent is an old directory: its inode is at most the counter, so it is not fresh
      exact absurd hlt (by dsimp only at this; omega)
    · exact h.empty j hj ino name' hfits (by omega)
  · exact (h.insert hw hfree hi hroom hdno hino).unique h.unique hw

/-! ## The tree

A path is followed along the edges. What is at its end is a node of the tree, with the
attributes of the stat; numbers of directories and servers are forgotten. -/

/-- What there is to know of a file or directory. -/
def attrOf (st : Stat) : Namespace.Attr :=
  ⟨st.fileMode, st.userId, st.groupId, st.fileSize, st.modifyTime, st.changeTime⟩

/-- What is at a path of a graph. -/
def nodeAt (G : DirId → Slice → Option Stat) (path : List Slice) : Option Namespace.Attr :=
  (Unfolding.node kid G root path).map attrOf

variable {G : DirId → Slice → Option Stat}

/-- A path leads to a directory if it is that of one. -/
theorem isDirOf_iff : Namespace.isDirOf (nodeAt G) cs = true ↔
    ∃ id, Unfolding.walk kid G root cs = some id := by
  rcases List.eq_nil_or_concat cs with rfl | ⟨cs, c, rfl⟩
  · exact iff_of_true rfl ⟨root, rfl⟩
  · rw [List.concat_eq_append, Namespace.isDirOf_concat, Unfolding.walk_eq_node, nodeAt]
    cases Unfolding.node kid G root (cs ++ [c]) with
    | none => exact iff_of_false Bool.false_ne_true fun ⟨_, h⟩ => by cases h
    | some st =>
      rw [Option.map_some, Option.any_some, Option.bind_some, kid]
      show isDir st.fileMode = true ↔ _
      split
      · rename_i hdir
        exact iff_of_true hdir ⟨_, rfl⟩
      · rename_i hdir
        exact iff_of_false hdir fun ⟨_, h⟩ => by cases h

/-- **The tree of the paths** from the root. -/
def treeOf (G : DirId → Slice → Option Stat) : Namespace.Tree where
  node := nodeAt G
  root := rfl
  closed path c a h := by
    obtain ⟨st, hst, -⟩ := Option.map_eq_some_iff.mp h
    exact isDirOf_iff.mpr (Unfolding.walk_dropLast hst)

/-- The tree of what the servers hold. -/
def tree (cl : Cluster) (d : Contents) : Namespace.Tree := treeOf (cl.graph d)

/-! ### New servers

Servers on empty dbs are sound, and their tree has only a root. -/

/-- The dbs of the servers hold nothing. -/
def Void (cl : Cluster) (d : Contents) : Prop :=
  ∀ i < cl.n, ∀ db ∈ (d i).db :: (cl.servers i).readonlyDbs, ∀ key, db key = none

theorem Void.match_eq (h : cl.Void d) (id : DirId) (name key : Slice) :
    firstMatch (cl.dbsOf d id name) key = none := by
  have hdbs := h _ (cl.selectServer_lt id name)
  rw [firstMatch, List.findSome?_eq_none_iff]
  exact fun db hdb => hdbs db hdb key

theorem Void.entry (h : cl.Void d) (id : DirId) (name : Slice) : cl.entry d id name = none := by
  rw [Cluster.entry, view, h.match_eq, Option.bind_none]

theorem Void.graph (h : cl.Void d) : cl.graph d = fun _ _ => none := by
  funext id name
  rw [Cluster.graph, h.entry, ite_self]

theorem Void.walk (h : cl.Void d) (hw : Unfolding.walk kid (cl.graph d) root cs = some id) : cs = [] := by
  rcases List.eq_nil_or_concat cs with rfl | ⟨cs, c, rfl⟩
  · rfl
  · rw [List.concat_eq_append, Unfolding.walk_concat, h.graph] at hw
    obtain ⟨_, -, hw⟩ := Option.bind_eq_some_iff.mp hw
    cases hw

/-- **New servers** keep what they should. So a site that starts with empty dbs is one that
results about sound contents apply to. -/
theorem Void.sound (h : cl.Void d) : cl.Sound d where
  readable id name hne := absurd (h.match_eq id name _) hne
  fits id name st _ hst := by rw [h.entry] at hst; cases hst
  used i _ id name st _ hst := by rw [h.entry] at hst; cases hst
  empty i _ ino name _ _ := h.entry _ name
  unique hp hq := (h.walk hp).trans (h.walk hq).symm

/-- There is nothing but the root. -/
theorem Void.tree (h : cl.Void d) : cl.tree d = .empty := by
  refine Namespace.Tree.ext (funext fun path => ?_)
  show (Unfolding.node kid (cl.graph d) root path).map attrOf = none
  rcases List.eq_nil_or_concat path with rfl | ⟨cs, c, rfl⟩
  · rfl
  · rw [List.concat_eq_append, Unfolding.node_concat, h.graph]
    cases Unfolding.walk kid (fun _ _ => none) root cs with
    | none => rfl
    | some _ => rfl

/-! ## Requests

Each request on one name, as a function of what the servers hold. A create needs a number of the
server it goes to, which the server has not given to anything else; a lookup needs nothing. The
servers check the same permissions the client has checked, or none, so a request that has been
sent is not refused. -/

/-- The server of a name answers for it. -/
theorem serves_selected (cl : Cluster) (id : DirId) (name : Slice) :
    (cl.servers (selectServer cl.xx cl.n id name)).Serves id name :=
  (serves_iff (cl.selectServer_lt id name)).mpr rfl

variable {who : User} {p : LookupStat} {stat : Stat} {mode : UInt32} {j : Nat}

/-- The servers let a user do what the client does. -/
theorem SetUp.allowsAt (hset : cl.SetUp) {usr grp oth : UInt32}
    (h : isModeOk (cl.skipPermChecks j) usr grp oth p who = true) {i : Nat} (hi : i < cl.n) :
    isModeOk (cl.servers i).options.skipPermChecks usr grp oth p who = true := by
  cases hskip : cl.skipPermChecks j with
  | true =>
    rw [hset.perms j hskip i hi]
    rfl
  | false =>
    rw [hskip] at h
    cases (cl.servers i).options.skipPermChecks with
    | true => rfl
    | false => exact h

theorem SetUp.allows (hset : cl.SetUp) {usr grp oth : UInt32}
    (h : isModeOk (cl.skipPermChecks j) usr grp oth p who = true) (id : DirId) (name : Slice) :
    isModeOk (cl.servers (selectServer cl.xx cl.n id name)).options.skipPermChecks usr grp oth p who =
      true := hset.allowsAt h (cl.selectServer_lt id name)

/-- **`Lokup`** returns what is in the directory. -/
theorem asServer_lokup (hset : cl.SetUp) (h : cl.Sound d) (hdue : p.leaseDue = -1)
    (hok : isLookupOk (cl.skipPermChecks j) p who = true) :
    (cl.asServer ts).lokup d who p name = (d, Filesystem.found (cl.entry d p.dirId name)) := by
  have hlokup := Filesystem.lokup_eq ts hdue (cl.serves_selected p.dirId name)
    (h.readable p.dirId name) (hset.allows hok p.dirId name)
  rw [asServer]
  dsimp only
  rw [route, hlokup, Function.update_eq_self]
  rfl

/-- **`Lstat`** returns it too. -/
theorem asServer_lstat (hset : cl.SetUp) (h : cl.Sound d) (hdue : p.leaseDue = -1)
    (hok : isLookupOk (cl.skipPermChecks j) p who = true) :
    (cl.asServer ts).lstat d who p name stat =
      match cl.entry d p.dirId name with
      | none => (d, .err .notFound [], stat)
      | some st => (d, .ok, st) := by
  have hlstat := Filesystem.lstat_eq ts hdue (cl.serves_selected p.dirId name)
    (h.readable p.dirId name) (hset.allows hok p.dirId name) stat
  have hview : cl.entry d p.dirId name = view ((d (selectServer cl.xx cl.n p.dirId name)).db ::
    (cl.servers (selectServer cl.xx cl.n p.dirId name)).readonlyDbs) p.dirId name := rfl
  rw [← hview] at hlstat
  rw [asServer]
  dsimp only
  rw [route, hlstat]
  cases cl.entry d p.dirId name with
  | none => rw [Function.update_eq_self]
  | some st => rw [Function.update_eq_self]

/-- A create, as `Mkfle` or `Mkdir` of the server of the name return it. -/
def createAt (cl : Cluster) (ts : UInt64) (d : Contents) (c : Call) (name : Slice) (stat : Stat) :
    Contents × Status × Stat :=
  cl.route d c.dirId name fun fs d =>
    let r := fs.serveCreate ts c name stat d
    (r.1, Filesystem.statusOf r.2, r.2.stat)

theorem asServer_mkfle : (cl.asServer ts).mkfle d who p name mode stat =
    cl.createAt ts d ⟨who, p, .mkfle name mode⟩ name stat := rfl

/-- **A create** fails if the name is there; if not it adds an entry with the next
number of the server. -/
theorem createAt_eq (ts : UInt64) (stat : Stat) (hset : cl.SetUp) (h : cl.Sound d) {c : Call} (hc : Filesystem.Creates c name)
    (hdue : c.parent.leaseDue = -1)
    (hok : isDirWriteOk (cl.skipPermChecks j) c.parent c.who = true)
    (hi : i = selectServer cl.xx cl.n c.dirId name) :
    match cl.entry d c.dirId name with
    | none => cl.createAt ts d c name stat =
        (cl.put d c.dirId name ((cl.servers i).newStatOf c ((d i).inoq + 1)), .ok,
          (cl.servers i).newStatOf c ((d i).inoq + 1))
    | some _ => ∃ stat', cl.createAt ts d c name stat = (d, .err .alreadyExists name, stat') := by
  have hcoll := hset.collisions i (hi ▸ cl.selectServer_lt ..)
  have hserves := cl.serves_selected c.dirId name
  have hread := h.readable c.dirId name
  have hperm := hset.allows hok c.dirId name
  have hview : cl.entry d c.dirId name = view ((d (selectServer cl.xx cl.n c.dirId name)).db ::
    (cl.servers (selectServer cl.xx cl.n c.dirId name)).readonlyDbs) c.dirId name := rfl
  rw [← hi] at hserves hread hperm hview
  cases hentry : cl.entry d c.dirId name with
  | none =>
    obtain ⟨hcontent, hstatus, hstat⟩ := Filesystem.serveCreate_new ts hc hdue hserves hperm
      hcoll hread (hview.symm.trans hentry) stat
    rw [createAt, route, put, ← hi]
    dsimp only
    rw [hcontent, hstatus, hstat]
  | some st =>
    obtain ⟨hcontent, hstatus⟩ := Filesystem.serveCreate_exists ts hc hdue hserves hperm hcoll
      (hview.symm.trans hentry) stat
    refine ⟨((cl.servers i).serveCreate ts c name stat (d i)).2.stat, ?_⟩
    rw [createAt, route, ← hi]
    dsimp only
    rw [hcontent, hstatus, Function.update_eq_self]

/-! ## What leases know

A regular lease is a stat of a directory, and the directory is still there when the lease is
used, since entries stay. So following leases is following the directories themselves. -/

/-- What a regular lease knows, of the server of its name. -/
def Leased (cl : Cluster) (d : Contents) (id : DirId) (name : Slice) (mode : LokupMode)
    (rep : LookupStat) : Prop :=
  (cl.servers (selectServer cl.xx cl.n id name)).Entry (d (selectServer cl.xx cl.n id name)) id name
    mode rep

theorem Leased.entry {mode : LokupMode} {rep : LookupStat} (h : cl.Leased d id name mode rep) :
    ∃ st, cl.entry d id name = some st ∧ isDir st.fileMode = true ∧ rep = .copyFrom st (-1) := by
  obtain ⟨-, -, st, hview, hdir, hrep⟩ := h
  exact ⟨st, hview, hdir, hrep⟩

/-- The requests to a server keep what is known, whichever server it is. -/
theorem Leased.route {α : Type} {mode : LokupMode} {rep : LookupStat} {id' : DirId} {name' : Slice}
    (h : cl.Leased d id name mode rep) {f : Filesystem → Content → Content × α}
    (hf : ∀ {d id name mode rep}, (cl.servers (selectServer cl.xx cl.n id' name')).Entry d id name mode rep →
      (cl.servers (selectServer cl.xx cl.n id' name')).Entry
        (f (cl.servers (selectServer cl.xx cl.n id' name')) d).1 id name mode rep) :
    cl.Leased (cl.route d id' name' f).1 id name mode rep := by
  rw [Leased, Cluster.route]
  dsimp only
  by_cases hsame : selectServer cl.xx cl.n id name = selectServer cl.xx cl.n id' name'
  · rw [Leased, hsame] at h
    rw [hsame, Function.update_self]
    exact hf h
  · rw [Function.update_of_ne hsame]
    exact h

theorem Leased.createAt (hset : cl.SetUp) {mode : LokupMode} {rep : LookupStat}
    (h : cl.Leased d id name mode rep) (c : Call) (name' : Slice) (stat : Stat) :
    cl.Leased (cl.createAt ts d c name' stat).1 id name mode rep :=
  h.route fun h => Filesystem.serveCreate_entry
    (hset.collisions _ (cl.selectServer_lt c.dirId name')) h c name' stat

/-- **The requests keep what leases know.** A lease says that an entry is there with
certain attributes, and entries are neither removed nor changed. -/
theorem keeps_leased (hset : cl.SetUp) (opts : FilesystemCli.Options) :
    FilesystemCli.Client.Keeps opts (cl.asServer ts) (fun mode => mode = .kRegular) cl.Leased := by
  have hone : ∀ id name, FilesystemCli.Client.Keeps opts
      ((cl.servers (selectServer cl.xx cl.n id name)).server ts) (fun mode => mode = .kRegular)
      (cl.servers (selectServer cl.xx cl.n id name)).Entry := fun id name =>
    Filesystem.keeps_entry opts (hset.collisions _ (cl.selectServer_lt id name))
  constructor
  · exact fun h => h.route (hone _ _).lokup
  · intro d who p name mode rep hmode hok h
    have hfound := (hone p.dirId name).found hmode hok (d := d (selectServer cl.xx cl.n p.dirId name)) h
    rw [Leased, asServer]
    dsimp only
    rw [Cluster.route]
    dsimp only
    rw [Function.update_self]
    exact hfound
  · intro d who p name m stat id k mode rep h
    exact h.createAt hset ⟨who, p, .mkfle name m⟩ name stat
  · intro d who p name m stat id k mode rep h
    exact h.createAt hset ⟨who, p, .mkdir name m⟩ name stat
  · exact fun h => h.route (hone _ _).lstat

end Cluster

end DeltaFs
