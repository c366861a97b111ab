import DeltaFs.Client
import DeltaFs.FsLog

/-!
# A filesystem that serves one request at a time

The sections of an operation of a `Filesystem`, one after the other with nobody
else at work, as a server for a client. The names of the sections are those of
`Filesystem.advance`; the directory blocks and the ways they lock do not matter
to an operation that is alone.

`Entry` says what a regular lease knows: the directory entry it was made of.
The requests keep it when creates check for collisions.

That a server is linearizable with many requests at once is shown in `Linear`. It is why
results about what clients see can be stated with a server that serves them one by one.
-/

namespace DeltaFs

open FilesystemCli

namespace Filesystem

/-- What is left of a filesystem between two requests: its db and `inoq_`. -/
structure Content where
  db : Db
  inoq : UInt64

/-- The state a request finds. -/
def Content.state (fs : Filesystem) (d : Content) : State :=
  { fs.start (some d.db) with inoq := d.inoq }

/-- The environment of a request at the time `ts`; the dbs do not fail. -/
def calmAt (ts : UInt64) : Env := ⟨ts, fun _ => none, none, .ok, fun _ => none⟩

/-- The status an operation returns once it has set it. -/
def statusOf (op : Op) : Status :=
  match op.pc with
  | .unlocking s => s
  | .leaving s => s
  | .done s => s
  | _ => .err .assertionFailed []

variable (fs : Filesystem) (ts : UInt64)

/-- The checks before the db is read, and what follows them. -/
def alone (op : Op) (f : Op → Content × Op) (d : Content) : Content × Op :=
  match fs.refusal op.call ts with
  | some s => (d, { op with pc := .leaving s })
  | none =>
    if fs.isPartitionOk op.call (fs.index op.call.dirId) then f op
    else (d, { op with pc := .leaving (.err .accessDenied (str "Wrong dir partition")) })

/-- `Lstat` and `Lokup`. -/
def serveRead (c : Call) (name : Slice) (stat : Stat) (d : Content) : Content × Op :=
  fs.alone ts (Op.new c stat) (fun op => (d, (fs.read (d.state fs) op name (calmAt ts)).1)) d

/-- `CheckAndPut`. -/
def checkAndPut (name : Slice) (d : Content) (op : Op) : Content × Op :=
  let op := (fs.checkName (d.state fs) op name [] (calmAt ts)).1
  match op.pc with
  | .putting name rest =>
    match put (d.state fs) op name rest (calmAt ts) with
    | none => (d, op)
    | some (s, op, _) => ({ d with db := s.db.getD d.db }, op)
  | _ => (d, op)

/-- `Mkfle` and `Mkdir`. -/
def serveCreate (c : Call) (name : Slice) (stat : Stat) (d : Content) : Content × Op :=
  let d := { d with inoq := d.inoq + c.inos }
  let (d, op) := fs.alone ts (fs.reserve (Op.new c stat) d.inoq) (fs.checkAndPut ts name d) d
  ({ d with inoq := giveBack op (statusOf op) d.inoq }, op)

/-- The stat a lookup starts from. -/
def lokupStat : Stat := ⟨0, 0, 0, 0, 0, 0, 0, 0, 0⟩

/-- The filesystem as the server of a client. -/
def server : Server Content where
  lokup d who p name :=
    let (d, op) := fs.serveRead ts ⟨who, p, .lokup name⟩ name lokupStat d
    match statusOf op, op.look with
    | .ok, some look => (d, .ok look)
    | .ok, none => (d, .error (.assertionFailed, []))
    | .err c msg, _ => (d, .error (c, msg))
  mkfle d who p name mode stat :=
    let (d, op) := fs.serveCreate ts ⟨who, p, .mkfle name mode⟩ name stat d
    (d, statusOf op, op.stat)
  mkdir d who p name mode stat :=
    let (d, op) := fs.serveCreate ts ⟨who, p, .mkdir name mode⟩ name stat d
    (d, statusOf op, op.stat)
  lstat d who p name stat :=
    let (d, op) := fs.serveRead ts ⟨who, p, .lstat name⟩ name stat d
    (d, statusOf op, op.stat)

/-- What a regular lease knows. -/
def Entry (d : Content) (id : DirId) (name : Slice) (mode : LokupMode) (rep : LookupStat) : Prop :=
  mode = .kRegular ∧ fs.isDirPartitionOk (fs.index id) name = true ∧
    ∃ st, view (d.db :: fs.readonlyDbs) id name = some st ∧ isDir st.fileMode = true ∧
      rep = LookupStat.copyFrom st (-1)

variable {fs ts} {d : Content} {id : DirId} {name : Slice} {mode : LokupMode} {rep : LookupStat}
  {p : LookupStat}

/-- **A read without faults** returns the entry the chain holds. -/
theorem getFirst_of_view {dbs : List Db} {st : Stat} (h : view dbs id name = some st) (i : Nat)
    (r : Status × Stat) : getFirst id name (fun _ => none) i dbs r = (.ok, st) := by
  induction dbs generalizing i r with
  | nil => cases h
  | cons db dbs ih =>
    obtain ⟨s, stat⟩ := r
    rw [getFirst]
    cases hdb : db (entryKey id name) with
    | none =>
      have hview : view dbs id name = some st := by
        rw [← h, view, view, firstMatch_cons, hdb, Option.none_or]
      simp only [Db.get, hdb, Status.isNotFound, if_true]
      exact ih hview _ _
    | some value =>
      rw [view, firstMatch_cons, hdb, Option.some_or, Option.bind_some] at h
      obtain ⟨x, hdec, rfl⟩ := Option.map_eq_some_iff.mp h
      simp only [Db.get, hdb, hdec]
      rfl

theorem view_of_dbGet {dbs : List Db} {faults : Nat → Option Slice} {stat st : Stat}
    (hne : dbs ≠ []) (h : dbGet dbs id name faults stat = (.ok, st)) :
    view dbs id name = some st := by
  have hr := dbGet_result hne id name faults stat
  rw [h] at hr
  cases hr with
  | found hv => exact hv

theorem dbs_state (d : Content) : fs.dbs (d.state fs) = d.db :: fs.readonlyDbs := rfl

/-- The largest due never passes. -/
theorem isLeaseOk_of_due (hdue : p.leaseDue = -1) : fs.isLeaseOk p ts = true := by
  rw [isLeaseOk, hdue]
  split
  · rfl
  · refine decide_eq_true (UInt64.le_iff_toNat_le.mpr ?_)
    have hmax : (-1 : UInt64).toNat = 18446744073709551615 := by decide
    have hlt := ts.toNat_lt
    omega

/-- A lookup of an entry by a user who may look it up. -/
theorem lokup_entry (h : fs.Entry d p.dirId name mode rep) {who : User}
    (hwho : isLookupOk fs.options.skipPermChecks p who = true) (hdue : p.leaseDue = -1) :
    (fs.server ts).lokup d who p name = (d, .ok rep) := by
  obtain ⟨-, hpart, st, hview, hdir, rfl⟩ := h
  have hrefusal : fs.refusal ⟨who, p, .lokup name⟩ ts = none := by
    rw [refusal]
    simp only [isLeaseOk_of_due hdue, Bool.not_true, Bool.false_eq_true, if_false, Call.isLookup, if_true, hwho]
  have hget : dbGet (fs.dbs (d.state fs)) p.dirId name (fun _ => none) lokupStat = (.ok, st) :=
    getFirst_of_view hview 0 _
  simp only [server, serveRead, alone, Op.new, hrefusal, isPartitionOk, Call.name?, Call.dirId,
    hpart, if_true, Filesystem.read, calmAt, hget, Status.isOk_ok, hdir, statusOf]

/-- The filesystem refuses the users the client refuses. -/
theorem lokup_refused {who : User} (hdue : p.leaseDue = -1)
    (hwho : isLookupOk fs.options.skipPermChecks p who = false) :
    ((fs.server ts).lokup d who p name).2 = .error (.accessDenied, str "No dir x perm") := by
  have hrefusal : fs.refusal ⟨who, p, .lokup name⟩ ts =
      some (.err .accessDenied (str "No dir x perm")) := by
    rw [refusal]
    simp only [isLeaseOk_of_due hdue, Bool.not_true, Bool.false_eq_true, if_false, Call.isLookup,
      if_true, hwho]
  simp only [server, serveRead, alone, Op.new, hrefusal, statusOf]

/-- A lookup beneath a lease that does not expire does not depend on the
time. -/
theorem lokup_time {who : User} (hdue : p.leaseDue = -1) (ts ts' : UInt64) :
    (fs.server ts).lokup d who p name = (fs.server ts').lokup d who p name := by
  have hrefusal : fs.refusal ⟨who, p, .lokup name⟩ ts = fs.refusal ⟨who, p, .lokup name⟩ ts' := by
    rw [refusal, refusal, isLeaseOk_of_due hdue, isLeaseOk_of_due hdue]
  simp only [server, serveRead, alone, Op.new, hrefusal]
  rfl

/-- A lookup that succeeds returns an entry. -/
theorem entry_of_lokup {who : User} (h : ((fs.server ts).lokup d who p name).2 = .ok rep) :
    fs.Entry d p.dirId name .kRegular rep := by
  simp only [server, serveRead, alone, Op.new] at h
  cases hrefusal : fs.refusal ⟨who, p, .lokup name⟩ ts with
  | some st =>
    obtain ⟨msg, hst⟩ := refusal_code hrefusal
    cases hst with
    | inl hst => subst hst; simp only [hrefusal, statusOf] at h; cases h
    | inr hst => subst hst; simp only [hrefusal, statusOf] at h; cases h
  | none =>
    simp only [hrefusal] at h
    cases hpart : fs.isPartitionOk ⟨who, p, .lokup name⟩
      (fs.index (Call.dirId ⟨who, p, .lokup name⟩)) with
    | false => simp only [hpart, Bool.false_eq_true, if_false, statusOf] at h; cases h
    | true =>
      simp only [hpart, if_true, Filesystem.read, calmAt] at h
      cases hget : dbGet (fs.dbs (d.state fs)) (Call.dirId ⟨who, p, .lokup name⟩) name
        (fun _ => none) lokupStat with
      | mk r st =>
        simp only [hget] at h
        cases r with
        | err c msg => simp only [Status.isOk_err, Bool.false_eq_true, if_false, statusOf] at h; cases h
        | ok =>
          simp only [Status.isOk_ok, if_true] at h
          cases hdir : isDir st.fileMode with
          | false => simp only [hdir, Bool.false_eq_true, if_false, statusOf] at h; cases h
          | true =>
            simp only [hdir, if_true, statusOf] at h
            cases h
            exact ⟨rfl, hpart, st, view_of_dbGet (List.cons_ne_nil _ _) hget, hdir, rfl⟩

/-- Lookups change nothing. -/
theorem lokup_content (d : Content) (who : User) (p : LookupStat) (name : Slice) :
    ((fs.server ts).lokup d who p name).1 = d := by
  have hread : (fs.serveRead ts ⟨who, p, .lokup name⟩ name lokupStat d).1 = d := by
    rw [serveRead, alone]
    split
    · rfl
    · split
      · rfl
      · rfl
  simp only [server]
  split
  · exact hread
  · exact hread
  · exact hread

theorem lstat_content (d : Content) (who : User) (p : LookupStat) (name : Slice) (stat : Stat) :
    ((fs.server ts).lstat d who p name stat).1 = d := by
  show (fs.serveRead ts ⟨who, p, .lstat name⟩ name stat d).1 = d
  rw [serveRead, alone]
  split
  · rfl
  · split
    · rfl
    · rfl

/-- **A create** that checks for collisions overwrites no entry. It finds the name first, if
it is there. -/
theorem checkAndPut_entry (hcoll : fs.options.skipNameCollisionChecks = false)
    (h : fs.Entry d id name mode rep) (x : Slice) (op : Op) :
    fs.Entry (fs.checkAndPut ts x d op).1 id name mode rep := by
  have hdone : ∀ o : Op, (∀ y rest, o.pc ≠ .putting y rest) →
      (fs.checkName (d.state fs) op x [] (calmAt ts)).1 = o →
      (fs.checkAndPut ts x d op).1 = d := by
    intro o hpc ho
    rw [checkAndPut]
    simp only [ho]
  have hput : (fs.checkName (d.state fs) op x [] (calmAt ts)).1 = { op with pc := .putting x [] } →
      (fs.checkAndPut ts x d op).1 =
        { d with db := Function.update d.db (entryKey op.call.dirId x) (some op.stat.encodeTo) } := by
    intro ho
    rw [checkAndPut]
    simp only [ho]
    rfl
  have hget := dbGet_result (List.cons_ne_nil d.db fs.readonlyDbs) op.call.dirId x
    (calmAt ts).faults op.stat
  generalize hr : dbGet (d.db :: fs.readonlyDbs) op.call.dirId x (calmAt ts).faults op.stat = r
    at hget
  cases hget with
  | found hview =>
    rw [hdone (stop op (.err .alreadyExists x)) (fun _ _ h => by cases h)]
    · exact h
    · simp only [checkName, hcoll, Bool.false_eq_true, if_false, dbs_state, hr, Status.isOk_ok,
        if_true]
  | corruption =>
    rw [hdone (stop op (.err .corruption [])) (fun _ _ h => by cases h)]
    · exact h
    · simp only [checkName, hcoll, Bool.false_eq_true, if_false, dbs_state, hr, Status.isOk_err,
        Status.isNotFound]
  | @ioError k msg stat hfault hmsg =>
    rw [hdone (stop op (.err .ioError msg)) (fun _ _ h => by cases h)]
    · exact h
    · simp only [checkName, hcoll, Bool.false_eq_true, if_false, dbs_state, hr, Status.isOk_err,
        Status.isNotFound]
  | notFound hnone =>
    rw [hput]
    · obtain ⟨hmode, hpart, st, hview, hrest⟩ := h
      refine ⟨hmode, hpart, st, ?_, hrest⟩
      rw [view_put]
      split
      · -- the record that was put was not there before
        rename_i hkey
        rw [view, hkey, hnone] at hview
        cases hview
      · exact hview
    · simp only [checkName, hcoll, Bool.false_eq_true, if_false, dbs_state, hr, Status.isOk_err,
        Status.isNotFound, if_true]

theorem serveCreate_entry (hcoll : fs.options.skipNameCollisionChecks = false)
    (h : fs.Entry d id name mode rep) (c : Call) (x : Slice) (stat : Stat) :
    fs.Entry (fs.serveCreate ts c x stat d).1 id name mode rep := by
  have halone : fs.Entry (fs.alone ts (fs.reserve (Op.new c stat) (d.inoq + c.inos))
      (fs.checkAndPut ts x { d with inoq := d.inoq + c.inos })
      { d with inoq := d.inoq + c.inos }).1 id name mode rep := by
    rw [alone]
    split
    · exact h
    · split
      · exact checkAndPut_entry hcoll (d := { d with inoq := d.inoq + c.inos }) h x _
      · exact h
  exact halone

/-- **The requests keep every entry.** A create puts a record where there is none, when
collisions are checked, and the other requests write nothing. -/
theorem keeps_entry (opts : Options) (hcoll : fs.options.skipNameCollisionChecks = false) :
    Client.Keeps opts (fs.server ts) (fun mode => mode = .kRegular) fs.Entry where
  lokup h := by
    rw [lokup_content]
    exact h
  found {d who p name mode rep} hmode _ h := by
    rw [lokup_content, hmode]
    exact entry_of_lokup h
  mkfle h := serveCreate_entry hcoll h _ _ _
  mkdir h := serveCreate_entry hcoll h _ _ _
  lstat h := by
    rw [lstat_content]
    exact h

end Filesystem

end DeltaFs
