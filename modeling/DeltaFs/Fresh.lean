import DeltaFs.Inodes
import DeltaFs.Placement

/-!
# Fresh directories

A directory is its dnode and inode number: what is created beneath it is stored
under these. The numbers come from a counter in memory, which starts at zero
again whenever a `Filesystem` is attached to a db. As long as no `Mkdir` draws a
number that an earlier `Filesystem` has given to a directory of the same db, and
requests name directories that exist as their parents, directories have ids of
their own, and a new one is empty.

The invariant (`Fresh`) says where each directory has its number from: the db had it when
it was attached, or a `Mkdir` of this run has drawn it. A number that is drawn later is
neither, since the counter has not passed it yet; so nothing can be beneath the directory
when it is made. Requests that name directories no one has made are what the condition
`Genuine` leaves out, since the server does not check parents.
-/

namespace DeltaFs

open Linearization TransitionSystem

/-! ## Ids and numbers

The id of a directory is in the record of its entry: `Recorded` are the directories of the dbs,
`Made` those of the run. The steps of a run are `Genuine` if creates name a parent that can be
there and no `Mkdir` draws a number in use. -/

/-- The id of the directory a stat is of. -/
def Stat.dirId (stat : Stat) : DirId := ⟨stat.dnodeNo, stat.inodeNo⟩

/-- Whether a call makes a directory. -/
def Call.isMkdir (c : Call) : Bool :=
  match c.req with
  | .mkdir _ _ => true
  | _ => false

/-- Something is stored beneath a directory. -/
def Holds (dbs : List Db) (id : DirId) : Prop := ∃ x, firstMatch dbs (entryKey id x) ≠ none

/-- A directory is recorded: it is what a lookup of some name returns. -/
def Recorded (dbs : List Db) (id : DirId) : Prop :=
  ∃ (parent : DirId) (x : Slice) (st : Stat), parent.Fits ∧ view dbs parent x = some st ∧
    isDir st.fileMode = true ∧ st.dirId = id

/-- A directory has been made in a run. -/
def Made (tr : List FsEvent) (id : DirId) : Prop :=
  ∃ i parent x st, .pt i (.created parent x st) ∈ tr ∧ isDir st.fileMode = true ∧ st.dirId = id

theorem Made.mono {tr : List FsEvent} {id : DirId} (h : Made tr id) (evs : List FsEvent) :
    Made (tr ++ evs) id := by
  obtain ⟨i, parent, x, st, hpt, hdir, hid⟩ := h
  exact ⟨i, parent, x, st, List.mem_append_left _ hpt, hdir, hid⟩

namespace Filesystem

variable {fs : Filesystem} {C : State → Label → Prop} {s s' : State} {i : Nat} {op op' : Op}
  {e : Env} {tr evs : List FsEvent} {db₀ : Db}

/-- The dbs a server was opened on. -/
def opened (fs : Filesystem) (db₀ : Db) : List Db := db₀ :: fs.readonlyDbs

/-- The parents a create may name: the root, directories of other servers, and
those that are recorded. -/
def Known (fs : Filesystem) (s : State) (id : DirId) : Prop :=
  id.dno ≠ fs.options.mydno ∨ id.ino = 0 ∨ Recorded (fs.dbs s) id

/-- Steps without bulk insertions, on directories whose number fits a key, in
which creates name known parents, the counter stays below what a key holds, and
a `Mkdir` draws no number that was in use when the server was opened. -/
def Genuine (fs : Filesystem) (db₀ : Db) (s : State) : Label → Prop
  | .call c _ => c.Plain ∧ (c.isLookup = false → fs.Known s c.dirId)
  | .advance i _ => ∀ op ∈ s.ops[i]?, op.pc = .entered →
      s.inoq.toNat + op.call.inos.toNat < 2 ^ 56 ∧
        (op.call.isMkdir = true →
          let id := ⟨fs.options.mydno, s.inoq + 1⟩
          ¬Holds (fs.opened db₀) id ∧ ¬Recorded (fs.opened db₀) id)

theorem Genuine.noWrap {l : Label} (h : fs.Genuine db₀ s l) : NoWrap s l := by
  cases l with
  | call c stat => trivial
  | advance i e =>
    intro op hop hpc
    have := (h op hop hpc).1
    omega

/-! ## Stats of new entries

What a create stores is made in its first section and does not change its type afterwards, so a
directory is only ever made by `Mkdir`. The inode number is the one that was drawn; for a batch
it is set again before each put. -/

theorem isDir_newStat (type mode : UInt32) :
    isDir (type ||| (mode &&& accessPerms)) = isDir type := by
  have hsplit : (type ||| (mode &&& accessPerms)) &&& sIfmt =
      (type &&& sIfmt) ||| (mode &&& accessPerms &&& sIfmt) :=
    UInt32.toBitVec_inj.mp BitVec.and_or_distrib_right
  have hzero : accessPerms &&& sIfmt = 0 := by decide
  rw [isDir, isDir, hsplit, UInt32.and_assoc, hzero, UInt32.and_zero, UInt32.or_zero]

/-- What is known of the stat a create stores. -/
def Typed (fs : Filesystem) (db₀ : Db) (op : Op) : Prop :=
  op.pc ≠ .entered → op.call.isLookup = false → op.call.isBukin = false →
    op.stat.dnodeNo = fs.options.mydno ∧ isDir op.stat.fileMode = op.call.isMkdir ∧
      (op.call.isMkdir = true →
        let id := ⟨fs.options.mydno, op.myino⟩
        id.Fits ∧ ¬Holds (fs.opened db₀) id ∧ ¬Recorded (fs.opened db₀) id)

theorem typed_acquire (hC : s.inoq.toNat + op.call.inos.toNat < 2 ^ 56 ∧
      (op.call.isMkdir = true →
        let id := ⟨fs.options.mydno, s.inoq + 1⟩
        ¬Holds (fs.opened db₀) id ∧ ¬Recorded (fs.opened db₀) id)) (p : Option Nat) :
    fs.Typed db₀ { fs.reserve op (s.inoq + op.call.inos) with dir := p, pc := .acquired } := by
  obtain ⟨⟨who, parent, req⟩, pc, dir, stat, look, myino, startino, n, m, input⟩ := op
  intro _ hlook hbukin
  cases req with
  | bukin d => cases hbukin
  | mkfls namearr mode n =>
    refine ⟨rfl, ?_, fun h => by cases h⟩
    exact isDir_newStat sIfreg mode
  | mkfle x mode =>
    refine ⟨rfl, ?_, fun h => by cases h⟩
    exact isDir_newStat sIfreg mode
  | mkdir x mode =>
    refine ⟨rfl, isDir_newStat sIfdir mode, fun _ => ?_⟩
    refine ⟨?_, hC.2 rfl⟩
    have hlt : s.inoq.toNat + 1 < 2 ^ 56 := hC.1
    show (s.inoq + 1).toNat < 2 ^ 56
    rw [UInt64.toNat_add, Nat.mod_eq_of_lt] <;> simp <;> omega
  | lokup x => cases hlook
  | lstat x => cases hlook

/-- Only the first section of a create changes the type of what it stores. -/
theorem Move.keepsType (hm : Move fs s i op e s' op' evs) (hpc : op.pc ≠ .entered)
    (hlook : op.call.isLookup = false) (hplaced : op.Placed) :
    op'.stat.dnodeNo = op.stat.dnodeNo ∧ op'.stat.fileMode = op.stat.fileMode ∧
      op'.myino = op.myino := by
  cases hm with
  | acquire h => exact absurd h hpc
  | collide h hn => cases hn <;> exact ⟨rfl, rfl, rfl⟩
  | fail h hn => cases hn <;> exact ⟨rfl, rfl, rfl⟩
  | clear h hn => cases hn <;> exact ⟨rfl, rfl, rfl⟩
  | put h =>
    rw [putDone]
    split <;> exact ⟨rfl, rfl, rfl⟩
  | read h =>
    rw [Op.Placed, h] at hplaced
    rw [hplaced] at hlook
    cases hlook
  | _ => exact ⟨rfl, rfl, rfl⟩

theorem Typed.move (ht : fs.Typed db₀ op) (hm : Move fs s i op e s' op' evs)
    (hpc : op.pc ≠ .entered) (hplaced : op.Placed) : fs.Typed db₀ op' := by
  intro _ hlook hbukin
  have hcall := hm.call_eq
  rw [hcall] at hlook hbukin
  obtain ⟨hdno, hmode, hino⟩ := hm.keepsType hpc hlook hplaced
  rw [hdno, hmode, hino, hcall]
  exact ht hpc hlook hbukin

/-! ## What a move does to the records

What is needed of a move is its effect on the db and what it answers, and no more: a record
is put, or nothing is. `Effect` and `Move.answered` say so. -/

/-- A move puts an entry and shows it, or does neither. -/
inductive Effect (s s' : State) (i : Nat) (op : Op) (evs : List FsEvent) : Prop where
  | quiet : s'.db = s.db → (∀ j id x st, .pt j (.created id x st) ∉ evs) → Effect s s' i op evs
  | put {name rest : Slice} {db : Db} : op.pc = .putting name rest → s.db = some db →
      s'.db = some (Function.update db (entryKey op.call.dirId name) (some op.stat.encodeTo)) →
      evs = [.pt i (.created op.call.dirId name op.stat)] → Effect s s' i op evs

/-- Without bulk insertions, that is all a move does to the records. -/
theorem Move.effect (hm : Move fs s i op e s' op' evs) (hplain : op.call.isBukin = false) :
    Effect s s' i op evs := by
  have hno : (∀ name rest, op.pc ≠ .putting name rest) →
      ∀ j id x st, .pt j (.created id x st) ∉ evs := by
    intro hpc j id x st h
    obtain ⟨-, rest, hput⟩ := hm.created h
    exact hpc x rest hput
  cases hm with
  | put hpc hdb => exact .put hpc hdb rfl rfl
  | bulk hpc hreq hdb =>
    rw [Call.isBukin, hreq] at hplain
    cases hplain
  | putFail hpc hdb => exact .quiet rfl fun j id x st h => by cases h
  | _ => exact .quiet rfl (hno fun name rest h => by simp_all)

/-- A lookup that ends with a record has seen one. -/
theorem Move.answered (hm : Move fs s i op e s' op' evs) (hplaced : op.Placed) {x : Slice}
    (hreq : op.call.req = .lstat x) (hdb : fs.dbs s ≠ []) {st : Status}
    (hst : op'.pc = .leaving st ∨ op'.pc = .done st)
    (hcode : st = .ok ∨ ∃ msg, st = .err .corruption msg) :
    op.pc = .leaving st ∨ firstMatch (fs.dbs s) (entryKey op.call.dirId x) ≠ none := by
  have hlook : op.call.isLookup = true := by rw [Call.isLookup, hreq]
  -- only a read and the last section get there with such a status
  have hcheck : ∀ msg, st ≠ .err .assertionFailed msg ∧ st ≠ .err .accessDenied msg := by
    intro msg
    cases hcode with
    | inl h => rw [h]; exact ⟨Status.noConfusion, Status.noConfusion⟩
    | inr h =>
      obtain ⟨msg', rfl⟩ := h
      exact ⟨fun h => (by cases h), fun h => (by cases h)⟩
  have hleave : ∀ st', op'.pc = .leaving st' → st = st' := by
    intro st' h
    rw [h] at hst
    cases hst with
    | inl h => exact (Pc.leaving.inj h).symm
    | inr h => cases h
  have hother : op'.pc.isInside = true → (∀ st', op'.pc ≠ .leaving st') → False := by
    intro hin hne
    cases hst with
    | inl h => exact hne st h
    | inr h => rw [h] at hin; cases hin
  cases hm with
  | refuse hpc hr =>
    obtain ⟨msg, h⟩ := refusal_code hr
    have hst := hleave _ rfl
    rw [← hst] at h
    exact absurd h (not_or.mpr (hcheck msg))
  | misplaced hpc hp hd hno => exact absurd (hleave _ rfl) (hcheck _).2
  | leave hpc hp hrel =>
    cases hst with
    | inl h => cases h
    | inr h => cases h; exact .inl hpc
  | @read name hpc hname =>
    have hx : x = name := by
      rw [Call.name?, hreq] at hname
      exact Option.some.inj hname
    have hres := dbGet_result hdb op.call.dirId name e.faults op.stat
    have hst := hleave (dbGet (fs.dbs s) op.call.dirId name e.faults op.stat).1
      (by simp only [Filesystem.read, hreq])
    rw [hx]
    refine .inr fun hnone => ?_
    generalize dbGet (fs.dbs s) op.call.dirId name e.faults op.stat = r at hres hst
    rw [hst] at hcode
    cases hres with
    | found h =>
      rw [view, hnone] at h
      cases h
    | notFound h =>
      cases hcode with
      | inl h => cases h
      | inr h => obtain ⟨msg, h⟩ := h; cases h
    | corruption h =>
      rw [hnone] at h
      cases h
    | ioError =>
      cases hcode with
      | inl h => cases h
      | inr h => obtain ⟨msg, h⟩ := h; cases h
  | unlock hpc hp hd =>
    rw [Op.Placed, hpc, hlook] at hplaced
    cases hplaced
  | lockFirst hpc hp hd hok hlook' hlock => rw [hlook] at hlook'; cases hlook'
  | lockMore hpc hp hd hfree hlock =>
    rw [Op.Placed, hpc, hlook] at hplaced
    cases hplaced.1
  | put hpc hdb =>
    rw [Op.Placed, hpc, hlook] at hplaced
    cases hplaced.1
  | _ => exact absurd (hother rfl fun st' h => by cases h) not_false

/-! ## The invariant

`Origin` says where the directory of a request comes from: it was known when the server was
opened, or has been created since. `Fresh` keeps for all requests and records that there is
nothing beneath a directory that does not come from anywhere yet. -/

/-- What a create may name as its parent, as far as a run has got. -/
def Origin (fs : Filesystem) (db₀ : Db) (tr : List FsEvent) (id : DirId) : Prop :=
  id.dno ≠ fs.options.mydno ∨ id.ino = 0 ∨ Recorded (fs.opened db₀) id ∨ Made tr id

theorem Origin.mono {id : DirId} (h : fs.Origin db₀ tr id) (evs : List FsEvent) :
    fs.Origin db₀ (tr ++ evs) id :=
  h.imp_right (Or.imp_right (Or.imp_right fun h => h.mono evs))

/-- `b` does not make a directory in which `a` has created something. -/
def InOrder (a b : FsEvent) : Prop :=
  ∀ i parent x st j y st', b = .pt i (.created parent x st) → isDir st.fileMode = true →
    a ≠ .pt j (.created st.dirId y st')

/-- The invariant of a server whose creates name known parents. -/
structure Fresh (fs : Filesystem) (db₀ : Db) (tr : List FsEvent) (s : State) : Prop where
  db : s.db.isSome = true
  plain : ∀ {k : Nat} {op : Op}, s.ops[k]? = some op → op.call.Plain
  typed : ∀ {k : Nat} {op : Op}, s.ops[k]? = some op → fs.Typed db₀ op
  parents : ∀ {k : Nat} {op : Op}, s.ops[k]? = some op → op.call.isLookup = false →
    fs.Origin db₀ tr op.call.dirId
  /-- what has been created has a known parent; a directory has a number of its own -/
  created : ∀ {i : Nat} {parent : DirId} {x : Slice} {st : Stat},
    .pt i (.created parent x st) ∈ tr → parent.Fits ∧ fs.Origin db₀ tr parent ∧
      st.dnodeNo = fs.options.mydno ∧ (isDir st.fileMode = true →
        ¬Holds (fs.opened db₀) st.dirId ∧ ¬Recorded (fs.opened db₀) st.dirId ∧
          parent ≠ st.dirId)
  /-- a record was there when the server was opened, or has been created -/
  held : ∀ {id : DirId} {x : Slice}, id.Fits →
    firstMatch (fs.dbs s) (entryKey id x) = firstMatch (fs.opened db₀) (entryKey id x) ∨
      ∃ i st, .pt i (.created id x st) ∈ tr ∧
        firstMatch (fs.dbs s) (entryKey id x) = some st.encodeTo
  /-- a directory is made before anything is created in it -/
  order : tr.Pairwise InOrder
  /-- a lookup that has seen a record has seen one of these -/
  answered : ∀ {k : Nat} {op : Op} {x : Slice} {st : Status}, s.ops[k]? = some op →
    op.call.req = .lstat x → op.pc = .leaving st ∨ op.pc = .done st →
    (st = .ok ∨ ∃ msg, st = .err .corruption msg) →
      firstMatch (fs.opened db₀) (entryKey op.call.dirId x) ≠ none ∨
        ∃ i st', .pt i (.created op.call.dirId x st') ∈ tr

/-! ### The steps

A create that is on its way has a number already, and nobody else has it: so the moment at which
its record is stored can be any later one. The four parts of the invariant are shown one after
the other, and put together in `Fresh.move`. -/

theorem Fresh.start (fs : Filesystem) (db₀ : Db) : Fresh fs db₀ [] (fs.start (some db₀)) where
  db := rfl
  plain hk := by cases hk
  typed hk := by cases hk
  parents hk := by cases hk
  created h := by cases h
  held _ := .inl rfl
  order := List.Pairwise.nil
  answered hk := by cases hk

theorem dbs_some (fs : Filesystem) {db : Db} (h : s.db = some db) :
    fs.dbs s = db :: fs.readonlyDbs := by
  rw [dbs, h]
  rfl

theorem Fresh.dbs_ne (hf : Fresh fs db₀ tr s) : fs.dbs s ≠ [] := by
  obtain ⟨db, hdb⟩ := Option.isSome_iff_exists.mp hf.db
  rw [dbs_some fs hdb]
  exact List.cons_ne_nil _ _

/-- A directory that is recorded was recorded before, or has been made. -/
theorem Fresh.recorded (hf : Fresh fs db₀ tr s) {id : DirId} (h : Recorded (fs.dbs s) id) :
    Recorded (fs.opened db₀) id ∨ Made tr id := by
  obtain ⟨parent, x, st, hfits, hview, hdir, hid⟩ := h
  cases hf.held (x := x) hfits with
  | inl heq =>
    refine .inl ⟨parent, x, st, hfits, ?_, hdir, hid⟩
    rw [view, ← heq]
    exact hview
  | inr hcre =>
    obtain ⟨i, st', hpt, hfirst⟩ := hcre
    have hdec := st'.decodeFrom_encodeTo []
    rw [List.append_nil] at hdec
    rw [view, hfirst, Option.bind_some, hdec, Option.map_some] at hview
    cases hview
    exact .inr ⟨i, parent, x, _, hpt, hdir, hid⟩

theorem Fresh.origin (hf : Fresh fs db₀ tr s) {id : DirId} (h : fs.Known s id) :
    fs.Origin db₀ tr id :=
  h.imp_right (Or.imp_right hf.recorded)

/-- A directory that is about to be made is no one's parent yet. -/
theorem Fresh.unborn (hf : Fresh fs db₀ tr s) (hi : Inos tr s.inoq s.ops) {k : Nat} {op : Op}
    {name rest : Slice} (hk : s.ops[k]? = some op) (hl : Log fs C tr s.ops)
    (hplaced : op.Placed) (hpc : op.pc = .putting name rest) (hdir : isDir op.stat.fileMode = true) :
    ¬Holds (fs.opened db₀) op.stat.dirId ∧ ¬Recorded (fs.opened db₀) op.stat.dirId ∧
      ¬fs.Origin db₀ tr op.stat.dirId := by
  have hin : op.pc.isInside = true := by rw [hpc]; rfl
  have hlook : op.call.isLookup = false := by
    rw [Op.Placed, hpc] at hplaced
    exact hplaced.1
  have hbegun : op.pc ≠ .entered := fun h => by rw [hpc] at h; cases h
  obtain ⟨hdno, hmode, hnew⟩ := hf.typed hk hbegun hlook (hf.plain hk).2
  have hres := hi.reserved hk hin
  rw [hmode] at hdir
  obtain ⟨-, hholds, hrec⟩ := hnew hdir
  have hname : op.call.name?.isSome = true := by
    revert hdir
    rw [Call.isMkdir, Call.name?]
    cases op.call.req <;> simp
  have hid : op.stat.dirId = ⟨fs.options.mydno, op.myino⟩ := by
    rw [Stat.dirId, hdno, hres.single hname hlook]
  have hassigned := putting_ino hres hpc (hl.touched hk)
  rw [← hid] at hholds hrec
  refine ⟨hholds, hrec, fun h => ?_⟩
  have hino : 1 ≤ op.stat.inodeNo.toNat := (hi.below hk hassigned.1).1
  obtain h | h | h | h := h
  · exact h hdno
  · have hzero : op.stat.inodeNo = 0 := h
    rw [hzero] at hino
    exact absurd hino (by decide)
  · exact hrec h
  · -- the number of a directory made before is stored, and not this operation's
    obtain ⟨i, parent, x, st, hpt, -, heq⟩ := h
    have heqino : st.inodeNo = op.stat.inodeNo := congrArg DirId.ino heq
    have howner := hi.owner hpt hk (heqino ▸ hassigned.1)
    subst howner
    exact hassigned.2 parent x st (mem_entries_points.mpr hpt) (congrArg UInt64.toNat heqino)

theorem Fresh.push (hf : Fresh fs db₀ tr s) {c : Call} (stat : Stat) (hc : c.Plain)
    (hknown : c.isLookup = false → fs.Known s c.dirId) :
    Fresh fs db₀ (tr ++ [.inv s.ops.length c]) { s with ops := s.ops ++ [Op.new c stat] } where
  db := hf.db
  plain hk := by
    cases pool_push hk with
    | inl h => obtain ⟨-, rfl⟩ := h; exact hc
    | inr hk => exact hf.plain hk
  typed hk := by
    cases pool_push hk with
    | inl h => obtain ⟨-, rfl⟩ := h; exact fun h => absurd rfl h
    | inr hk => exact hf.typed hk
  parents hk hlook := by
    cases pool_push hk with
    | inl h => obtain ⟨-, rfl⟩ := h; exact (hf.origin (hknown hlook)).mono _
    | inr hk => exact (hf.parents hk hlook).mono _
  created h := by
    cases List.mem_append.mp h with
    | inl h =>
      obtain ⟨hfits, horigin, hrest⟩ := hf.created h
      exact ⟨hfits, horigin.mono _, hrest⟩
    | inr h => cases List.mem_singleton.mp h
  held hid := by
    cases hf.held hid with
    | inl h => exact .inl h
    | inr h =>
      obtain ⟨i, st, hpt, hfirst⟩ := h
      exact .inr ⟨i, st, List.mem_append_left _ hpt, hfirst⟩
  order := by
    refine List.pairwise_append.mpr ⟨hf.order, List.pairwise_singleton _ _, ?_⟩
    intro a _ b hb i parent x st j y st' heq
    rw [List.mem_singleton.mp hb] at heq
    cases heq
  answered hk hreq hst hcode := by
    cases pool_push hk with
    | inl h =>
      obtain ⟨-, rfl⟩ := h
      cases hst with
      | inl h => cases h
      | inr h => cases h
    | inr hk =>
      refine (hf.answered hk hreq hst hcode).imp_right fun h => ?_
      obtain ⟨i, st', hpt⟩ := h
      exact ⟨i, st', List.mem_append_left _ hpt⟩

theorem pairwise_of_right {α : Type} {R : α → α → Prop} {l : List α}
    (h : ∀ b ∈ l, ∀ a, R a b) : l.Pairwise R := by
  induction l with
  | nil => exact List.Pairwise.nil
  | cons a l ih =>
    refine List.Pairwise.cons (fun b hb => h b (List.mem_cons_of_mem a hb) a) (ih ?_)
    exact fun b hb => h b (List.mem_cons_of_mem a hb)

/-- What a move has created has a known parent, and a directory a number of its
own. -/
theorem Fresh.created_move (hf : Fresh fs db₀ tr s) (hi : Inos tr s.inoq s.ops)
    (hl : Log fs C tr s.ops) (hk : s.ops[i]? = some op) (heffect : Effect s s' i op evs)
    (hplaced : op.Placed) {j : Nat} {parent : DirId} {x : Slice} {st : Stat}
    (hpt : .pt j (.created parent x st) ∈ tr ++ evs) :
    parent.Fits ∧ fs.Origin db₀ (tr ++ evs) parent ∧ st.dnodeNo = fs.options.mydno ∧
      (isDir st.fileMode = true → ¬Holds (fs.opened db₀) st.dirId ∧
        ¬Recorded (fs.opened db₀) st.dirId ∧ parent ≠ st.dirId) := by
  rcases List.mem_append.mp hpt with hpt | hpt
  · obtain ⟨hfits, horigin, hrest⟩ := hf.created hpt
    exact ⟨hfits, horigin.mono evs, hrest⟩
  cases heffect with
  | quiet hdb hno => exact absurd hpt (hno j parent x st)
  | @put name rest db hpc hdb hdb' hevs =>
    rw [hevs] at hpt
    cases List.mem_singleton.mp hpt
    have hlook : op.call.isLookup = false := by
      rw [Op.Placed, hpc] at hplaced
      exact hplaced.1
    refine ⟨(hf.plain hk).1, (hf.parents hk hlook).mono evs, ?_, fun hdir => ?_⟩
    · exact (hf.typed hk (fun h => by rw [hpc] at h; cases h) hlook (hf.plain hk).2).1
    · obtain ⟨hholds, hrec, hno⟩ := hf.unborn hi hk hl hplaced hpc hdir
      exact ⟨hholds, hrec, fun heq => hno (heq ▸ hf.parents hk hlook)⟩

/-- A record was there when the server was opened, or has been created. -/
theorem Fresh.held_move (hf : Fresh fs db₀ tr s) (hk : s.ops[i]? = some op)
    (heffect : Effect s s' i op evs) {id : DirId} {x : Slice} (hid : id.Fits) :
    firstMatch (fs.dbs s') (entryKey id x) = firstMatch (fs.opened db₀) (entryKey id x) ∨
      ∃ i st, .pt i (.created id x st) ∈ tr ++ evs ∧
        firstMatch (fs.dbs s') (entryKey id x) = some st.encodeTo := by
  have hold : firstMatch (fs.dbs s') (entryKey id x) = firstMatch (fs.dbs s) (entryKey id x) →
      firstMatch (fs.dbs s') (entryKey id x) = firstMatch (fs.opened db₀) (entryKey id x) ∨
        ∃ i st, .pt i (.created id x st) ∈ tr ++ evs ∧
          firstMatch (fs.dbs s') (entryKey id x) = some st.encodeTo := by
    intro heq
    rw [heq]
    refine (hf.held hid).imp_right fun h => ?_
    obtain ⟨j, st, hpt, hfirst⟩ := h
    exact ⟨j, st, List.mem_append_left _ hpt, hfirst⟩
  cases heffect with
  | quiet hdb hno => exact hold (by rw [dbs, dbs, hdb])
  | @put name rest db hpc hdb hdb' hevs =>
    have hput := firstMatch_put db fs.readonlyDbs (entryKey op.call.dirId name)
      (entryKey id x) op.stat.encodeTo
    rw [← dbs_some fs hdb, ← dbs_some fs hdb'] at hput
    by_cases hkey : entryKey id x = entryKey op.call.dirId name
    · obtain ⟨rfl, rfl⟩ := entryKey_inj hid (hf.plain hk).1 hkey
      rw [if_pos rfl] at hput
      refine .inr ⟨i, op.stat, List.mem_append_right _ ?_, hput⟩
      rw [hevs]
      exact List.mem_singleton_self _
    · rw [if_neg hkey] at hput
      exact hold hput

/-- A directory is made before anything is created in it: one that is about to be
made is no one's parent. -/
theorem Fresh.order_move (hf : Fresh fs db₀ tr s) (hi : Inos tr s.inoq s.ops)
    (hl : Log fs C tr s.ops) (hk : s.ops[i]? = some op) (heffect : Effect s s' i op evs)
    (hplaced : op.Placed) : (tr ++ evs).Pairwise InOrder := by
  refine List.pairwise_append.mpr ⟨hf.order, ?_, ?_⟩
  · cases heffect with
    | quiet hdb hno =>
      refine pairwise_of_right fun b hb a j parent x st _ _ _ heq _ => ?_
      exact absurd (heq ▸ hb) (hno j parent x st)
    | put hpc hdb hdb' hevs =>
      rw [hevs]
      exact List.pairwise_singleton _ _
  · intro a ha b hb j parent x st j' y st' heq hdir hab
    cases heffect with
    | quiet hdb hno => exact absurd (heq ▸ hb) (hno j parent x st)
    | put hpc hdb hdb' hevs =>
      rw [hevs, heq] at hb
      cases List.mem_singleton.mp hb
      rw [hab] at ha
      exact (hf.unborn hi hk hl hplaced hpc hdir).2.2 (hf.created ha).2.1

/-- What a lookup has seen was there when the server was opened, or has been
created. -/
theorem Fresh.answered_move (hf : Fresh fs db₀ tr s) (hk : s.ops[i]? = some op)
    (hm : Move fs s i op e s' op' evs) (hplaced : op.Placed) {x : Slice} {st : Status}
    (hreq : op.call.req = .lstat x) (hst : op'.pc = .leaving st ∨ op'.pc = .done st)
    (hcode : st = .ok ∨ ∃ msg, st = .err .corruption msg) :
    firstMatch (fs.opened db₀) (entryKey op.call.dirId x) ≠ none ∨
      ∃ i st', .pt i (.created op.call.dirId x st') ∈ tr := by
  rcases hm.answered hplaced hreq hf.dbs_ne hst hcode with h | h
  · exact hf.answered hk hreq (.inl h) hcode
  · rcases hf.held (x := x) (hf.plain hk).1 with heq | ⟨j, st', hpt, -⟩
    · rw [heq] at h
      exact .inl h
    · exact .inr ⟨j, st', hpt⟩

/-- **A move keeps the invariant.** A move that puts nothing keeps everything; one that
does is a create, whose parent is known and whose number is new. -/
theorem Fresh.move (hf : Fresh fs db₀ tr s) (hi : Inos tr s.inoq s.ops) (hl : Log fs C tr s.ops)
    (hk : s.ops[i]? = some op) (hm : Move fs s i op e s' op' evs) (hplaced : op.Placed)
    (hC : fs.Genuine db₀ s (.advance i e)) :
    Fresh fs db₀ (tr ++ evs) { s' with ops := s.ops.set i op' } := by
  have hcall := hm.call_eq
  have heffect := hm.effect (hf.plain hk).2
  constructor
  case db =>
    cases heffect with
    | quiet hdb hno =>
      dsimp only
      rw [hdb]
      exact hf.db
    | put hpc hdb hdb' hevs =>
      dsimp only
      rw [hdb']
      rfl
  case plain =>
    intro k o ho
    rcases pool_set ho with ⟨-, rfl⟩ | ⟨-, ho⟩
    · rw [hcall]
      exact hf.plain hk
    · exact hf.plain ho
  case typed =>
    intro k o ho
    rcases pool_set ho with ⟨-, rfl⟩ | ⟨-, ho⟩
    · by_cases hpc : op.pc = .entered
      · cases hm with
        | acquire h hacq => exact typed_acquire (hC op hk hpc) _
        | _ => simp_all
      · exact (hf.typed hk).move hm hpc hplaced
    · exact hf.typed ho
  case parents =>
    intro k o ho hlook
    rcases pool_set ho with ⟨-, rfl⟩ | ⟨-, ho⟩
    · rw [hcall] at hlook ⊢
      exact (hf.parents hk hlook).mono evs
    · exact (hf.parents ho hlook).mono evs
  case created => exact fun hpt => hf.created_move hi hl hk heffect hplaced hpt
  case held => exact fun hid => hf.held_move hk heffect hid
  case order => exact hf.order_move hi hl hk heffect hplaced
  case answered =>
    intro k o x st ho hreq hst hcode
    have hold : firstMatch (fs.opened db₀) (entryKey o.call.dirId x) ≠ none ∨
        ∃ i st', .pt i (.created o.call.dirId x st') ∈ tr := by
      rcases pool_set ho with ⟨-, rfl⟩ | ⟨-, ho⟩
      · rw [hcall] at hreq ⊢
        exact hf.answered_move hk hm hplaced hreq hst hcode
      · exact hf.answered ho hreq hst hcode
    rcases hold with h | ⟨j, st', hpt⟩
    · exact .inl h
    · exact .inr ⟨j, st', List.mem_append_left _ hpt⟩

/-- **The invariant of every run.** It holds of a server that has just been opened,
since nothing has been made, and every genuine step keeps it. -/
theorem run_fresh (hr : (fs.system (some db₀)).Run (fs.Genuine db₀) tr s) :
    Fresh fs db₀ tr s := by
  refine hr.invariant ?_ ?_
  · rintro s rfl
    exact Fresh.start fs db₀
  · intro tr s l s' evs hr hf hC hs
    have hi := run_inos (hr.mono fun s l h => Genuine.noWrap h)
    cases step_cases hs with
    | inl h =>
      obtain ⟨c, stat, rfl, rfl, rfl⟩ := h
      exact hf.push stat hC.1 hC.2
    | inr h =>
      obtain ⟨i, e, op, s₁, op', rfl, hk, hm, rfl⟩ := h
      rw [hm.ops_eq]
      exact hf.move hi (run_log hr) hk hm ((run_blocks hr).placed hk) hC

/-! ## Directories are fresh

The run lemma read at the end of a run. An entry beneath a new directory would have been stored
by a create whose parent has that number, and parents are known before they are used: the root,
a directory of another server, or one that is recorded. None of these has the number before the
`Mkdir` has stored it. -/

/-- **Directories have ids of their own, and a new one is empty.** Take any run of
a server, opened on any db, in which creates name known parents and no `Mkdir`
draws a number the db has in use, and let `ks` be the steps it takes. A `Mkdir`
that returned OK has made its directory. Its number is one no create had before,
so its id is that of no directory the db had and of no other one that has been
made; and nothing is stored beneath it, because a directory is made before
anything is created in it. So as long as nothing is created in it afterwards,
every `Lstat` beneath it returns "not found", unless a check of the `Lstat`
itself fails in one of the steps `ks`, or a db does. -/
theorem dirs_fresh (fs : Filesystem) (db₀ : Db) {ks : List (State × Label)} {tr : List FsEvent}
    {s : State} (hsteps : (fs.system (some db₀)).Steps ks tr s)
    (hgenuine : ∀ p ∈ ks, fs.Genuine db₀ p.1 p.2) {i : Nat} {c : Call} {r : Reply}
    {name : Slice} {mode : UInt32} (hinv : .inv i c ∈ tr) (hreq : c.req = .mkdir name mode)
    (hret : .ret i r ∈ tr) (hok : r.status = .ok) :
    ∃ tr₁ tr₂, tr = tr₁ ++ .pt i (.created c.dirId name r.stat) :: tr₂ ∧
      ¬Recorded (fs.opened db₀) r.stat.dirId ∧
      (∀ j parent y st, .pt j (.created parent y st) ∈ tr₁ ++ tr₂ → isDir st.fileMode = true →
        st.dirId ≠ r.stat.dirId) ∧
      ((∀ j y st, .pt j (.created r.stat.dirId y st) ∉ tr₂) →
        ∀ k d y r', .inv k d ∈ tr → d.req = .lstat y → d.dirId = r.stat.dirId → .ret k r' ∈ tr →
          r'.status.isNotFound = true ∨
            fs.Refused (Among ks) k d r'.status ∨ fs.Faulted (Among ks) k d r'.status) := by
  have hrun := hsteps.run_of hgenuine
  have hf := run_fresh hrun
  have hi := run_inos (hrun.mono fun s l h => Genuine.noWrap h)
  have hl := run_log hsteps.run
  obtain ⟨op, hop, rfl⟩ := hl.inv.mp hinv
  obtain ⟨o, st, ho, hpc, rfl⟩ := hl.ret.mp hret
  obtain rfl := Option.some.inj (hop.symm.trans ho)
  have hpt : .pt i (.created op.call.dirId name op.stat) ∈ tr := by
    have ht := hl.touched hop
    rw [Op.Touched, hpc] at ht
    simp only [Outcome, hreq, createOutcome, hok] at ht
    have hmem : .created op.call.dirId name op.stat ∈ entries (points tr) i := by
      rw [ht]
      exact List.mem_singleton_self _
    exact mem_entries_points.mp hmem
  have hdir : isDir op.stat.fileMode = true := by
    have hmkdir : op.call.isMkdir = true := by rw [Call.isMkdir, hreq]
    have hlook : op.call.isLookup = false := by rw [Call.isLookup, hreq]
    rw [(hf.typed hop (fun h => by rw [hpc] at h; cases h) hlook (hf.plain hop).2).2.1, hmkdir]
  obtain ⟨-, -, hdno, hnew⟩ := hf.created hpt
  obtain ⟨hholds, hrec, hself⟩ := hnew hdir
  obtain ⟨tr₁, tr₂, rfl⟩ := List.append_of_mem hpt
  refine ⟨tr₁, tr₂, rfl, hrec, ?_, ?_⟩
  · intro j parent y st' hpt' hdir' heq
    -- the two would have stored one number twice
    have hnodup := hi.nodup
    have hsingle : storedInos [.pt i (.created op.call.dirId name op.stat)] =
        [op.stat.inodeNo.toNat] := rfl
    rw [← List.singleton_append, storedInos_append, storedInos_append, hsingle] at hnodup
    have hmem : op.stat.inodeNo.toNat ∈ storedInos tr₁ ++ storedInos tr₂ := by
      rw [← storedInos_append]
      exact mem_storedInos.mpr ⟨j, parent, y, st', hpt', congrArg UInt64.toNat
        (congrArg DirId.ino heq)⟩
    have hnot := (List.nodup_cons.mp (List.nodup_middle.mp hnodup)).1
    exact hnot hmem
  · intro hnone k d y r' hinv' hreq' hid hret'
    obtain ⟨op', hop', rfl⟩ := hl.inv.mp hinv'
    obtain ⟨o', st', ho', hpc', rfl⟩ := hl.ret.mp hret'
    obtain rfl := Option.some.inj (hop'.symm.trans ho')
    -- nothing has been created beneath it, before or after
    have hcre : ∀ j st, .pt j (.created op'.call.dirId y st) ∉
        tr₁ ++ .pt i (.created op.call.dirId name op.stat) :: tr₂ := by
      intro j st h
      rw [hid] at h
      rcases List.mem_append.mp h with h | h
      · have horder := (List.pairwise_append.mp hf.order).2.2 _ h _ (List.mem_cons_self ..)
        exact horder i _ name op.stat j y st rfl hdir rfl
      rcases List.mem_cons.mp h with h | h
      · injection h with _ h
        injection h with hparent
        exact hself hparent.symm
      · exact hnone j y st h
    have hunseen : ¬(st' = .ok ∨ ∃ msg, st' = .err .corruption msg) := by
      intro hcode
      rcases hf.answered hop' hreq' (.inr hpc') hcode with h | ⟨j, st, h⟩
      · exact hholds ⟨y, hid ▸ h⟩
      · exact hcre j st h
    have ht := hl.touched hop'
    rw [Op.Touched, hpc'] at ht
    simp only [Outcome, hreq', lstatOutcome, Op.reply] at ht
    cases hst : st' with
    | ok => exact absurd (.inl hst) hunseen
    | err code msg =>
      rw [hst] at ht
      cases code
      case notFound => exact .inl rfl
      case corruption => exact absurd (.inr ⟨msg, hst⟩) hunseen
      all_goals exact .inr ht.2

/-! ## A directory and what is in it

A `Mkdir` and a lookup beneath the new directory; and one that draws a number the db already has
in use, which the condition excludes. -/

/-- A request beneath the directory with a number. -/
def beneath (ino : UInt64) (req : Request) : Call := ⟨⟨0, 0⟩, ⟨0, ino, 0, 0o040777, 0, 0, -1⟩, req⟩

/-- Make a directory beneath the root, and look for a name in it. -/
def mkdirThenLstat : List Label :=
  .call (beneath 0 (.mkdir (str "b") 0o777)) zeroStat :: sections 0 7 ++
    .call (beneath 1 (.lstat (str "f"))) zeroStat :: sections 1 5

/-- A check that implies `Genuine`, for a server that was opened on an empty
db: parents are the root, and creates draw small numbers. -/
def easy (s : State) : Label → Bool
  | .call c _ => c.isBukin = false ∧ c.dirId.Fits ∧ (c.isLookup = false → c.dirId.ino = 0)
  | .advance i _ => (s.ops[i]?).all fun op => s.inoq.toNat + op.call.inos.toNat < 2 ^ 56

theorem easy_genuine (s : State) (l : Label) (h : easy s l = true) :
    plainServer.Genuine (fun _ => none) s l := by
  have hnone : ∀ key, firstMatch (plainServer.opened fun _ => none) key = none := fun _ => rfl
  cases l with
  | call c stat =>
    simp only [easy, decide_eq_true_eq] at h
    exact ⟨⟨h.2.1, h.1⟩, fun hlook => .inr (.inl (h.2.2 hlook))⟩
  | advance i e =>
    intro op hop _
    simp only [easy, Option.mem_def.mp hop, Option.all_some, decide_eq_true_eq] at h
    refine ⟨h, fun _ => ⟨?_, ?_⟩⟩
    · rintro ⟨x, hx⟩
      exact hx (hnone _)
    · rintro ⟨parent, x, st, -, hview, -⟩
      rw [view, hnone] at hview
      cases hview

/-- The record of the first directory. -/
def dirStat : Stat := ⟨0, 1, 0, 0o040777, 0, 0, 0, 0, 0⟩

/-- The new directory of a new server is empty. -/
theorem dirs_fresh_mkdirThenLstat :
    ∃ ks tr s, (plainServer.system (some fun _ => none)).Steps ks tr s ∧
      .ret 1 ⟨.err .notFound [], zeroStat, none, 0⟩ ∈ tr ∧
      ∃ tr₁ tr₂, tr = tr₁ ++ .pt 0 (.created ⟨0, 0⟩ (str "b") dirStat) :: tr₂ ∧
        ∀ j parent y st, .pt j (.created parent y st) ∈ tr₁ ++ tr₂ → isDir st.fileMode = true →
          st.dirId ≠ dirStat.dirId := by
  have htr : ((plainServer.system (some fun _ => none)).exec easy
      (plainServer.start (some fun _ => none)) mkdirThenLstat).map Prod.snd =
        some [.inv 0 (beneath 0 (.mkdir (str "b") 0o777)),
          .pt 0 (.created ⟨0, 0⟩ (str "b") dirStat), .ret 0 ⟨.ok, dirStat, none, 0⟩,
          .inv 1 (beneath 1 (.lstat (str "f"))), .pt 1 (.looked ⟨0, 1⟩ (str "f") none),
          .ret 1 ⟨.err .notFound [], zeroStat, none, 0⟩] := by decide +kernel
  obtain ⟨⟨s, tr⟩, hp, htr⟩ := Option.map_eq_some_iff.mp htr
  have hinit : (plainServer.system (some fun _ => none)).init
      (plainServer.start (some fun _ => none)) := rfl
  have hrun := Run.exec (C := plainServer.Genuine fun _ => none) easy_genuine (.init hinit) hp
  rw [List.nil_append] at hrun
  dsimp only at htr
  subst htr
  obtain ⟨ks, hsteps, hgenuine⟩ := hrun.steps
  obtain ⟨tr₁, tr₂, hsplit, -, hother, -⟩ := dirs_fresh plainServer _ hsteps hgenuine (i := 0)
    (c := beneath 0 (.mkdir (str "b") 0o777)) (r := ⟨.ok, dirStat, none, 0⟩) (by simp) rfl
    (by simp) rfl
  exact ⟨ks, _, s, hsteps, by simp, tr₁, tr₂, hsplit, hother⟩

/-- Make a directory beneath the root, and a file in it. -/
def mkdirThenMkfle : List Label :=
  .call (beneath 0 (.mkdir (str "a") 0o777)) zeroStat :: sections 0 7 ++
    .call (beneath 1 (.mkfle (str "f") 0o660)) zeroStat :: sections 1 7

/-- **A server opened on the db of one before it** makes a directory with the
number of an old one, and finds a file in it. -/
theorem dirs_shared :
    ∃ tr s, (plainServer.system (some fun _ => none)).Run (fun _ l => l.NoBukin) tr s ∧
      (∀ op ∈ s.ops, ∃ st, op.pc = .done st) ∧
      ∃ tr' s', (plainServer.system s.db).Run (fun _ l => l.NoBukin) tr' s' ∧
        .inv 0 (beneath 0 (.mkdir (str "b") 0o777)) ∈ tr' ∧
        .ret 0 ⟨.ok, dirStat, none, 0⟩ ∈ tr' ∧
        .inv 1 ⟨⟨0, 0⟩, LookupStat.copyFrom dirStat (-1), .lstat (str "f")⟩ ∈ tr' ∧
        .ret 1 ⟨.ok, { firstStat with inodeNo := 2 }, none, 0⟩ ∈ tr' := by
  have hexec : (((plainServer.system (some fun _ => none)).exec (fun _ l => decide l.NoBukin)
      (plainServer.start (some fun _ => none)) mkdirThenMkfle).bind fun p =>
        ((plainServer.system p.1.db).exec (fun _ l => decide l.NoBukin)
          (plainServer.start p.1.db) mkdirThenLstat).map fun q =>
            (p.1.ops.all (fun op => match op.pc with | .done _ => true | _ => false), q.2)) =
      some (true, [.inv 0 (beneath 0 (.mkdir (str "b") 0o777)),
          .pt 0 (.created ⟨0, 0⟩ (str "b") dirStat), .ret 0 ⟨.ok, dirStat, none, 0⟩,
          .inv 1 (beneath 1 (.lstat (str "f"))),
          .pt 1 (.looked ⟨0, 1⟩ (str "f") (some { firstStat with inodeNo := 2 })),
          .ret 1 ⟨.ok, { firstStat with inodeNo := 2 }, none, 0⟩]) := by decide +kernel
  obtain ⟨⟨s, tr⟩, hp, hexec⟩ := Option.bind_eq_some_iff.mp hexec
  obtain ⟨⟨s', tr'⟩, hq, heq⟩ := Option.map_eq_some_iff.mp hexec
  obtain ⟨hdone, htr'⟩ := Prod.mk.inj heq
  have hinit : (plainServer.system (some fun _ => none)).init
      (plainServer.start (some fun _ => none)) := rfl
  have hinit' : (plainServer.system s.db).init (plainServer.start s.db) := rfl
  have hrun := Run.exec (C := fun _ l => l.NoBukin) (fun _ _ hd => of_decide_eq_true hd)
    (.init hinit) hp
  have hrun' := Run.exec (C := fun _ l => l.NoBukin) (fun _ _ hd => of_decide_eq_true hd)
    (.init hinit') hq
  refine ⟨_, s, hrun, fun op hop => ?_, _, s', hrun', ?_⟩
  · have h := List.all_eq_true.mp hdone op hop
    cases hpc : op.pc with
    | done st => exact ⟨st, rfl⟩
    | _ => simp [hpc] at h
  · dsimp only at htr'
    rw [List.nil_append, htr']
    simp [beneath, LookupStat.copyFrom, dirStat]

end Filesystem

end DeltaFs
