import DeltaFs.FsLog

/-!
# Creates and lookups are linearizable

The purpose of a server with collision checks: a map from directories and names
to stats, to which creates only ever add. `entrySpec` is that map. Every run
without bulk insertions, on directories whose number fits a key, is
linearizable with respect to it: the puts and the reads that settle a reply
are the points, and between a read that finds no entry and the put that follows
no other operation can put it, because both hold the way of the name.

The proof has two halves. `run_refines` shows that the touches of a run are legal for the
map, one move at a time; the ways are used for the put alone (`Refines.put`), which has to
find the map as the read before it has left it. That each reply is the one its touches
explain is the log of `FsLog`. Everything the theorem says of the order of operations is
then about legal sequences of touches, and not about the server.
-/

namespace DeltaFs

open Linearization TransitionSystem

/-- The entries of a server: what each directory holds under each name. -/
abbrev Entries : Type := DirId → Slice → Option Stat

/-- `m` with an entry of `name` in `id`. -/
def Entries.add (m : Entries) (id : DirId) (name : Slice) (st : Stat) : Entries :=
  fun i x => if i = id ∧ x = name then some st else m i x

/-- **The abstract server**: an entry can be created when there is none, a
create can collide only with an entry, and a lookup sees what there is. -/
def entrySpec : Spec Entries Touch where
  step m
    | .created id x st => if m id x = none then some (m.add id x st) else none
    | .collided id x => if (m id x).isSome then some m else none
    | .looked id x v => if m id x = v then some m else none

/-! ## What every legal order of touches guarantees

Nothing here is about the server. A sequence of touches that is legal for the map never
overwrites an entry, creates none twice, and looks up what was created before. -/

section Spec

variable {a a' : Entries} {es es₁ es₂ : List Touch} {id : DirId} {x : Slice} {st : Stat}

theorem Entries.add_self (a : Entries) (id : DirId) (x : Slice) (st : Stat) :
    a.add id x st id x = some st := if_pos ⟨rfl, rfl⟩

/-- A legal touch creates a missing entry, or changes nothing. -/
theorem entrySpec_cases {t : Touch} (h : entrySpec.step a t = some a') :
    (∃ id x st, t = .created id x st ∧ a id x = none ∧ a' = a.add id x st) ∨
      (∀ id x st, t ≠ .created id x st) ∧ a' = a := by
  cases t with
  | created i y s =>
    simp only [entrySpec] at h
    split at h
    · rename_i hnone
      cases h
      exact .inl ⟨i, y, s, rfl, hnone, rfl⟩
    · cases h
  | collided i y =>
    simp only [entrySpec] at h
    split at h
    · cases h
      exact .inr ⟨by simp, rfl⟩
    · cases h
  | looked i y v =>
    simp only [entrySpec] at h
    split at h
    · cases h
      exact .inr ⟨by simp, rfl⟩
    · cases h

/-- A touch keeps the entries there are. -/
theorem entrySpec_keeps {t : Touch} (h : entrySpec.step a t = some a') (hx : a id x = some st) :
    a' id x = some st := by
  rcases entrySpec_cases h with ⟨i, y, s, -, hnone, rfl⟩ | ⟨-, rfl⟩
  · have hne : ¬ (id = i ∧ x = y) := by
      rintro ⟨rfl, rfl⟩
      rw [hx] at hnone
      cases hnone
    exact (if_neg hne).trans hx
  · exact hx

/-- **Entries are never overwritten.** The map refuses a create of a name that it has. -/
theorem entries_keep (h : entrySpec.run a es = some a') (hx : a id x = some st) :
    a' id x = some st := by
  induction es generalizing a with
  | nil =>
    cases h
    exact hx
  | cons t es ih =>
    obtain ⟨b, hb, hrun⟩ := Option.bind_eq_some_iff.mp h
    exact ih hrun (entrySpec_keeps hb hx)

/-- A legal order of touches, cut before a touch. -/
theorem run_split {t : Touch} (h : entrySpec.run a (es₁ ++ t :: es₂) = some a') :
    ∃ b c, entrySpec.run a es₁ = some b ∧ entrySpec.step b t = some c ∧
      entrySpec.run c es₂ = some a' := by
  rw [Spec.run_append] at h
  obtain ⟨b, hb, h⟩ := Option.bind_eq_some_iff.mp h
  obtain ⟨c, hc, h⟩ := Option.bind_eq_some_iff.mp h
  exact ⟨b, c, hb, hc, h⟩

/-- What a legal create does. -/
theorem step_created {b c : Entries} (h : entrySpec.step b (.created id x st) = some c) :
    b id x = none ∧ c id x = some st := by
  rcases entrySpec_cases h with ⟨i, y, s, heq, hnone, rfl⟩ | ⟨hno, -⟩
  · cases heq
    exact ⟨hnone, Entries.add_self ..⟩
  · exact absurd rfl (hno id x st)

/-- A created entry is there from then on. -/
theorem created_stays (h : entrySpec.run a es = some a') (hc : .created id x st ∈ es) :
    a' id x = some st := by
  obtain ⟨es₁, es₂, rfl⟩ := List.append_of_mem hc
  obtain ⟨b, c, -, hstep, hrun⟩ := run_split h
  exact entries_keep hrun (step_created hstep).2

/-- **A lookup after a create sees what was created.** A lookup reads the map as it is at
its point, and entries are kept from the point of the create on. -/
theorem looked_after {v : Option Stat}
    (h : entrySpec.run a (es₁ ++ .looked id x v :: es₂) = some a') (hc : .created id x st ∈ es₁) :
    v = some st := by
  obtain ⟨b, c, hb, hstep, -⟩ := run_split h
  have hst := created_stays hb hc
  simp only [entrySpec] at hstep
  split at hstep
  · rename_i hv
    exact hv.symm.trans hst
  · cases hstep

/-- The entries a touch creates. -/
def Touch.creation? : Touch → Option (DirId × Slice)
  | .created id x _ => some (id, x)
  | _ => none

/-- **No entry is created twice.** By the last lemma the first of two creates would
still be there when the second is made, and the map would refuse it. -/
theorem creations_nodup (h : entrySpec.run a es = some a') :
    (es.filterMap Touch.creation?).Nodup := by
  induction es generalizing a with
  | nil => exact List.nodup_nil
  | cons t es ih =>
    obtain ⟨b, hb, hrun⟩ := Option.bind_eq_some_iff.mp h
    have htail := ih hrun
    cases t with
    | created i y s =>
      have hin := (step_created hb).2
      refine List.nodup_cons.mpr ⟨fun hmem => ?_, htail⟩
      -- a second create would find the entry
      obtain ⟨t', ht', hkey⟩ := List.mem_filterMap.mp hmem
      obtain ⟨es₁, es₂, rfl⟩ := List.append_of_mem ht'
      obtain ⟨c, d, hc, hd, -⟩ := run_split hrun
      cases t' with
      | created j z s' =>
        cases hkey
        have hnone := (step_created hd).1
        rw [entries_keep hc hin] at hnone
        cases hnone
      | collided j z => cases hkey
      | looked j z v => cases hkey
    | collided i y => exact htail
    | looked i y v => exact htail

/-- Without a create, an entry stays missing. -/
theorem entries_missing (h : entrySpec.run a es = some a') (hx : a id x = none)
    (hno : ∀ st, .created id x st ∉ es) : a' id x = none := by
  induction es generalizing a with
  | nil =>
    cases h
    exact hx
  | cons t es ih =>
    obtain ⟨b, hb, hrun⟩ := Option.bind_eq_some_iff.mp h
    refine ih hrun ?_ fun s hs => hno s (List.mem_cons_of_mem _ hs)
    rcases entrySpec_cases hb with ⟨i, y, s, rfl, -, rfl⟩ | ⟨-, rfl⟩
    · have hne : ¬ (id = i ∧ x = y) := by
        rintro ⟨rfl, rfl⟩
        exact hno s (List.mem_cons_self ..)
      exact (if_neg hne).trans hx
    · exact hx

end Spec

/-! ## The calls of a run

Bulk insertions put whole tables into the db at once and have no touches of single entries, so
they are left out here. -/

/-- Bulk insertions. -/
def Call.isBukin (c : Call) : Bool :=
  match c.req with
  | .bukin _ => true
  | _ => false

/-- Calls on a directory whose number fits a key, other than bulk
insertions. -/
def Call.Plain (c : Call) : Prop := c.dirId.Fits ∧ c.isBukin = false

instance (c : Call) : Decidable c.Plain := instDecidableAnd

namespace Filesystem

/-- Steps that bring no bulk insertions. -/
def Label.NoBukin : Label → Prop
  | .call c _ => c.isBukin = false
  | .advance _ _ => True

/-- Steps that bring plain calls only. -/
def Label.Plain : Label → Prop
  | .call c _ => c.Plain
  | .advance _ _ => True

instance : (l : Label) → Decidable l.NoBukin
  | .call c _ => inferInstanceAs (Decidable (c.isBukin = false))
  | .advance _ _ => inferInstanceAs (Decidable True)

instance : (l : Label) → Decidable l.Plain
  | .call c _ => inferInstanceAs (Decidable c.Plain)
  | .advance _ _ => inferInstanceAs (Decidable True)

/-! ## The server refines the map

The map is what the dbs of the server show. A read is legal because it returns what is there;
a put is because the name was not there when the operation last looked, and nobody else can
have put it meanwhile. -/

/-- The invariant of a server with collision checks whose runs started with the
entries `a₀`. -/
structure Refines (fs : Filesystem) (a₀ : Entries) (tr : List FsEvent) (s : State) : Prop where
  db : s.db.isSome = true
  plain : ∀ {k : Nat} {op : Op}, s.ops[k]? = some op → op.call.Plain
  /-- a name that is about to be put is still missing -/
  absent : ∀ {k : Nat} {op : Op} {name rest : Slice}, s.ops[k]? = some op →
    op.pc = .putting name rest → firstMatch (fs.dbs s) (entryKey op.call.dirId name) = none
  /-- the touches so far are legal and lead to what the dbs hold -/
  legal : ∃ a, entrySpec.run a₀ ((points tr).map Prod.snd) = some a ∧
    ∀ id, id.Fits → ∀ x, a id x = view (fs.dbs s) id x

variable {fs : Filesystem} {a₀ : Entries} {tr : List FsEvent} {s s' : State} {i : Nat}
  {op op' : Op} {e : Env} {evs : List FsEvent}

theorem Refines.start (fs : Filesystem) (db : Db) :
    Refines fs (view (db :: fs.readonlyDbs)) [] (fs.start (some db)) where
  db := rfl
  plain hk := by cases hk
  absent hk := by cases hk
  legal := ⟨_, rfl, fun _ _ _ => rfl⟩

theorem Refines.push (hr : Refines fs a₀ tr s) {c : Call} (stat : Stat) (hc : c.Plain) :
    Refines fs a₀ (tr ++ [.inv s.ops.length c]) { s with ops := s.ops ++ [Op.new c stat] } where
  db := hr.db
  plain hk := by
    rcases pool_push hk with ⟨-, rfl⟩ | hk
    · exact hc
    · exact hr.plain hk
  absent hk hpc := by
    rcases pool_push hk with ⟨-, rfl⟩ | hk
    · cases hpc
    · exact hr.absent hk hpc
  legal := by
    obtain ⟨a, ha, hv⟩ := hr.legal
    have hnil : points ([.inv s.ops.length c] : List FsEvent) = [] := rfl
    refine ⟨a, ?_, hv⟩
    rw [points_append, hnil, List.append_nil]
    exact ha

/-- The points of a list of touches, after those of a run. -/
theorem run_points (a₀ : Entries) (tr : List FsEvent) (i : Nat) (ts : List Touch) :
    entrySpec.run a₀ ((points (tr ++ ts.map (.pt i))).map Prod.snd) =
      (entrySpec.run a₀ ((points tr).map Prod.snd)).bind fun a => entrySpec.run a ts := by
  rw [points_append, List.map_append, Spec.run_append, points_pts, List.map_map]
  simp [Function.comp_def]

/-- **A move that leaves the db alone** keeps the refinement when it sees what
there is, and a name it is about to put is missing. -/
theorem Refines.look (hr : Refines fs a₀ tr s) (hk : s.ops[i]? = some op)
    (hdb : s'.db = s.db) (hops : s'.ops = s.ops) (hcall : op'.call = op.call) {ts : List Touch}
    (hevs : points evs = points (ts.map (.pt i) : List FsEvent))
    (hts : ∀ a : Entries, (∀ x, a op.call.dirId x = view (fs.dbs s) op.call.dirId x) →
      entrySpec.run a ts = some a)
    (habs : ∀ name rest, op'.pc = .putting name rest →
      firstMatch (fs.dbs s) (entryKey op.call.dirId name) = none) :
    Refines fs a₀ (tr ++ evs) { s' with ops := s'.ops.set i op' } := by
  have hdbs : ∀ ops, fs.dbs { s' with ops := ops } = fs.dbs s := by
    intro ops
    rw [dbs, dbs, hdb]
  constructor
  case db => exact (congrArg Option.isSome hdb).trans hr.db
  case plain =>
    intro k o ho
    dsimp only at ho
    rw [hops] at ho
    rcases pool_set ho with ⟨-, rfl⟩ | ⟨-, ho⟩
    · rw [hcall]
      exact hr.plain hk
    · exact hr.plain ho
  case absent =>
    intro k o name rest ho hpc
    rw [hdbs]
    dsimp only at ho
    rw [hops] at ho
    rcases pool_set ho with ⟨-, rfl⟩ | ⟨-, ho⟩
    · rw [hcall]
      exact habs name rest hpc
    · exact hr.absent ho hpc
  case legal =>
    obtain ⟨a, ha, hv⟩ := hr.legal
    refine ⟨a, ?_, fun id hid x => ?_⟩
    · have hpts := run_points a₀ tr i ts
      rw [points_append, ← hevs, ← points_append] at hpts
      rw [hpts, ha, Option.bind_some]
      exact hts a (hv _ (hr.plain hk).1)
    · rw [hdbs]
      exact hv id hid x

/-- A move that neither reads nor writes the db. -/
theorem Refines.quiet (hr : Refines fs a₀ tr s) (hk : s.ops[i]? = some op)
    (hdb : s'.db = s.db) (hops : s'.ops = s.ops) (hcall : op'.call = op.call)
    (hevs : points evs = [])
    (habs : ∀ name rest, op'.pc = .putting name rest →
      firstMatch (fs.dbs s) (entryKey op.call.dirId name) = none) :
    Refines fs a₀ (tr ++ evs) { s' with ops := s'.ops.set i op' } := by
  have hnil : points evs = points (([] : List Touch).map (.pt i) : List FsEvent) := hevs
  exact hr.look hk hdb hops hcall hnil (fun a _ => rfl) habs

/-- **A put** adds the entry. The name is not there: the operation has looked, under the way
of the name, and has had that way since. -/
theorem Refines.put (hr : Refines fs a₀ tr s) (hb : Blocks fs s.table s.ops)
    (hk : s.ops[i]? = some op) {name rest : Slice} {db : Db} (hpc : op.pc = .putting name rest)
    (hdb : s.db = some db) :
    Refines fs a₀ (tr ++ [.pt i (.created op.call.dirId name op.stat)])
      { s with
        db := some (Function.update db (entryKey op.call.dirId name) (some op.stat.encodeTo))
        ops := s.ops.set i (putDone op rest) } := by
  have hcall : (putDone op rest).call = op.call := by
    rw [putDone]
    split <;> rfl
  have hold : fs.dbs s = db :: fs.readonlyDbs := by
    rw [dbs, hdb]
    rfl
  have hfit := (hr.plain hk).1
  constructor
  case db => rfl
  case plain =>
    intro k o ho
    rcases pool_set ho with ⟨-, rfl⟩ | ⟨-, ho⟩
    · rw [hcall]
      exact hr.plain hk
    · exact hr.plain ho
  case absent =>
    intro k o name' rest' ho hpc'
    rcases pool_set ho with ⟨-, rfl⟩ | ⟨hki, hko⟩
    · rw [putDone] at hpc'
      split at hpc' <;> cases hpc'
    · have habs := hr.absent hko hpc'
      have hput := firstMatch_put db fs.readonlyDbs (entryKey op.call.dirId name)
        (entryKey o.call.dirId name') op.stat.encodeTo
      rw [hold] at habs
      refine hput.trans ?_
      rw [if_neg, habs]
      -- two puts of one name would exclude each other
      intro heq
      obtain ⟨hid, rfl⟩ := entryKey_inj (hr.plain hko).1 hfit heq
      exact hki (hb.exclusive hko hk hpc' hpc hid)
  case legal =>
    obtain ⟨a, ha, hv⟩ := hr.legal
    have hnone : a op.call.dirId name = none := by
      rw [hv _ hfit, view, hr.absent hk hpc]
      rfl
    refine ⟨a.add op.call.dirId name op.stat, ?_, fun id hid x => ?_⟩
    · have hpts := run_points a₀ tr i [.created op.call.dirId name op.stat]
      rw [List.map_singleton] at hpts
      rw [hpts, ha, Option.bind_some, Spec.run]
      simp only [entrySpec, hnone, if_true]
      rfl
    · have hput := view_put db fs.readonlyDbs op.call.dirId id name x op.stat
      refine Eq.trans ?_ hput.symm
      rw [← hold, ← hv id hid x, Entries.add]
      refine if_congr ⟨?_, ?_⟩ rfl rfl
      · rintro ⟨rfl, rfl⟩
        rfl
      · intro heq
        exact entryKey_inj hid hfit heq

/-- A read of the chain sees what the map holds. -/
theorem read_legal (hdbs : fs.dbs s ≠ []) (op : Op) (name : Slice) (e : Env) {a : Entries}
    (ha : ∀ x, a op.call.dirId x = view (fs.dbs s) op.call.dirId x) :
    entrySpec.run a (fs.read s op name e).2 = some a := by
  have hr := dbGet_result hdbs op.call.dirId name e.faults op.stat
  rw [read_touches]
  generalize dbGet (fs.dbs s) op.call.dirId name e.faults op.stat = r at hr
  cases hr with
  | found h => simp [Spec.run, entrySpec, ha, h]
  | notFound h => simp [Spec.run, entrySpec, ha, view, h]
  | corruption h hdec => simp [Spec.run, entrySpec, ha, view, h, hdec]
  | ioError => rfl

/-- **A move keeps the refinement**, when collisions are checked. Every touch is legal
for the map at the moment it is made, which is all a linearization needs. -/
theorem Refines.move (hcoll : fs.options.skipNameCollisionChecks = false)
    (hr : Refines fs a₀ tr s) (hb : Blocks fs s.table s.ops) (hk : s.ops[i]? = some op)
    (hm : Move fs s i op e s' op' evs) :
    Refines fs a₀ (tr ++ evs) { s' with ops := s'.ops.set i op' } := by
  have hcall := hm.call_eq
  have hops := hm.ops_eq
  have hdbs : fs.dbs s ≠ [] := by
    obtain ⟨db, hdb⟩ := Option.isSome_iff_exists.mp hr.db
    rw [dbs, hdb]
    simp
  -- only three sections have a point: a collision, a stored record and a read. The others
  -- leave the database and the list of points alone
  cases hm with
  | acquire hpc hacq => exact hr.quiet hk rfl rfl hcall rfl (by simp)
  | refuse hpc hst => exact hr.quiet hk rfl rfl hcall rfl (by simp)
  | pass hpc hst => exact hr.quiet hk rfl rfl hcall rfl (by simp)
  | misplaced hpc hp hd hno => exact hr.quiet hk rfl rfl hcall rfl (by simp)
  | enterRead hpc hp hd hok hlook => exact hr.quiet hk rfl rfl hcall rfl (by simp)
  | lockFirst hpc hp hd hok hlook hlock =>
    refine hr.quiet hk rfl rfl hcall rfl fun name rest hpc' => ?_
    dsimp only at hpc'
    split at hpc' <;> cases hpc'
  | lockMore hpc hp hd hfree hlock =>
    refine hr.quiet hk rfl rfl hcall rfl fun name rest hpc' => ?_
    dsimp only at hpc'
    split at hpc' <;> cases hpc'
  -- no bulk insertion is among the calls
  | bulk hpc hreq hdb =>
    have hno := (hr.plain hk).2
    rw [Call.isBukin, hreq] at hno
    cases hno
  | finish hpc hreq hnext => exact hr.quiet hk rfl rfl hcall rfl (by simp [stop])
  | @collide op₁ name rest hpc hn hskip hread =>
    have hone : points ([.pt i (.collided op.call.dirId name)] : List FsEvent) =
        points ([.collided op.call.dirId name].map (.pt i) : List FsEvent) := rfl
    refine hr.look hk rfl rfl hcall hone ?_ (by simp [stop])
    intro a ha
    have hget := dbGet_result hdbs op₁.call.dirId name e.faults op₁.stat
    rw [nameRead] at hread
    generalize dbGet (fs.dbs s) op₁.call.dirId name e.faults op₁.stat = r at hget hread
    cases hget with
    | found h =>
      rw [hn.frame.1] at h
      simp [Spec.run, entrySpec, ha, h]
    | notFound h => cases hread
    | corruption h hdec => cases hread
    | ioError => cases hread
  | fail hpc hn hok hnf => exact hr.quiet hk rfl rfl hcall rfl (by simp [stop])
  -- the name was absent when it was checked; its way keeps it so until the put
  | @clear op₁ name rest hpc hn hread =>
    refine hr.quiet hk rfl rfl hcall rfl fun name' rest' hpc' => ?_
    cases hpc'
    have hnf := hread hcoll
    have hget := dbGet_result hdbs op₁.call.dirId name e.faults op₁.stat
    rw [nameRead] at hnf
    generalize dbGet (fs.dbs s) op₁.call.dirId name e.faults op₁.stat = r at hget hnf
    cases hget with
    | found h => cases hnf
    | notFound h =>
      rw [hn.frame.1] at h
      exact h
    | corruption h hdec => cases hnf
    | ioError => cases hnf
  | put hpc hdb => exact hr.put hb hk hpc hdb
  | putFail hpc hdb => exact hr.quiet hk rfl rfl hcall rfl (by simp [stop])
  | @read name hpc hname =>
    obtain ⟨-, -, st, hpc'⟩ := read_frame fs s op name e
    refine hr.look hk rfl rfl hcall rfl ?_ fun name' rest' hput => ?_
    · intro a ha
      exact read_legal hdbs op name e ha
    · rw [hpc'] at hput
      cases hput
  | unlock hpc hp hd => exact hr.quiet hk rfl rfl hcall rfl (by simp)
  | leave hpc hp hrel => exact hr.quiet hk rfl rfl hcall rfl (by simp)

/-- **The server refines the map in every run.** At the start the map is what the dbs hold;
each move is legal for it. -/
theorem run_refines (hcoll : fs.options.skipNameCollisionChecks = false) {db : Db}
    (hr : (fs.system (some db)).Run (fun _ l => l.Plain) tr s) :
    Refines fs (view (db :: fs.readonlyDbs)) tr s := by
  refine hr.invariant ?_ ?_
  · rintro s rfl
    exact Refines.start fs db
  · intro tr s l s' evs hrun hI hl hs
    rcases step_cases hs with ⟨c, stat, rfl, rfl, rfl⟩ | ⟨i, e, op, s₁, op', -, hk, hm, rfl⟩
    · exact hI.push stat hl
    · exact hI.move hcoll (run_blocks hrun) hk hm

/-! ## Runs

A linearization of a run is a legal order of what its operations have touched, one touch for
each operation that has any, which respects real time. What legal orders guarantee was shown
above; here it is read back into the terms of the run: what operations have returned, and which
checks have failed for those that touched nothing. -/

/-- The entries a run has created, in order. -/
def creations (tr : List FsEvent) : List (DirId × Slice) :=
  ((points tr).map Prod.snd).filterMap Touch.creation?

/-- **A lookup invoked after a create has returned touches what was created**, in
every well-formed log whose touches are legal: the create put its entry before it
returned, the lookup read after it was invoked, and entries stay. -/
theorem looked_after_return (hwf : WellFormed tr) {a : Entries}
    (hlegal : entrySpec.run a₀ ((points tr).map Prod.snd) = some a)
    {l₁ l₂ l₃ : List FsEvent} {i j : Nat} {r : Reply} {c : Call} {id : DirId} {x : Slice} {st : Stat}
    (htr : tr = l₁ ++ .ret i r :: (l₂ ++ .inv j c :: l₃)) (hcre : .pt i (.created id x st) ∈ tr)
    {v : Option Stat} (hv : .pt j (.looked id x v) ∈ tr) : v = some st := by
  rw [htr] at hwf hcre
  have hmem₁ : .created id x st ∈ (points l₁).map Prod.snd := by
    rcases List.mem_append.mp hcre with hin | hin
    · exact List.mem_map.mpr ⟨_, mem_points.mpr hin, rfl⟩
    · rcases List.mem_cons.mp hin with heq | hin
      · cases heq
      · exact absurd hin (hwf.no_pt_after_ret _)
  have hwf' : WellFormed ((l₁ ++ .ret i r :: l₂) ++ .inv j c :: l₃) := by simpa using hwf
  have htr' : tr = (l₁ ++ .ret i r :: l₂) ++ .inv j c :: l₃ := by simpa using htr
  rw [htr'] at hv
  have hmem₃ : .pt j (.looked id x v) ∈ l₃ := by
    rcases List.mem_append.mp hv with hin | hin
    · exact absurd hin (hwf'.no_pt_before_inv _)
    · rcases List.mem_cons.mp hin with heq | hin
      · cases heq
      · exact hin
  obtain ⟨m₁, m₂, hm⟩ := List.append_of_mem hmem₃
  have hsplit : (points tr).map Prod.snd =
      ((points l₁).map Prod.snd ++ (points (l₂ ++ .inv j c :: m₁)).map Prod.snd) ++
        .looked id x v :: (points m₂).map Prod.snd := by
    rw [htr, hm]
    simp
  rw [hsplit] at hlegal
  exact looked_after hlegal (List.mem_append_left _ hmem₁)

/-- **A lookup invoked after a create has returned** returns the entry, unless a
check of its own failed or a db it asked did. -/
theorem lstat_sees {db : Option Db} {C : State → Label → Prop} (hrun : (fs.system db).Run C tr s)
    {a : Entries} (hlegal : entrySpec.run a₀ ((points tr).map Prod.snd) = some a)
    {l₁ l₂ l₃ : List FsEvent} {i j : Nat} {r r' : Reply} {c : Call} {x : Slice} {st : Stat}
    (htr : tr = l₁ ++ .ret i r :: (l₂ ++ .inv j c :: l₃))
    (hcre : .pt i (.created c.dirId x st) ∈ tr) (hreq : c.req = .lstat x) (hret : .ret j r' ∈ tr) :
    r'.status = .ok ∧ r'.stat = st ∨ fs.Refused C j c r'.status ∨ fs.Faulted C j c r'.status := by
  have hl := run_log hrun
  have hinv : .inv j c ∈ tr := by
    rw [htr]
    simp
  obtain ⟨ino, hout⟩ := hl.outcome hinv hret
  simp only [Outcome, hreq, lstatOutcome] at hout
  have hpt : ∀ v, entries (points tr) j = [.looked c.dirId x v] → v = some st := by
    intro v hv
    refine looked_after_return hl.wf hlegal htr hcre (mem_entries_points.mp ?_)
    rw [hv]
    exact List.mem_singleton_self _
  rcases hst : r'.status with _ | ⟨code, msg⟩
  · rw [hst] at hout
    exact .inl ⟨rfl, Option.some.inj (hpt _ hout)⟩
  · rw [hst] at hout
    cases code
    case notFound => cases hpt _ hout
    case corruption => cases hpt _ hout.1
    all_goals exact .inr hout.2

/-- The record of the name a create is about was found damaged. -/
def Damaged (fs : Filesystem) (C : State → Label → Prop) (i : Nat) (c : Call) (x : Slice)
    (st : Status) : Prop :=
  (∃ msg, st = .err .corruption msg) ∧ fs.Corrupted C i c x

/-- **A create of one name decides at one point**: it succeeds if its key is absent
there, and reports `AlreadyExists` if it is not. Only a check, a db that fails or a
damaged record keep it from deciding. -/
theorem create_decides {db : Option Db} {C : State → Label → Prop} (hrun : (fs.system db).Run C tr s)
    {a : Entries} (hlegal : entrySpec.run a₀ ((points tr).map Prod.snd) = some a) {i : Nat} {c : Call}
    {x : Slice} {r : Reply} (hinv : .inv i c ∈ tr) (hret : .ret i r ∈ tr) (hname : c.name? = some x)
    (hlook : c.isLookup = false) :
    (∃ l₁ t l₂ b, points tr = l₁ ++ (i, t) :: l₂ ∧ entrySpec.run a₀ (l₁.map Prod.snd) = some b ∧
        (r.status = .ok ∧ b c.dirId x = none ∨
          r.status = .err .alreadyExists x ∧ (b c.dirId x).isSome = true)) ∨
      fs.Refused C i c r.status ∨ fs.Faulted C i c r.status ∨ fs.Damaged C i c x r.status := by
  obtain ⟨ino, hout⟩ := (run_log hrun).outcome hinv hret
  have hcreate : fs.createOutcome C i c x r (entries (points tr) i) := by
    rcases Call.single_cases hname hlook with ⟨mode, hreq⟩ | ⟨mode, hreq⟩
    · simpa only [Outcome, hreq] using hout
    · simpa only [Outcome, hreq] using hout
  -- the one point of the create, and the entries before it
  have hat : ∀ t, entries (points tr) i = [t] → ∃ l₁ l₂ b b', points tr = l₁ ++ (i, t) :: l₂ ∧
      entrySpec.run a₀ (l₁.map Prod.snd) = some b ∧ entrySpec.step b t = some b' := by
    intro t ht
    have hmem : (i, t) ∈ points tr := by
      rw [← mem_entries, ht]
      exact List.mem_singleton_self _
    obtain ⟨l₁, l₂, hl⟩ := List.append_of_mem hmem
    rw [hl, List.map_append, List.map_cons] at hlegal
    obtain ⟨b, b', hb, hstep, -⟩ := run_split hlegal
    exact ⟨l₁, l₂, b, b', hl, hb, hstep⟩
  rw [createOutcome] at hcreate
  split at hcreate
  · rename_i hok
    obtain ⟨l₁, l₂, b, b', hl, hb, hstep⟩ := hat _ hcreate
    exact .inl ⟨l₁, _, l₂, b, hl, hb, .inl ⟨hok, (step_created hstep).1⟩⟩
  · rename_i y hex
    obtain ⟨rfl, hcreate⟩ := hcreate
    obtain ⟨l₁, l₂, b, b', hl, hb, hstep⟩ := hat _ hcreate
    refine .inl ⟨l₁, _, l₂, b, hl, hb, .inr ⟨hex, ?_⟩⟩
    simp only [entrySpec] at hstep
    split at hstep
    · rename_i hsome
      exact hsome
    · cases hstep
  · rename_i msg hcor
    exact .inr (.inr (.inr ⟨⟨msg, hcor⟩, hcreate.2⟩))
  · rename_i hst
    rw [hst]
    rcases hcreate.2 with h | h
    · exact .inr (.inl h)
    · exact .inr (.inr (.inl h))

/-- **Creates and lookups are linearizable.** Take any run of a server with
collision checks and a db, any `dir_lru_size` and any other options, without bulk
insertions and on directories whose number fits a key, and let `ks` be the steps
it takes. Its history is linearizable with respect to the map of entries: the
puts and the reads that settled the replies, in the order they happened, are
legal for the map and explain every reply, a reply that settles nothing by a
check of its own lease, permission or partition that failed in one of the steps
`ks`, by a db that failed there, or by a damaged record found there. A create of
one name that is not turned down so succeeds exactly when its key is absent.

From this order the rest follows: an entry that is stored is never overwritten,
no entry is created twice, and an `Lstat` invoked after a create has returned
sees exactly the stat that was stored, unless one of its checks or dbs fails. -/
theorem creates_linearizable (fs : Filesystem) (hcoll : fs.options.skipNameCollisionChecks = false)
    (db : Db) {ks : List (State × Label)} {tr : List FsEvent} {s : State}
    (hsteps : (fs.system (some db)).Steps ks tr s) (hplain : ∀ p ∈ ks, p.2.Plain) :
    (∃ lin, Linearizes entrySpec (view (db :: fs.readonlyDbs)) (fs.explains (Among ks)) (history tr)
        lin ∧
      ∀ i c x r, .inv i c ∈ tr → .ret i r ∈ tr → c.name? = some x → c.isLookup = false →
        (∃ l₁ t l₂ b, lin = l₁ ++ (i, t) :: l₂ ∧
            entrySpec.run (view (db :: fs.readonlyDbs)) (l₁.map Prod.snd) = some b ∧
            (r.status = .ok ∧ b c.dirId x = none ∨
              r.status = .err .alreadyExists x ∧ (b c.dirId x).isSome = true)) ∨
          fs.Refused (Among ks) i c r.status ∨ fs.Faulted (Among ks) i c r.status ∨
            fs.Damaged (Among ks) i c x r.status) ∧
      (∀ id x st, id.Fits → view (db :: fs.readonlyDbs) id x = some st →
        view (fs.dbs s) id x = some st) ∧
      (∀ i id x st, .pt i (.created id x st) ∈ tr → view (fs.dbs s) id x = some st) ∧
      (creations tr).Nodup ∧
      ∀ l₁ l₂ l₃ i r j c x st r', tr = l₁ ++ .ret i r :: (l₂ ++ .inv j c :: l₃) →
        .pt i (.created c.dirId x st) ∈ tr → c.req = .lstat x → .ret j r' ∈ tr →
        r'.status = .ok ∧ r'.stat = st ∨
          fs.Refused (Among ks) j c r'.status ∨ fs.Faulted (Among ks) j c r'.status := by
  have hrun := hsteps.run
  have hr := run_refines hcoll (hsteps.run_of (C := fun _ l => l.Plain) hplain)
  have hl := run_log hrun
  obtain ⟨a, ha, hv⟩ := hr.legal
  refine ⟨⟨points tr, hl.wf.linearizes (by rw [ha]; rfl) ?_, ?_⟩, ?_, ?_, ?_, ?_⟩
  · intro i c hc
    obtain ⟨op, hop, rfl⟩ := hl.inv.mp hc
    exact hl.explained hop
  · intro i c x r hinv hret hname hlook
    exact create_decides hrun ha hinv hret hname hlook
  · intro id x st hid hx
    rw [← hv id hid]
    exact entries_keep ha hx
  · intro i id x st hpt
    have hmem : .created id x st ∈ (points tr).map Prod.snd :=
      List.mem_map.mpr ⟨_, mem_points.mpr hpt, rfl⟩
    have hid : id.Fits := by
      obtain ⟨c, hc⟩ := hl.wf.invoked hpt
      obtain ⟨op, hop, rfl⟩ := hl.inv.mp hc
      obtain ⟨y, -, hkey⟩ := Op.Touched.key (hl.touched hop) (mem_entries_points.mpr hpt)
      obtain rfl : id = op.call.dirId := congrArg Prod.fst hkey
      exact (hr.plain hop).1
    rw [← hv id hid]
    exact created_stays ha hmem
  · exact creations_nodup ha
  · intro l₁ l₂ l₃ i r j c x st r' htr hcre hreq hret
    exact lstat_sees hrun ha htr hcre hreq hret

/-! ## A run of two operations

A server that creates a file and is asked for it; and one that shows why the number of a
directory has to fit a key. -/

/-- A server with the default options. -/
def plainServer : Filesystem := ⟨FilesystemOptions.default, ⟨fun _ _ => 0, fun _ _ => 0⟩, []⟩

/-- An environment in which nothing fails. -/
def calm : Env := ⟨0, fun _ => none, none, .ok, fun _ => none⟩

/-- A stat of zeros. -/
def zeroStat : Stat := ⟨0, 0, 0, 0, 0, 0, 0, 0, 0⟩

/-- A call of the superuser in the directory of a given number, under a lease
that does not end. -/
def rootCall (ino : UInt64) (req : Request) : Call := ⟨⟨0, 0⟩, ⟨0, ino, 0, 0, 0, 0, -1⟩, req⟩

/-- The sections of operation `i`, `k` of them. -/
def sections (i k : Nat) : List Label := List.replicate k (.advance i calm)

/-- What the first create of a run stores. -/
def firstStat : Stat := ⟨0, 1, 0, 0o100660, -1, 0, 0, 0, 0⟩

/-- `Mkfle`, and then `Lstat` of the same name. -/
def mkfleThenLstat : List Label :=
  .call (rootCall 0 (.mkfle (str "a") 0o660)) zeroStat :: sections 0 7 ++
    .call (rootCall 0 (.lstat (str "a"))) zeroStat :: sections 1 5

/-- The lookup of an orderly run sees what was stored. -/
theorem creates_linearizable_mkfleThenLstat :
    ∃ ks tr s, (plainServer.system (some fun _ => none)).Steps ks tr s ∧
      .ret 0 ⟨.ok, firstStat, none, 0⟩ ∈ tr ∧ .ret 1 ⟨.ok, firstStat, none, 0⟩ ∈ tr ∧
      Linearizable entrySpec (view [fun _ => none]) (plainServer.explains (Among ks)) (history tr) ∧
      (creations tr).Nodup := by
  have htr : ((plainServer.system (some fun _ => none)).exec (fun _ l => decide l.Plain)
      (plainServer.start (some fun _ => none)) mkfleThenLstat).map Prod.snd =
        some [.inv 0 (rootCall 0 (.mkfle (str "a") 0o660)),
          .pt 0 (.created ⟨0, 0⟩ (str "a") firstStat), .ret 0 ⟨.ok, firstStat, none, 0⟩,
          .inv 1 (rootCall 0 (.lstat (str "a"))),
          .pt 1 (.looked ⟨0, 0⟩ (str "a") (some firstStat)),
          .ret 1 ⟨.ok, firstStat, none, 0⟩] := by decide +kernel
  obtain ⟨⟨s, tr⟩, hp, htr⟩ := Option.map_eq_some_iff.mp htr
  have hinit : (plainServer.system (some fun _ => none)).init
      (plainServer.start (some fun _ => none)) := rfl
  have hrun := Run.exec (C := fun _ l => l.Plain) (fun _ _ hd => of_decide_eq_true hd)
    (.init hinit) hp
  obtain ⟨ks, hsteps, hplain⟩ := hrun.steps
  obtain ⟨⟨lin, hlin, -⟩, -, -, hnodup, -⟩ :=
    creates_linearizable plainServer rfl (fun _ => none) hsteps hplain
  dsimp only at htr
  rw [List.nil_append, htr] at hsteps hlin hnodup
  refine ⟨ks, _, s, hsteps, ?_, ?_, ⟨lin, hlin⟩, hnodup⟩
  · simp
  · simp

/-- `Mkfle` of one name in directory 0 and in directory `2^56`. -/
def mkfleTwice : List Label :=
  .call (rootCall 0 (.mkfle (str "a") 0o660)) zeroStat :: sections 0 7 ++
    .call (rootCall 0x100000000000000 (.mkfle (str "a") 0o660)) zeroStat :: sections 1 6

/-- Directories whose number does not fit share keys with others: a create
collides with an entry of another directory, and no order of touches explains
that. -/
theorem creates_collide_across_directories :
    ¬ ∀ fs : Filesystem, fs.options.skipNameCollisionChecks = false → ∀ (db : Db)
      (ks : List (State × Label)) (tr : List FsEvent) (s : State),
      (fs.system (some db)).Steps ks tr s → (∀ p ∈ ks, p.2.NoBukin) →
        Linearizable entrySpec (view (db :: fs.readonlyDbs)) (fs.explains (Among ks))
          (history tr) := by
  intro hall
  have htr : ((plainServer.system (some fun _ => none)).exec (fun _ l => decide l.NoBukin)
      (plainServer.start (some fun _ => none)) mkfleTwice).map (fun p => history p.2) =
        some [.inv 0 (rootCall 0 (.mkfle (str "a") 0o660)), .ret 0 ⟨.ok, firstStat, none, 0⟩,
          .inv 1 (rootCall 0x100000000000000 (.mkfle (str "a") 0o660)),
          .ret 1 ⟨.err .alreadyExists (str "a"), { firstStat with inodeNo := 2 }, none, 0⟩] := by
    decide +kernel
  obtain ⟨⟨s, tr⟩, hp, htr⟩ := Option.map_eq_some_iff.mp htr
  have hinit : (plainServer.system (some fun _ => none)).init
      (plainServer.start (some fun _ => none)) := rfl
  have hrun := Run.exec (C := fun _ l => l.NoBukin) (fun _ _ hd => of_decide_eq_true hd)
    (.init hinit) hp
  obtain ⟨ks, hsteps, hks⟩ := hrun.steps
  obtain ⟨lin, hlin⟩ := hall plainServer rfl _ ks _ _ hsteps hks
  rw [List.nil_append] at hlin
  dsimp only at htr
  rw [htr] at hlin
  -- the creates touch directory 0 only, the collision is with directory 2^56
  obtain ⟨ino, hfst⟩ := hlin.explained 0 (rootCall 0 (.mkfle (str "a") 0o660)) (by simp)
  obtain ⟨ino', hsnd⟩ :=
    hlin.explained 1 (rootCall 0x100000000000000 (.mkfle (str "a") 0o660)) (by simp)
  have hfst : entries lin 0 = [.created ⟨0, 0⟩ (str "a") firstStat] := hfst
  have hsnd : entries lin 1 = [.collided ⟨0, 0x100000000000000⟩ (str "a")] := hsnd.2
  obtain ⟨a, ha⟩ := Option.isSome_iff_exists.mp hlin.legal
  have hcol : .collided ⟨0, 0x100000000000000⟩ (str "a") ∈ lin.map Prod.snd := by
    have hin : (1, Touch.collided ⟨0, 0x100000000000000⟩ (str "a")) ∈ lin := by
      rw [← mem_entries, hsnd]
      exact List.mem_singleton_self _
    exact List.mem_map.mpr ⟨_, hin, rfl⟩
  have hno : ∀ st, .created ⟨0, 0x100000000000000⟩ (str "a") st ∉ lin.map Prod.snd := by
    intro st hin
    obtain ⟨⟨k, t⟩, hk, rfl⟩ := List.mem_map.mp hin
    obtain ⟨op, hop⟩ := hlin.invoked _ hk
    have hk' := mem_entries.mpr hk
    have h01 : k = 0 ∨ k = 1 := by
      rcases List.mem_cons.mp hop with heq | hop
      · cases heq
        exact .inl rfl
      · simp at hop
        exact .inr hop.1
    rcases h01 with rfl | rfl
    · rw [hfst] at hk'
      cases List.mem_singleton.mp hk'
    · rw [hsnd] at hk'
      cases List.mem_singleton.mp hk'
  obtain ⟨es₁, es₂, hes⟩ := List.append_of_mem hcol
  rw [hes] at ha hno
  obtain ⟨b, c, hb, hstep, -⟩ := run_split ha
  have hmiss : b ⟨0, 0x100000000000000⟩ (str "a") = none :=
    entries_missing hb rfl fun st hin => hno st (List.mem_append_left _ hin)
  simp [entrySpec, hmiss] at hstep

end Filesystem

end DeltaFs
