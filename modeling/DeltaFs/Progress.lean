import DeltaFs.Linear

/-!
# The ways of a directory never deadlock

An operation that has to wait waits for a way that another operation on the same
block has locked. Ways are locked in increasing order, so that the owner, if it
waits itself, waits for a higher way; the owner of the highest way somebody waits
for is not waiting. Whatever the calls on the db return, some operation can
therefore go on until all have finished, and a way nobody has locked is free.

The proof goes up the ways of a block (`unblocked_of_busy`): the owner of a busy way can go
on, or waits for a higher one that is busy, and there are eight of them. Everything else
that an operation does is a section that can always be taken (`advance_some`).
-/

namespace DeltaFs.Filesystem

open TransitionSystem

variable {fs : Filesystem} {s s' : State} {i : Nat} {op op' : Op} {e : Env} {es : List FsEvent}

/-- An operation that has returned. -/
def Finished (op : Op) : Prop := ∃ st, op.pc = .done st

/-- Operation `i` can take its next section, whatever the db answers, and does
not wait for a way after it. -/
def Unblocked (fs : Filesystem) (s : State) (i : Nat) : Prop :=
  ∀ e, ∃ s' es op', fs.step s (.advance i e) = some (s', es) ∧ s'.ops[i]? = some op' ∧
    ∀ j, op'.pc ≠ .waiting j

/-- Operation `op` waits for way `j`, a busy one, and has locked only lower
ones. -/
def WaitsFor (s : State) (op : Op) (j : Nat) : Prop :=
  ∃ p d, op.dir = some p ∧ s.table.mem p = some d ∧ d.busy j = true ∧ ∀ w, op.Owns w → w < j

/-- A db stays open. -/
theorem Move.db_open (hm : Move fs s i op e s' op' es) (hdb : s.db.isSome = true) :
    s'.db.isSome = true := by
  cases hm with
  | bulk => rfl
  | put => rfl
  | _ => exact hdb

/-- The db of a server that was opened on one. -/
theorem run_db {db : Db} {C : State → Label → Prop} {tr : List FsEvent}
    (hr : (fs.system (some db)).Run C tr s) : s.db.isSome = true := by
  refine hr.invariant_state (I := fun s => s.db.isSome = true) ?_ ?_
  · rintro s rfl
    rfl
  · intro s l s' es hdb _ hs
    rcases step_cases hs with ⟨c, stat, -, rfl, -⟩ | ⟨i, e, op, s₁, op', -, -, hm, rfl⟩
    · exact hdb
    · exact hm.db_open hdb

/-- There are `kWays` ways. -/
theorem owns_lt {w : Nat} (h : op.Owns w) (hplaced : op.Placed) : w < kWays := by
  have hend : op.call.isLookup = false → op.call.ways.2 ≤ kWays := by
    intro hlook
    rcases Call.ways_eq hlook with ⟨-, hw⟩ | ⟨x, -, hw⟩
    · rw [hw]
    · rw [hw]
      exact wayOf_lt x
  rw [Op.Owns] at h
  rw [Op.Placed] at hplaced
  cases hpc : op.pc with
  | waiting j =>
    rw [hpc] at h hplaced
    exact Nat.lt_of_lt_of_le (h.2.trans hplaced.2.2) (hend hplaced.1)
  | running =>
    rw [hpc] at h hplaced
    exact Nat.lt_of_lt_of_le h.2 (hend hplaced)
  | putting name rest =>
    rw [hpc] at h hplaced
    exact Nat.lt_of_lt_of_le h.2 (hend hplaced.1)
  | unlocking st =>
    rw [hpc] at h hplaced
    exact Nat.lt_of_lt_of_le h.2 (hend hplaced)
  | _ =>
    rw [hpc] at h
    exact h.elim

/-- Locking that stops at way `j` has not come to the end. -/
theorem locked_waiting {j j' n : Nat}
    (h : (if j' = n then Pc.running else Pc.waiting j') = .waiting j) : j' ≠ n ∧ j' = j := by
  split at h
  · cases h
  · rename_i hne
    exact ⟨hne, Pc.waiting.inj h⟩

/-- A section after which the operation waits has come to a busy way. -/
theorem Move.waitsFor (hm : Move fs s i op e s' op' es) (hplaced : op.Placed) {j : Nat}
    (hpc : op'.pc = .waiting j) : WaitsFor s op j := by
  cases hm with
  | @lockFirst p d busy j' hop hp hd hok hlook hl =>
    obtain ⟨hne, rfl⟩ := locked_waiting hpc
    have hlt := op.call.ways_lt
    have hend := hl.le_end
    refine ⟨p, d, hp, hd, hl.stop (by omega), fun w hw => ?_⟩
    rw [Op.Owns, hop] at hw
    exact hw.elim
  | @lockMore p d k busy j' hop hp hd hfree hl =>
    obtain ⟨hne, rfl⟩ := locked_waiting hpc
    rw [Op.Placed, hop] at hplaced
    have hlt := hplaced.2.2
    have hend := hl.le_end
    refine ⟨p, d, hp, hd, hl.stop (by omega), fun w hw => ?_⟩
    rw [Op.Owns, hop] at hw
    exact Nat.lt_of_lt_of_le hw.2 hl.le
  | put hop hdb =>
    rw [putDone] at hpc
    split at hpc <;> cases hpc
  | read hop hname =>
    obtain ⟨-, -, st, hst⟩ := read_frame fs s op _ e
    rw [hst] at hpc
    cases hpc
  | _ => cases hpc

/-! ## Sections that can be taken

A section is a partial function, and could be undefined for several reasons: a block that is not
there, a db that is closed, a read without a name. The invariants exclude all but one: the way
that the operation is to lock next is busy. -/

/-- The block an operation works on is there. -/
theorem Blocks.onDir_some (hi : Blocks fs s.table s.ops) (hk : s.ops[i]? = some op)
    (hin : op.pc.isInside = true) (f : Dir → Op × Dir) : ∃ r, onDir s op f = some r := by
  obtain ⟨p, hp⟩ := hi.held hk hin
  obtain ⟨d, hd, -⟩ := hi.block hk hp
  rw [onDir, hp]
  simp only [hd]
  exact ⟨_, rfl⟩

/-- An operation that has its ways goes on. -/
theorem run_some (fs : Filesystem) (hdb : s.db.isSome = true) (hlook : op.call.isLookup = false)
    (e : Env) : ∃ r, fs.run s op e = some r := by
  obtain ⟨db, hdb⟩ := Option.isSome_iff_exists.mp hdb
  rw [Call.isLookup] at hlook
  rw [run]
  cases hreq : op.call.req with
  | bukin dir =>
    simp only [hdb, Option.map_some]
    exact ⟨_, rfl⟩
  | mkfls namearr mode n =>
    simp only
    split
    · exact ⟨_, rfl⟩
    · exact ⟨_, rfl⟩
  | mkfle name mode => exact ⟨_, rfl⟩
  | mkdir name mode => exact ⟨_, rfl⟩
  | lokup name =>
    rw [hreq] at hlook
    cases hlook
  | lstat name =>
    rw [hreq] at hlook
    cases hlook

/-- A put is made, or fails. -/
theorem put_some (hdb : s.db.isSome = true) (op : Op) (name rest : Slice) (e : Env) :
    ∃ r, put s op name rest e = some r := by
  obtain ⟨db, hdb⟩ := Option.isSome_iff_exists.mp hdb
  rw [put, hdb]
  simp only
  split
  · exact ⟨_, rfl⟩
  · exact ⟨_, rfl⟩

/-- An operation that reads has a name to read. -/
theorem name_of_isLookup {c : Call} (h : c.isLookup = true) : ∃ name, c.name? = some name := by
  obtain ⟨who, parent, req⟩ := c
  cases req with
  | lokup name => exact ⟨name, rfl⟩
  | lstat name => exact ⟨name, rfl⟩
  | _ => cases h

/-- **Only a busy way stops an operation** that has not returned. All other sections can be
taken whatever the state, and the calls on the db return one way or another. -/
theorem advance_some (hi : Blocks fs s.table s.ops) (hdb : s.db.isSome = true)
    (hk : s.ops[i]? = some op) (hunfinished : ¬ Finished op)
    (hfree : ∀ j, op.pc = .waiting j → ¬ WaitsFor s op j) (e : Env) :
    ∃ r, fs.advance s i op e = some r := by
  have hplaced := hi.placed hk
  have hblock := fun hin f => hi.onDir_some hk hin f
  rw [Op.Placed] at hplaced
  rw [advance]
  cases hpc : op.pc with
  | entered =>
    obtain ⟨t, p, ha, -⟩ := hi.table.acquireDir op.call.dirId
    simp only [acquire, ha, Option.map_some]
    exact ⟨_, rfl⟩
  | acquired => exact ⟨_, rfl⟩
  | checked =>
    obtain ⟨r, hr⟩ := hblock (by rw [hpc]; rfl) (fs.enter op)
    simp only [hr, Option.map_some]
    exact ⟨_, rfl⟩
  | waiting j =>
    obtain ⟨r, hr⟩ := hblock (by rw [hpc]; rfl) fun d => lockFrom op d j
    obtain ⟨p, hp⟩ := hi.held hk (by rw [hpc]; rfl)
    obtain ⟨d, hd, -⟩ := hi.block hk hp
    -- nobody holds the way waited for: a busy flag would name an owner
    have hway : d.busy j = false := by
      refine Bool.eq_false_of_not_eq_true fun hbusy => hfree j hpc ⟨p, d, hp, hd, hbusy, ?_⟩
      intro w hw
      rw [Op.Owns, hpc] at hw
      exact hw.2
    simp only [hp, Option.bind_some, hd, Option.any_some, hway, Bool.false_eq_true, if_false, hr,
      Option.map_some]
    exact ⟨_, rfl⟩
  | running =>
    rw [hpc] at hplaced
    obtain ⟨r, hr⟩ := run_some fs hdb hplaced e
    simp only [hr, Option.map_some]
    exact ⟨_, rfl⟩
  | putting name rest =>
    obtain ⟨r, hr⟩ := put_some hdb op name rest e
    simp only [hr, Option.map_some]
    exact ⟨_, rfl⟩
  | reading =>
    rw [hpc] at hplaced
    obtain ⟨name, hname⟩ := name_of_isLookup hplaced
    simp only [hname]
    exact ⟨_, rfl⟩
  | unlocking st =>
    obtain ⟨r, hr⟩ := hblock (by rw [hpc]; rfl) fun d => ({ op with pc := .leaving st },
      { d with busy := unlockWays op.call.ways.1 op.call.ways.2 d.busy })
    simp only [hr, Option.map_some]
    exact ⟨_, rfl⟩
  | leaving st =>
    obtain ⟨p, hp⟩ := hi.held hk (by rw [hpc]; rfl)
    have hpos : 0 < refs s.ops p := holders_pos hk hp
    obtain ⟨t, ht, -⟩ := hi.table.release hpos
    simp only [hp, leave, ht, Option.map_some]
    exact ⟨_, rfl⟩
  | done st => exact absurd ⟨st, hpc⟩ hunfinished

/-- An operation that is blocked waits for a busy way, or would after its next
section. -/
theorem waitsFor_of_blocked (hi : Blocks fs s.table s.ops) (hdb : s.db.isSome = true)
    (hk : s.ops[i]? = some op) (hunfinished : ¬ Finished op) (h : ¬ Unblocked fs s i) :
    ∃ j, WaitsFor s op j := by
  by_contra hno
  have hnone := fun j hw => hno ⟨j, hw⟩
  refine h fun e => ?_
  obtain ⟨⟨s', op', es⟩, ha⟩ := advance_some hi hdb hk hunfinished (fun j _ => hnone j) e
  have hm := advance_move ha
  refine ⟨{ s' with ops := s'.ops.set i op' }, es, op', ?_, ?_, fun j hpc => ?_⟩
  · simp only [step, hk, ha, Option.map_some]
  · simp only [hm.ops_eq]
    exact pool_set_self hk
  · exact hnone j (hm.waitsFor (hi.placed hk) hpc)

/-! ## No deadlock

Ways are locked in ascending order. An operation that waits for way `j` has locked only lower
ones, so the owner of way `j` waits, if at all, for a higher one. There are finitely many, so
going from owner to owner ends at an operation that does not wait. -/

/-- **The owner of a busy way** can go on, or waits for the owner of a higher
one, who can. -/
theorem unblocked_of_busy (hi : Blocks fs s.table s.ops) (hdb : s.db.isSome = true) {p : Nat}
    {d : Dir} (hd : s.table.mem p = some d) (n : Nat) :
    ∀ j, d.busy j = true → kWays - j ≤ n → ∃ i, Unblocked fs s i := by
  induction n with
  | zero =>
    -- ways from `kWays` on are never locked
    intro j hbusy hn
    obtain ⟨k, op, hk, -, hown⟩ := (hi.busy hd j).mp hbusy
    have hlt := owns_lt hown (hi.placed hk)
    omega
  | succ n ih =>
    intro j hbusy hn
    obtain ⟨k, op, hk, hp, hown⟩ := (hi.busy hd j).mp hbusy
    by_contra hblocked
    have hunfinished : ¬ Finished op := by
      rintro ⟨st, hst⟩
      rw [Op.Owns, hst] at hown
      exact hown
    obtain ⟨j', p', d', hp', hd', hbusy', hlow⟩ :=
      waitsFor_of_blocked hi hdb hk hunfinished fun h => hblocked ⟨k, h⟩
    obtain rfl := Option.some.inj (hp.symm.trans hp')
    obtain rfl := Option.some.inj (hd.symm.trans hd')
    have hjj := hlow j hown
    exact hblocked (ih j' hbusy' (by omega))

/-- **The ways are live and safe**: in every reachable state some operation that
has not returned goes on without waiting, unless all have returned; a way has one
owner; and the ways of a block nobody has locked any way of are free.

Single creates take one way of a block and batches all of them, in order. There is no
deadlock because of that order: the owner of a busy way can go on, or waits for a higher one,
and so on up to the last (`unblocked_of_busy`). -/
theorem ways_live {db : Db} {C : State → Label → Prop} {tr : List FsEvent}
    (hr : (fs.system (some db)).Run C tr s) :
    ((∃ op ∈ s.ops, ¬ Finished op) → ∃ i, Unblocked fs s i) ∧
      (∀ (k k' : Nat) (o o' : Op) (p w : Nat), s.ops[k]? = some o → s.ops[k']? = some o' →
        o.dir = some p → o'.dir = some p → o.Owns w → o'.Owns w → k = k') ∧
      ∀ p d, s.table.mem p = some d → (∀ o ∈ s.ops, o.dir = some p → ∀ w, ¬ o.Owns w) →
        ∀ w, d.busy w = false := by
  have hi := run_blocks hr
  have hdb := run_db hr
  refine ⟨?_, fun k k' o o' p w => hi.owner, ?_⟩
  · rintro ⟨op, hop, hunfinished⟩
    obtain ⟨i, hk⟩ := List.mem_iff_getElem?.mp hop
    by_cases h : Unblocked fs s i
    · exact ⟨i, h⟩
    · obtain ⟨j, p, d, -, hd, hbusy, -⟩ := waitsFor_of_blocked hi hdb hk hunfinished h
      exact unblocked_of_busy hi hdb hd _ j hbusy (Nat.le_refl _)
  · intro p d hd hnone w
    refine Bool.eq_false_of_not_eq_true fun hbusy => ?_
    obtain ⟨k, o, hk, hp, hown⟩ := (hi.busy hd w).mp hbusy
    exact hnone o (List.mem_iff_getElem?.mpr ⟨k, hk⟩) hp w hown

/-- `Mkfle`, and `Mknos1` of any names that comes to the way of its name. -/
def mkfleAndMkfls : List Label :=
  .call (rootCall 0 (.mkfle (str "a") 0o660)) zeroStat :: sections 0 3 ++
    .call (rootCall 0 (.mkfls (str "ab") 0o660 2)) zeroStat :: sections 1 3

/-- While the batch waits for the way of the single create, the create goes on. -/
theorem ways_live_mkfleAndMkfls :
    ∃ tr s, (plainServer.system (some fun _ => none)).Run (fun _ _ => True) tr s ∧
      s.ops.map Op.pc = [.running, .waiting (wayOf (str "a"))] ∧
      ∃ i, Unblocked plainServer s i := by
  have hops : ((plainServer.system (some fun _ => none)).exec (fun _ _ => true)
      (plainServer.start (some fun _ => none)) mkfleAndMkfls).map (fun p => p.1.ops.map Op.pc) =
        some [.running, .waiting (wayOf (str "a"))] := by decide +kernel
  obtain ⟨⟨s, tr⟩, hp, hops⟩ := Option.map_eq_some_iff.mp hops
  have hinit : (plainServer.system (some fun _ => none)).init
      (plainServer.start (some fun _ => none)) := rfl
  have hrun := Run.exec (C := fun _ _ => True) (fun _ _ _ => trivial) (.init hinit) hp
  obtain ⟨hlive, -, -⟩ := ways_live hrun
  refine ⟨_, _, hrun, hops, hlive ?_⟩
  have hrunning : (.running : Pc) ∈ s.ops.map Op.pc := by
    rw [hops]
    exact List.mem_cons_self
  obtain ⟨op, hop, hpc⟩ := List.mem_map.mp hrunning
  refine ⟨op, hop, ?_⟩
  rintro ⟨st, hst⟩
  rw [hpc] at hst
  cases hst

end DeltaFs.Filesystem
