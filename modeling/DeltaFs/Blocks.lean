import DeltaFs.Filesystem

/-!
# Control blocks and ways in every run

What holds of the control blocks of a server between any two steps, for any
options: an operation references its block from the end of its first section to
the end of its last one, the block stays in memory meanwhile and is that of its
directory, and a way is busy exactly when an operation has locked it, which no
other one has then. Two operations that write one name of one directory
therefore exclude each other.

`Blocks` is the invariant. It has one rule for a section that works on its block
(`Blocks.write`), of which all others but the first and the last section are cases: those
that leave the ways alone, those that lock some, and the one that unlocks them. Later
invariants use `Blocks.exclusive` and do not look at ways again.
-/

namespace DeltaFs

open TransitionSystem

/-! ## Blocks, references and ways

Three things have to agree: the block an operation references, the ways it owns by where it has
got to, and the busy flags of the block. Only the order of the sections sees to it, so that they
agree is an invariant. -/

/-- The ways an operation has locked. -/
def Op.Owns (op : Op) (w : Nat) : Prop :=
  match op.pc with
  | .waiting j => op.call.ways.1 ≤ w ∧ w < j
  | .running => op.call.ways.1 ≤ w ∧ w < op.call.ways.2
  | .putting _ _ => op.call.ways.1 ≤ w ∧ w < op.call.ways.2
  | .unlocking _ => op.call.ways.1 ≤ w ∧ w < op.call.ways.2
  | _ => False

/-- Between its first and its last section an operation references a block. -/
def Pc.isInside : Pc → Bool
  | .entered => false
  | .done _ => false
  | _ => true

/-- What the place an operation has got to says about its call. -/
def Op.Placed (op : Op) : Prop :=
  match op.pc with
  | .waiting j => op.call.isLookup = false ∧ op.call.ways.1 ≤ j ∧ j < op.call.ways.2
  | .running => op.call.isLookup = false
  | .putting name _ => op.call.isLookup = false ∧ ∀ x, op.call.name? = some x → x = name
  | .unlocking _ => op.call.isLookup = false
  | .reading => op.call.isLookup = true
  | _ => True

/-- The way of a name. -/
def wayOf (name : Slice) : Nat := (hash name 0).toNat % kWays

theorem wayOf_lt (name : Slice) : wayOf name < kWays := Nat.mod_lt _ (by decide)

/-- A call that locks locks the way of its name, or all ways. -/
theorem Call.ways_eq {c : Call} (h : c.isLookup = false) :
    (c.name? = none ∧ c.ways = (0, kWays)) ∨
      ∃ x, c.name? = some x ∧ c.ways = (wayOf x, wayOf x + 1) := by
  obtain ⟨who, parent, req⟩ := c
  cases req with
  | bukin d => exact .inl ⟨rfl, rfl⟩
  | mkfls a m n => exact .inl ⟨rfl, rfl⟩
  | mkfle x m => exact .inr ⟨x, rfl, rfl⟩
  | mkdir x m => exact .inr ⟨x, rfl, rfl⟩
  | lokup x => cases h
  | lstat x => cases h

theorem Call.ways_lt (c : Call) : c.ways.1 < c.ways.2 := by
  obtain ⟨who, parent, req⟩ := c
  cases req <;> first | exact Nat.lt_succ_self _ | exact (by decide : 0 < kWays)

/-- A create locks the way of every name it is about. -/
theorem Call.wayOf_mem {c : Call} (h : c.isLookup = false) {name : Slice}
    (hname : ∀ x, c.name? = some x → x = name) :
    c.ways.1 ≤ wayOf name ∧ wayOf name < c.ways.2 := by
  rcases Call.ways_eq h with ⟨-, hw⟩ | ⟨x, hx, hw⟩
  · rw [hw]
    exact ⟨Nat.zero_le _, wayOf_lt name⟩
  · obtain rfl := hname x hx
    rw [hw]
    exact ⟨Nat.le_refl _, Nat.lt_succ_self _⟩

namespace Filesystem

/-- The number of operations that reference a block. -/
def refs (ops : List Op) : Nat → Nat := holders Op.dir ops

/-- The invariant of the control blocks and the operations on them. -/
structure Blocks (fs : Filesystem) (t : DirTable) (ops : List Op) : Prop where
  table : t.Inv (refs ops)
  /-- an index is that of the directory -/
  fetched : ∀ {p d g}, t.mem p = some d → d.giga = some g → g = fs.index d.id
  placed : ∀ {k : Nat} {op : Op}, ops[k]? = some op → op.Placed
  inside : ∀ {k : Nat} {op : Op}, ops[k]? = some op → (op.dir.isSome = op.pc.isInside)
  /-- a block is that of the directory -/
  block : ∀ {k : Nat} {op : Op} {p : Nat}, ops[k]? = some op → op.dir = some p →
    ∃ d, t.mem p = some d ∧ d.id = op.call.dirId
  /-- a way is busy when an operation has locked it -/
  busy : ∀ {p d}, t.mem p = some d →
    ∀ w, d.busy w = true ↔ ∃ (k : Nat) (op : Op), ops[k]? = some op ∧ op.dir = some p ∧ op.Owns w
  /-- one operation -/
  owner : ∀ {k k' : Nat} {op op' : Op} {p w : Nat}, ops[k]? = some op → ops[k']? = some op' →
    op.dir = some p → op'.dir = some p → op.Owns w → op'.Owns w → k = k'

variable {fs : Filesystem} {t t' : DirTable} {ops : List Op} {k : Nat} {op op' : Op} {p : Nat}

theorem Blocks.start (n : Nat) : Blocks fs (DirTable.empty n) [] where
  table := DirTable.Inv.empty n
  fetched hp := by cases hp
  placed hk := by cases hk
  inside hk := by cases hk
  block hk := by cases hk
  busy hp := by cases hp
  owner hk := by cases hk

/-- An operation arrives. -/
theorem Blocks.push (hi : Blocks fs t ops) (hpc : op.pc = .entered) (hdir : op.dir = none) :
    Blocks fs t (ops ++ [op]) where
  table := by
    rw [refs, holders_push ops hdir]
    exact hi.table
  fetched := hi.fetched
  placed {j o} hj := by
    rcases pool_push hj with ⟨-, rfl⟩ | hj
    · rw [Op.Placed, hpc]
      trivial
    · exact hi.placed hj
  inside {j o} hj := by
    rcases pool_push hj with ⟨-, rfl⟩ | hj
    · rw [hpc, hdir]
      rfl
    · exact hi.inside hj
  block {j o q} hj hq := by
    rcases pool_push hj with ⟨-, rfl⟩ | hj
    · rw [hdir] at hq
      cases hq
    · exact hi.block hj hq
  busy {q d} hd w := by
    rw [hi.busy hd]
    constructor
    · rintro ⟨j, o, hj, ho⟩
      exact ⟨j, o, pool_push_old hj, ho⟩
    · rintro ⟨j, o, hj, hq, ho⟩
      rcases pool_push hj with ⟨-, rfl⟩ | hj
      · rw [hdir] at hq
        cases hq
      · exact ⟨j, o, hj, hq, ho⟩
  owner {j j' o o' q w} hj hj' hq hq' ho ho' := by
    rcases pool_push hj with ⟨-, rfl⟩ | hj
    · rw [hdir] at hq
      cases hq
    · rcases pool_push hj' with ⟨-, rfl⟩ | hj'
      · rw [hdir] at hq'
        cases hq'
      · exact hi.owner hj hj' hq hq' ho ho'

/-! ## What an operation does to its block

An operation that moves leaves all blocks but its own alone, and its own for everybody else as
it was, but for the ways it takes or gives back. -/

/-- **Work on a block**: operation `k` moves and its block becomes `d'`, the
busy ways following what the operation has locked. -/
theorem Blocks.write (hi : Blocks fs t ops) (hk : ops[k]? = some op) (hp : op.dir = some p)
    {d : Dir} (hd : t.mem p = some d) (d' : Dir) (hid : d'.id = d.id)
    (hh : d'.lruHandle = d.lruHandle)
    (hg : ∀ g, d'.giga = some g → g = fs.index d.id) (hcall : op'.call = op.call)
    (hdir : op'.dir = op.dir) (hin : op'.pc.isInside = true) (hplaced : op'.Placed)
    (hgain : ∀ w, op'.Owns w → op.Owns w ∨ d.busy w = false)
    (hbusy : ∀ w, d'.busy w = true ↔ op'.Owns w ∨ d.busy w = true ∧ ¬ op.Owns w) :
    Blocks fs (t.setDir p d') (ops.set k op') where
  table := by
    rw [refs, holders_set hk hdir]
    exact hi.table.setDir hd hid hh
  fetched {q e g} he hge := by
    by_cases hq : q = p
    · subst hq
      rw [DirTable.setDir_self] at he
      cases he
      rw [hid]
      exact hg g hge
    · rw [DirTable.setDir_of_ne hq] at he
      exact hi.fetched he hge
  placed {j o} hj := by
    rcases pool_set hj with ⟨-, rfl⟩ | ⟨-, hj⟩
    · exact hplaced
    · exact hi.placed hj
  inside {j o} hj := by
    rcases pool_set hj with ⟨-, rfl⟩ | ⟨-, hj⟩
    · rw [hdir, hp, hin]
      rfl
    · exact hi.inside hj
  block {j o q} hj hq := by
    have hold : ∃ e, t.mem q = some e ∧ e.id = o.call.dirId := by
      rcases pool_set hj with ⟨-, rfl⟩ | ⟨-, hj⟩
      · rw [hcall]
        exact hi.block hk (hdir.symm.trans hq)
      · exact hi.block hj hq
    obtain ⟨e, he, heid⟩ := hold
    by_cases hqp : q = p
    · subst hqp
      obtain rfl := Option.some.inj (hd.symm.trans he)
      exact ⟨d', DirTable.setDir_self .., hid.trans heid⟩
    · exact ⟨e, (DirTable.setDir_of_ne hqp d').trans he, heid⟩
  -- only the block written can change its ways, and it does so as `hbusy` says
  busy {q e} he w := by
    by_cases hq : q = p
    · subst hq
      rw [DirTable.setDir_self] at he
      cases he
      rw [hbusy]
      constructor
      · rintro (ho | ⟨hb, hno⟩)
        · exact ⟨k, op', pool_set_self hk, hdir.trans hp, ho⟩
        · obtain ⟨j, o, hj, hoq, ho⟩ := (hi.busy hd w).mp hb
          have hjk : j ≠ k := by
            rintro rfl
            obtain rfl := Option.some.inj (hk.symm.trans hj)
            exact hno ho
          exact ⟨j, o, (pool_set_ne hjk).trans hj, hoq, ho⟩
      · rintro ⟨j, o, hj, hoq, ho⟩
        rcases pool_set hj with ⟨-, rfl⟩ | ⟨hjk, hj⟩
        · exact .inl ho
        · refine .inr ⟨(hi.busy hd w).mpr ⟨j, o, hj, hoq, ho⟩, fun hown => ?_⟩
          exact hjk (hi.owner hj hk hoq hp ho hown)
    · rw [DirTable.setDir_of_ne hq] at he
      rw [hi.busy he]
      constructor
      · rintro ⟨j, o, hj, hoq, ho⟩
        have hjk : j ≠ k := by
          rintro rfl
          obtain rfl := Option.some.inj (hk.symm.trans hj)
          exact hq (Option.some.inj (hoq.symm.trans hp))
        exact ⟨j, o, (pool_set_ne hjk).trans hj, hoq, ho⟩
      · rintro ⟨j, o, hj, hoq, ho⟩
        rcases pool_set hj with ⟨-, rfl⟩ | ⟨hjk, hj⟩
        · exact absurd (Option.some.inj ((hoq.symm.trans hdir).trans hp)) hq
        · exact ⟨j, o, hj, hoq, ho⟩
  owner {j j' o o' q w} hj hj' hq hq' ho ho' := by
    -- a way the operation has gained was free
    have hnew : ∀ {i : Nat} {x : Op}, ops[i]? = some x → i ≠ k → x.dir = some p → x.Owns w →
        ¬ op'.Owns w := by
      intro i x hix hik hxp hx hop
      rcases hgain w hop with hown | hfree
      · exact hik (hi.owner hix hk hxp hp hx hown)
      · rw [(hi.busy hd w).mpr ⟨i, x, hix, hxp, hx⟩] at hfree
        cases hfree
    rcases pool_set hj with ⟨rfl, rfl⟩ | ⟨hjk, hold⟩
    · rcases pool_set hj' with ⟨rfl, -⟩ | ⟨hjk', hold'⟩
      · rfl
      · obtain rfl := Option.some.inj ((hq.symm.trans hdir).trans hp)
        exact absurd ho (hnew hold' hjk' hq' ho')
    · rcases pool_set hj' with ⟨rfl, rfl⟩ | ⟨hjk', hold'⟩
      · obtain rfl := Option.some.inj ((hq'.symm.trans hdir).trans hp)
        exact absurd ho' (hnew hold hjk hq ho)
      · exact hi.owner hold hold' hq hq' ho ho'

/-- **A move away from the blocks**: the operation keeps its block and what it
has locked. -/
theorem Blocks.quiet (hi : Blocks fs t ops) (hk : ops[k]? = some op) (hp : op.dir = some p)
    (hcall : op'.call = op.call) (hdir : op'.dir = op.dir) (hin : op'.pc.isInside = true)
    (hplaced : op'.Placed) (howns : ∀ w, op'.Owns w ↔ op.Owns w) :
    Blocks fs t (ops.set k op') := by
  obtain ⟨d, hd, -⟩ := hi.block hk hp
  have hsame : t.setDir p d = t := by
    rw [DirTable.setDir, Function.update_eq_self_iff.mpr hd.symm]
  rw [← hsame]
  refine hi.write hk hp hd d rfl rfl (fun g hg => hi.fetched hd hg) hcall hdir hin hplaced ?_ ?_
  · intro w hw
    exact .inl ((howns w).mp hw)
  · intro w
    rw [howns]
    by_cases hw : op.Owns w
    · exact iff_of_true ((hi.busy hd w).mpr ⟨k, op, hk, hp, hw⟩) (.inl hw)
    · simp [hw]

/-- An operation acquires its block. -/
theorem Blocks.acquire (hi : Blocks fs t ops) (hk : ops[k]? = some op) (hpc : op.pc = .entered)
    (hacq : DirTable.Acquired t t' (refs ops) op.call.dirId p) (hcall : op'.call = op.call)
    (hp : op'.dir = some p) (hpc' : op'.pc = .acquired) : Blocks fs t' (ops.set k op') := by
  have hdir : op.dir = none := by
    have hin := hi.inside hk
    rw [hpc] at hin
    exact Option.not_isSome_iff_eq_none.mp (by rw [hin]; decide)
  have hnone : ∀ w, ¬ op'.Owns w := by
    intro w hw
    rw [Op.Owns, hpc'] at hw
    exact hw
  -- operations that reference a block keep it
  have hold : ∀ {q d}, t'.mem q = some d → t.mem q = some d ∨
      q = p ∧ d.id = op.call.dirId ∧ d.giga = none ∧ (∀ w, d.busy w = false) ∧ t.mem p = none := by
    intro q d hd
    by_cases hq : q = p
    · subst hq
      rcases hacq.block with ⟨d', hd', hd'', -⟩ | ⟨hnone, h, hnew⟩
      · obtain rfl := Option.some.inj (hd.symm.trans hd'')
        exact .inl hd'
      · obtain rfl := Option.some.inj (hd.symm.trans hnew)
        exact .inr ⟨rfl, rfl, rfl, fun _ => rfl, hnone⟩
    · rcases hacq.keeps q hq with h | ⟨h, -⟩
      · exact .inl (h.symm.trans hd)
      · rw [h] at hd
        cases hd
  constructor
  case table =>
    rw [refs, holders_acquire hk hdir hp]
    exact hacq.inv
  case fetched =>
    intro q d g hd hg
    rcases hold hd with hd | ⟨-, -, hnog, -⟩
    · exact hi.fetched hd hg
    · rw [hnog] at hg
      cases hg
  case placed =>
    intro j o hj
    rcases pool_set hj with ⟨-, rfl⟩ | ⟨-, hj⟩
    · rw [Op.Placed, hpc']
      trivial
    · exact hi.placed hj
  case inside =>
    intro j o hj
    rcases pool_set hj with ⟨-, rfl⟩ | ⟨-, hj⟩
    · rw [hp, hpc']
      rfl
    · exact hi.inside hj
  case block =>
    intro j o q hj hq
    rcases pool_set hj with ⟨-, rfl⟩ | ⟨-, hj⟩
    · obtain rfl := Option.some.inj (hp.symm.trans hq)
      rw [hcall]
      rcases hacq.block with ⟨d, -, hd, hid⟩ | ⟨-, h, hnew⟩
      · exact ⟨d, hd, hid⟩
      · exact ⟨_, hnew, rfl⟩
    · obtain ⟨d, hd, hid⟩ := hi.block hj hq
      by_cases hqp : q = p
      · subst hqp
        rcases hacq.block with ⟨d', hd', hd'', -⟩ | ⟨hnone, -⟩
        · obtain rfl := Option.some.inj (hd.symm.trans hd')
          exact ⟨d, hd'', hid⟩
        · rw [hd] at hnone
          cases hnone
      · rcases hacq.keeps q hqp with h | ⟨-, h⟩
        · exact ⟨d, h.trans hd, hid⟩
        · exact absurd (holders_pos hj hq) (Nat.not_lt.mpr (Nat.le_of_eq h))
  -- a block already there keeps its ways; a new one has none taken and no operation
  case busy =>
    intro q d hd w
    rcases hold hd with hd | ⟨rfl, -, -, hfree, hnone⟩
    · rw [hi.busy hd]
      constructor
      · rintro ⟨j, o, hj, hq, ho⟩
        have hjk : j ≠ k := by
          rintro rfl
          obtain rfl := Option.some.inj (hk.symm.trans hj)
          rw [hdir] at hq
          cases hq
        exact ⟨j, o, (pool_set_ne hjk).trans hj, hq, ho⟩
      · rintro ⟨j, o, hj, hq, ho⟩
        rcases pool_set hj with ⟨-, rfl⟩ | ⟨-, hj⟩
        · exact absurd ho (hnone w)
        · exact ⟨j, o, hj, hq, ho⟩
    · refine iff_of_false (by rw [hfree w]; decide) ?_
      rintro ⟨j, o, hj, hq, ho⟩
      rcases pool_set hj with ⟨-, rfl⟩ | ⟨-, hj⟩
      · exact hnone w ho
      · obtain ⟨e, he, -⟩ := hi.block hj hq
        rw [he] at hnone
        cases hnone
  case owner =>
    intro j j' o o' q w hj hj' hq hq' ho ho'
    rcases pool_set hj with ⟨-, rfl⟩ | ⟨-, hj⟩
    · exact absurd ho (hnone w)
    · rcases pool_set hj' with ⟨-, rfl⟩ | ⟨-, hj'⟩
      · exact absurd ho' (hnone w)
      · exact hi.owner hj hj' hq hq' ho ho'

/-- An operation gives its block back. -/
theorem Blocks.release (hi : Blocks fs t ops) (hk : ops[k]? = some op) (hp : op.dir = some p)
    {st : Status} (hpc : op.pc = .leaving st) (hrel : t.release p = some t')
    (hdir : op'.dir = none) (hpc' : op'.pc = .done st) : Blocks fs t' (ops.set k op') := by
  obtain ⟨t₁, hrel', hinv, hkeeps⟩ := hi.table.release (holders_pos hk hp)
  obtain rfl := Option.some.inj (hrel.symm.trans hrel')
  rw [refs, ← holders_release hk hp hdir] at hinv hkeeps
  -- the ways were given back in the section before
  have hnone : ∀ w, ¬ op.Owns w := by
    intro w hw
    rw [Op.Owns, hpc] at hw
    exact hw
  have hold : ∀ {q d}, t'.mem q = some d → t.mem q = some d := by
    intro q d hd
    rcases hkeeps q with h | ⟨h, -⟩
    · exact h.symm.trans hd
    · rw [h] at hd
      cases hd
  have hother : ∀ {j : Nat} {o : Op} {q : Nat}, (ops.set k op')[j]? = some o → o.dir = some q →
      ops[j]? = some o := by
    intro j o q hj hq
    rcases pool_set hj with ⟨-, rfl⟩ | ⟨-, hj⟩
    · rw [hdir] at hq
      cases hq
    · exact hj
  constructor
  case table => exact hinv
  case fetched =>
    intro q d g hd hg
    exact hi.fetched (hold hd) hg
  case placed =>
    intro j o hj
    rcases pool_set hj with ⟨-, rfl⟩ | ⟨-, hj⟩
    · rw [Op.Placed, hpc']
      trivial
    · exact hi.placed hj
  case inside =>
    intro j o hj
    rcases pool_set hj with ⟨-, rfl⟩ | ⟨-, hj⟩
    · rw [hdir, hpc']
      rfl
    · exact hi.inside hj
  case block =>
    intro j o q hj hq
    obtain ⟨d, hd, hid⟩ := hi.block (hother hj hq) hq
    exact ⟨d, (hkeeps.mem (holders_pos hj hq)).trans hd, hid⟩
  case busy =>
    intro q d hd w
    rw [hi.busy (hold hd)]
    constructor
    · rintro ⟨j, o, hj, hq, ho⟩
      have hjk : j ≠ k := by
        rintro rfl
        obtain rfl := Option.some.inj (hk.symm.trans hj)
        exact hnone w ho
      exact ⟨j, o, (pool_set_ne hjk).trans hj, hq, ho⟩
    · rintro ⟨j, o, hj, hq, ho⟩
      exact ⟨j, o, hother hj hq, hq, ho⟩
  case owner =>
    intro j j' o o' q w hj hj' hq hq' ho ho'
    exact hi.owner (hother hj hq) (hother hj' hq') hq hq' ho ho'

/-! ## Steps and runs

Each move of an operation touches at most one block, the one it references. So a move is handled
by what it does to that block: nothing (`quiet`), fetching an index (`fetch`), taking the ways
(`lock`), giving them up (`unlock`), or taking and dropping the reference itself. The cases of
`Blocks.move` only say which of these it is. -/

theorem maybeFetchDir_id (fs : Filesystem) (d : Dir) : (fs.maybeFetchDir d).id = d.id := by
  rw [maybeFetchDir]
  split <;> rfl

theorem maybeFetchDir_lruHandle (fs : Filesystem) (d : Dir) :
    (fs.maybeFetchDir d).lruHandle = d.lruHandle := by
  rw [maybeFetchDir]
  split <;> rfl

theorem maybeFetchDir_busy (fs : Filesystem) (d : Dir) : (fs.maybeFetchDir d).busy = d.busy := by
  rw [maybeFetchDir]
  split <;> rfl

/-- Fetching keeps the index right. -/
theorem Blocks.maybeFetchDir (hi : Blocks fs t ops) {d : Dir} (hd : t.mem p = some d) (g : DirIndex)
    (hg : (fs.maybeFetchDir d).giga = some g) : g = fs.index d.id := by
  rw [Filesystem.maybeFetchDir] at hg
  split at hg
  · exact hi.fetched hd hg
  · exact (Option.some.inj hg).symm

/-- The index a partition check uses. -/
theorem Blocks.gigaOf (hi : Blocks fs t ops) {d : Dir} (hd : t.mem p = some d) :
    fs.gigaOf (fs.maybeFetchDir d) = fs.index d.id := by
  rcases hg : (fs.maybeFetchDir d).giga with _ | g
  · rw [Filesystem.gigaOf, hg, maybeFetchDir_id, Option.getD_none]
  · rw [Filesystem.gigaOf, hg, Option.getD_some]
    exact hi.maybeFetchDir hd g hg

/-- An operation checks the partition of its name with the index of its
directory. -/
theorem Blocks.index (hi : Blocks fs t ops) (hk : ops[k]? = some op) (hp : op.dir = some p) {d : Dir}
    (hd : t.mem p = some d) : fs.gigaOf (fs.maybeFetchDir d) = fs.index op.call.dirId := by
  obtain ⟨d', hd', hid⟩ := hi.block hk hp
  obtain rfl := Option.some.inj (hd.symm.trans hd')
  rw [hi.gigaOf hd, hid]

theorem Blocks.held (hi : Blocks fs t ops) (hk : ops[k]? = some op) (hin : op.pc.isInside = true) :
    ∃ p, op.dir = some p :=
  Option.isSome_iff_exists.mp ((hi.inside hk).trans hin)

/-- A batch and a single create look the same to their block. -/
theorem Next.frame {op op₁ : Op} {name rest : Slice} (hn : Next op op₁ name rest) :
    op₁.call = op.call ∧ op₁.dir = op.dir ∧ op₁.pc = op.pc := by
  cases hn <;> exact ⟨rfl, rfl, rfl⟩

theorem Next.names {op op₁ : Op} {name rest : Slice} (hn : Next op op₁ name rest) :
    op.call.isLookup = false ∧ ∀ x, op.call.name? = some x → x = name := by
  cases hn with
  | single hname hlook => exact ⟨hlook, fun x hx => Option.some.inj (hx.symm.trans hname)⟩
  | batch hreq hnext =>
    refine ⟨by rw [Call.isLookup, hreq], fun x hx => ?_⟩
    rw [Call.name?, hreq] at hx
    cases hx

theorem read_frame (fs : Filesystem) (s : State) (op : Op) (name : Slice) (e : Env) :
    (fs.read s op name e).1.call = op.call ∧ (fs.read s op name e).1.dir = op.dir ∧
      ∃ st, (fs.read s op name e).1.pc = .leaving st := by
  rw [read]
  split
  · split
    · split
      · exact ⟨rfl, rfl, _, rfl⟩
      · exact ⟨rfl, rfl, _, rfl⟩
    · exact ⟨rfl, rfl, _, rfl⟩
  · exact ⟨rfl, rfl, _, rfl⟩

/-- What is locked after the ways below `j` have been. -/
theorem owns_locked (op : Op) (j w : Nat) :
    ({ op with pc := if j = op.call.ways.2 then .running else .waiting j } : Op).Owns w ↔
      op.call.ways.1 ≤ w ∧ w < j := by
  split
  · rename_i h
    rw [h]
    rfl
  · rfl

theorem placed_locked {op : Op} {i k j : Nat} {busy busy' : Nat → Bool}
    (hl : op.call.isLookup = false) (hi : op.call.ways.1 ≤ i) (hk : i + k = op.call.ways.2)
    (hlock : Locked busy i k busy' j) :
    ({ op with pc := if j = op.call.ways.2 then .running else .waiting j } : Op).Placed := by
  have hle := hlock.le
  have hend := hlock.le_end
  split
  · exact hl
  · have hfst : op.call.ways.1 ≤ j := Nat.le_trans hi hle
    have hlt : j < op.call.ways.2 := by omega
    exact ⟨hl, hfst, hlt⟩

theorem inside_locked (op : Op) (j : Nat) :
    ({ op with pc := if j = op.call.ways.2 then .running else .waiting j } : Op).pc.isInside =
      true := by
  dsimp only
  split <;> rfl

theorem Move.ops_eq {s s' : State} {i : Nat} {op op' : Op} {e : Env} {es : List FsEvent}
    (hm : Move fs s i op e s' op' es) : s'.ops = s.ops := by
  cases hm <;> rfl

theorem Move.call_eq {s s' : State} {i : Nat} {op op' : Op} {e : Env} {es : List FsEvent}
    (hm : Move fs s i op e s' op' es) : op'.call = op.call := by
  cases hm with
  | acquire hpc hacq =>
    simp only [reserve]
    split <;> rfl
  | collide hpc hn hskip hread => exact hn.frame.1
  | fail hpc hn hok hnf => exact hn.frame.1
  | clear hpc hn hread => exact hn.frame.1
  | put hpc hdb =>
    rw [putDone]
    split <;> rfl
  | read hpc hname => exact (read_frame ..).1
  | _ => rfl

section Sections

variable {fs : Filesystem} {t : DirTable} {ops : List Op} {k p : Nat} {op op' : Op} {d : Dir}

/-! ### Taking and giving back

The sections that write to a block, as instances of `Blocks.write`. -/

/-- A section that fetches the index, and neither has nor takes a way. -/
theorem Blocks.fetch (hi : Blocks fs t ops) (hk : ops[k]? = some op) (hp : op.dir = some p)
    (hd : t.mem p = some d) (hcall : op'.call = op.call) (hdir : op'.dir = op.dir)
    (hin : op'.pc.isInside = true) (hplaced : op'.Placed) (hnone : ∀ w, ¬op.Owns w)
    (hnone' : ∀ w, ¬op'.Owns w) : Blocks fs (t.setDir p (fs.maybeFetchDir d)) (ops.set k op') := by
  refine hi.write hk hp hd _ (maybeFetchDir_id fs d) (maybeFetchDir_lruHandle fs d)
    (hi.maybeFetchDir hd) hcall hdir hin hplaced (fun w hw => absurd hw (hnone' w)) fun w => ?_
  rw [maybeFetchDir_busy]
  simp only [hnone w, hnone' w, not_false_eq_true, and_true, false_or]

/-- **Ways are locked** from `b` on, by an operation that has those below `b`: the first
time `b` is its first way, and after a wait the way it has waited for. -/
theorem Blocks.lock (hi : Blocks fs t ops) (hk : ops[k]? = some op) (hp : op.dir = some p)
    (hd : t.mem p = some d) {d' : Dir} (hid : d'.id = d.id) (hh : d'.lruHandle = d.lruHandle)
    (hg : ∀ g, d'.giga = some g → g = fs.index d.id) (hlook : op.call.isLookup = false) {b j : Nat}
    {busy : Nat → Bool} (howns : ∀ w, op.Owns w ↔ op.call.ways.1 ≤ w ∧ w < b)
    (hfst : op.call.ways.1 ≤ b) (hend : b ≤ op.call.ways.2)
    (hlock : Locked d.busy b (op.call.ways.2 - b) busy j) :
    Blocks fs (t.setDir p { d' with busy := busy })
      (ops.set k { op with pc := if j = op.call.ways.2 then .running else .waiting j }) := by
  have hle := hlock.le
  refine hi.write hk hp hd { d' with busy := busy } hid hh hg rfl rfl (inside_locked op j)
    (placed_locked hlook hfst (by omega) hlock) ?_ ?_
  · intro w hw
    obtain ⟨hw₁, hw₂⟩ := (owns_locked op j w).mp hw
    rcases Nat.lt_or_ge w b with hlt | hge
    · exact .inl ((howns w).mpr ⟨hw₁, hlt⟩)
    · exact .inr (hlock.free w hge hw₂)
  · intro w
    rw [owns_locked, hlock.locked, howns]
    constructor
    · rintro (hb | ⟨hw₁, hw₂⟩)
      · by_cases hw : op.call.ways.1 ≤ w ∧ w < b
        · exact .inl ⟨hw.1, by omega⟩
        · exact .inr ⟨hb, hw⟩
      · exact .inl ⟨by omega, hw₂⟩
    · rintro (⟨hw₁, hw₂⟩ | ⟨hb, -⟩)
      · rcases Nat.lt_or_ge w b with hlt | hge
        · exact .inl ((hi.busy hd w).mpr ⟨k, op, hk, hp, (howns w).mpr ⟨hw₁, hlt⟩⟩)
        · exact .inr ⟨hge, hw₂⟩
      · exact .inl hb

/-- **All ways are unlocked.** The flags of the ways of the call are cleared, and those
were the operation's own: the others stay as they were. -/
theorem Blocks.unlock (hi : Blocks fs t ops) (hk : ops[k]? = some op) (hp : op.dir = some p)
    (hd : t.mem p = some d) {st : Status} (hpc : op.pc = .unlocking st) :
    Blocks fs (t.setDir p { d with busy := unlockWays op.call.ways.1 op.call.ways.2 d.busy })
      (ops.set k { op with pc := .leaving st }) := by
  have howns : ∀ w, op.Owns w ↔ op.call.ways.1 ≤ w ∧ w < op.call.ways.2 := by
    intro w
    rw [Op.Owns, hpc]
  refine hi.write hk hp hd { d with busy := unlockWays op.call.ways.1 op.call.ways.2 d.busy }
    rfl rfl (fun g hg => hi.fetched hd hg) rfl rfl rfl trivial (fun w hw => hw.elim) fun w => ?_
  rw [howns]
  simp only [unlockWays, Op.Owns, false_or]
  split
  · rename_i hw
    exact iff_of_false (by decide) fun h => h.2 hw
  · rename_i hw
    exact ⟨fun h => ⟨h, hw⟩, fun h => h.1⟩

end Sections

/-- **A move keeps the invariant of the blocks.** Most sections leave the block as it is,
and the operation with the ways it has (`quiet`); the others acquire it, fetch its index,
lock or unlock ways, or release it. -/
theorem Blocks.move {s s' : State} {i : Nat} {op op' : Op} {e : Env} {es : List FsEvent}
    (hi : Blocks fs s.table s.ops) (hk : s.ops[i]? = some op) (hm : Move fs s i op e s' op' es) :
    Blocks fs s'.table (s'.ops.set i op') := by
  have hplaced := hi.placed hk
  have hcall := hm.call_eq
  cases hm with
  | @acquire t p hpc hacq =>
    obtain ⟨t', p', hacq', hA⟩ := hi.table.acquireDir op.call.dirId
    obtain ⟨rfl, rfl⟩ := Prod.mk.inj (Option.some.inj (hacq.symm.trans hacq'))
    exact hi.acquire hk hpc hA hcall rfl rfl
  -- most sections keep the block and the ways they found: only the place in the body
  -- changes
  | refuse hpc hr =>
    obtain ⟨p, hp⟩ := hi.held hk (by rw [hpc]; rfl)
    exact hi.quiet hk hp rfl rfl rfl trivial fun w => by simp [Op.Owns, hpc]
  | pass hpc hr =>
    obtain ⟨p, hp⟩ := hi.held hk (by rw [hpc]; rfl)
    exact hi.quiet hk hp rfl rfl rfl trivial fun w => by simp [Op.Owns, hpc]
  | @misplaced p d hpc hp hd hno =>
    exact hi.fetch hk hp hd rfl rfl rfl trivial (by simp [Op.Owns, hpc]) (by simp [Op.Owns])
  | @enterRead p d hpc hp hd hok hlook =>
    exact hi.fetch hk hp hd rfl rfl rfl hlook (by simp [Op.Owns, hpc]) (by simp [Op.Owns])
  -- no way is owned yet: the range of ways already taken is empty
  | @lockFirst p d busy j hpc hp hd hok hlook hlock =>
    have hways := op.call.ways_lt
    refine hi.lock hk hp hd (maybeFetchDir_id fs d) (maybeFetchDir_lruHandle fs d) (hi.maybeFetchDir hd)
      hlook (fun w => ?_) (Nat.le_refl _) (by omega) hlock
    rw [Op.Owns, hpc]
    exact iff_of_false (fun h => h) fun h => Nat.not_lt_of_le h.1 h.2
  | @lockMore p d k busy j hpc hp hd hfree hlock =>
    rw [Op.Placed, hpc] at hplaced
    obtain ⟨hlook, hfst, hend⟩ := hplaced
    exact hi.lock hk hp hd rfl rfl (fun g hg => hi.fetched hd hg) hlook (fun w => by rw [Op.Owns, hpc])
      hfst hend.le hlock
  | bulk hpc hreq hdb =>
    obtain ⟨p, hp⟩ := hi.held hk (by rw [hpc]; rfl)
    refine hi.quiet hk hp rfl rfl rfl ?_ fun w => by simp [Op.Owns, hpc, stop]
    rw [Op.Placed, hpc] at hplaced
    exact hplaced
  | finish hpc hreq hnext =>
    obtain ⟨p, hp⟩ := hi.held hk (by rw [hpc]; rfl)
    refine hi.quiet hk hp rfl rfl rfl ?_ fun w => by simp [Op.Owns, hpc, stop]
    rw [Op.Placed, hpc] at hplaced
    exact hplaced
  -- in the body of a batch the call may have moved to its next name
  | @collide op₁ name rest hpc hn hskip hread =>
    obtain ⟨p, hp⟩ := hi.held hk (by rw [hpc]; rfl)
    obtain ⟨hc, hdir, -⟩ := hn.frame
    refine hi.quiet hk hp hc hdir rfl ?_ fun w => by simp [Op.Owns, hpc, stop, hc]
    exact (congrArg Call.isLookup hc).trans hn.names.1
  | @fail op₁ name rest hpc hn hok hnf =>
    obtain ⟨p, hp⟩ := hi.held hk (by rw [hpc]; rfl)
    obtain ⟨hc, hdir, -⟩ := hn.frame
    refine hi.quiet hk hp hc hdir rfl ?_ fun w => by simp [Op.Owns, hpc, stop, hc]
    exact (congrArg Call.isLookup hc).trans hn.names.1
  | @clear op₁ name rest hpc hn hread =>
    obtain ⟨p, hp⟩ := hi.held hk (by rw [hpc]; rfl)
    obtain ⟨hc, hdir, -⟩ := hn.frame
    refine hi.quiet hk hp hc hdir rfl ?_ fun w => by simp [Op.Owns, hpc, hc]
    refine ⟨(congrArg Call.isLookup hc).trans hn.names.1, fun x hx => hn.names.2 x ?_⟩
    exact (congrArg Call.name? hc).symm.trans hx
  | @put name rest db hpc hdb =>
    obtain ⟨p, hp⟩ := hi.held hk (by rw [hpc]; rfl)
    rw [Op.Placed, hpc] at hplaced
    rw [putDone]
    split
    · exact hi.quiet hk hp rfl rfl rfl hplaced.1 fun w => by simp [Op.Owns, hpc]
    · exact hi.quiet hk hp rfl rfl rfl hplaced.1 fun w => by simp [Op.Owns, hpc, stop]
  | @putFail name rest msg db hpc hdb =>
    obtain ⟨p, hp⟩ := hi.held hk (by rw [hpc]; rfl)
    rw [Op.Placed, hpc] at hplaced
    exact hi.quiet hk hp rfl rfl rfl hplaced.1 fun w => by simp [Op.Owns, hpc, stop]
  | @read name hpc hname =>
    obtain ⟨p, hp⟩ := hi.held hk (by rw [hpc]; rfl)
    obtain ⟨hc, hdir, st, hpc'⟩ := read_frame fs s op name e
    refine hi.quiet hk hp hc hdir (by rw [hpc']; rfl) ?_ fun w => by simp [Op.Owns, hpc, hpc']
    rw [Op.Placed, hpc']
    trivial
  | @unlock st p d hpc hp hd => exact hi.unlock hk hp hd hpc
  | @leave st p t hpc hp hrel => exact hi.release hk hp hpc hrel rfl rfl

/-- A step keeps the invariant of the blocks. -/
theorem Blocks.step {s s' : State} {l : Label} {es : List FsEvent} (hi : Blocks fs s.table s.ops)
    (h : fs.step s l = some (s', es)) : Blocks fs s'.table s'.ops := by
  rcases step_cases h with ⟨c, stat, -, rfl, -⟩ | ⟨i, e, op, s₁, op', -, hk, hm, rfl⟩
  · exact hi.push rfl rfl
  · exact hi.move hk hm

/-- **The invariant of the blocks holds in every run.** There is no condition: it holds for
every option of the server and every size of the cache. -/
theorem run_blocks {db : Option Db} {C : State → Label → Prop} {tr : List FsEvent} {s : State}
    (hr : (fs.system db).Run C tr s) : Blocks fs s.table s.ops := by
  refine hr.invariant_state (I := fun s => Blocks fs s.table s.ops) ?_ ?_
  · rintro s rfl
    exact Blocks.start _
  · intro s l s' es hi _ hs
    exact hi.step hs

/-- **Mutual exclusion**: two operations that are about to put one name of one
directory are the same. -/
theorem Blocks.exclusive (hi : Blocks fs t ops) {k k' : Nat} {op op' : Op} (hk : ops[k]? = some op)
    (hk' : ops[k']? = some op') {name rest rest' : Slice} (hpc : op.pc = .putting name rest)
    (hpc' : op'.pc = .putting name rest') (hid : op.call.dirId = op'.call.dirId) : k = k' := by
  have howns : ∀ {j : Nat} {o : Op} {r : Slice}, ops[j]? = some o → o.pc = .putting name r →
      o.Owns (wayOf name) := by
    intro j o r hj ho
    have hp := hi.placed hj
    rw [Op.Placed, ho] at hp
    rw [Op.Owns, ho]
    exact Call.wayOf_mem hp.1 hp.2
  obtain ⟨p, hp⟩ := hi.held hk (by rw [hpc]; rfl)
  obtain ⟨p', hp'⟩ := hi.held hk' (by rw [hpc']; rfl)
  obtain ⟨d, hd, hdid⟩ := hi.block hk hp
  obtain ⟨d', hd', hdid'⟩ := hi.block hk' hp'
  have hpp : p = p' := hi.table.indexed.unique hd hd' (by rw [hdid, hdid', hid])
  rw [← hpp] at hp'
  exact hi.owner hk hk' hp hp' (howns hk hpc) (howns hk' hpc')

end Filesystem

end DeltaFs
