import DeltaFs.Linear

/-!
# Inode numbers

A create takes its numbers from `inoq_` under `mutex_`, uses them unlocked, and
gives the unused ones back only when the last of them is still the last number
taken. Whatever the order of creates, failures and give-backs, no number is
stored twice as long as the counter does not wrap: the ranges assigned to
running operations are disjoint, lie below the counter, and hold no number
another operation has stored.

The invariant has the numbers of each operation as an interval, and what the operation has
stored of it so far as the part below its next number (`Op.Assigned`). A give-back shortens
the interval and lowers the counter by as much, and is only done when nothing has been
drawn since.
-/

namespace DeltaFs

open Linearization TransitionSystem

/-! ## Numbers of a run and of an operation

A number is assigned to an operation from the moment it is reserved until its record is stored
or the operation is over. What is stored can be read off the touches of the run. -/

/-- The inode number a touch stores. -/
def Touch.ino? : Touch → Option Nat
  | .created _ _ st => some st.inodeNo.toNat
  | _ => none

/-- The inode numbers a run has stored, in order. -/
def storedInos (tr : List FsEvent) : List Nat := ((points tr).map Prod.snd).filterMap Touch.ino?

/-- The first number an operation was given. -/
def Op.firstIno (op : Op) : Nat :=
  match op.call.req with
  | .mkfls _ _ _ => op.startino.toNat
  | _ => op.myino.toNat

/-- The numbers assigned to an operation that is running. -/
def Op.Assigned (op : Op) (x : Nat) : Prop :=
  op.pc.isInside = true ∧ op.firstIno ≤ x ∧ x < op.firstIno + op.call.inos.toNat

/-- What an operation that is running knows about its numbers. -/
structure Op.Reserved (op : Op) : Prop where
  /-- a single create stores its number -/
  single : op.call.name?.isSome = true → op.call.isLookup = false → op.stat.inodeNo = op.myino
  /-- a batch was given as many as it asked for, and counts no more -/
  batch : ∀ {namearr mode n}, op.call.req = .mkfls namearr mode n →
    op.myino - op.startino + 1 = n.toUInt64 ∧ op.n.toNat ≤ n.toNat
  range : 0 < op.call.inos.toNat →
    1 ≤ op.firstIno ∧ op.firstIno + op.call.inos.toNat = op.myino.toNat + 1

theorem mem_storedInos {tr : List FsEvent} {x : Nat} :
    x ∈ storedInos tr ↔ ∃ i id name st, .pt i (.created id name st) ∈ tr ∧ st.inodeNo.toNat = x := by
  rw [storedInos, List.mem_filterMap]
  constructor
  · rintro ⟨t, ht, hx⟩
    obtain ⟨⟨i, t'⟩, hp, rfl⟩ := List.mem_map.mp ht
    cases t' with
    | created id name st => exact ⟨i, id, name, st, mem_points.mp hp, Option.some.inj hx⟩
    | collided id name => cases hx
    | looked id name v => cases hx
  · rintro ⟨i, id, name, st, hp, rfl⟩
    exact ⟨_, List.mem_map.mpr ⟨_, mem_points.mpr hp, rfl⟩, rfl⟩

/-- The numbers of a batch follow each other. -/
theorem mem_creates_ino {id id' : DirId} {stat st : Stat} {ino : UInt64} {xs : List Slice}
    {x : Slice} (h : .created id' x st ∈ creates id stat ino xs) :
    ∃ k < xs.length, st.inodeNo = ino + UInt64.ofNat k := by
  induction xs generalizing ino with
  | nil => cases h
  | cons y xs ih =>
    rcases List.mem_cons.mp h with heq | h
    · cases heq
      exact ⟨0, Nat.succ_pos _, (UInt64.add_zero _).symm⟩
    · obtain ⟨k, hk, hst⟩ := ih h
      refine ⟨k + 1, Nat.succ_lt_succ hk, ?_⟩
      rw [hst, UInt64.ofNat_add, UInt64.add_assoc, UInt64.add_comm 1]
      rfl

/-- Adding to a number without wrapping. -/
theorem toNat_add_ofNat {a : UInt64} {k : Nat} (h : a.toNat + k < 2 ^ 64) :
    (a + UInt64.ofNat k).toNat = a.toNat + k := by
  rw [UInt64.toNat_add, UInt64.toNat_ofNat', Nat.mod_eq_of_lt (by omega : k < 2 ^ 64),
    Nat.mod_eq_of_lt h]

/-- A call that creates one name takes one number. -/
theorem Call.inos_single {c : Call} {name : Slice} (hname : c.name? = some name)
    (hlook : c.isLookup = false) :
    c.inos = 1 ∧ c.names = [] ∧ ∀ namearr mode n, c.req ≠ .mkfls namearr mode n := by
  rw [Call.inos, Call.names]
  rcases Call.single_cases hname hlook with ⟨mode, hreq⟩ | ⟨mode, hreq⟩
  · rw [hreq]
    exact ⟨rfl, rfl, fun _ _ _ h => by cases h⟩
  · rw [hreq]
    exact ⟨rfl, rfl, fun _ _ _ h => by cases h⟩

/-- A batch takes as many as it asks for, and has no more names. -/
theorem Call.inos_batch {c : Call} {namearr : Slice} {mode n : UInt32}
    (hreq : c.req = .mkfls namearr mode n) :
    c.inos.toNat = n.toNat ∧ c.names.length ≤ n.toNat := by
  rw [Call.inos, Call.names, hreq]
  exact ⟨UInt32.toNat_toUInt64 n, length_decodeNames_le ..⟩

/-- A call that takes numbers is a batch, or creates one name. -/
theorem Call.inos_pos {c : Call} (h : 0 < c.inos.toNat) :
    (∃ namearr mode n, c.req = .mkfls namearr mode n) ∨
      ∃ name, c.name? = some name ∧ c.isLookup = false := by
  obtain ⟨who, parent, req⟩ := c
  cases req with
  | bukin d => cases h
  | mkfls a m n => exact .inl ⟨a, m, n, rfl⟩
  | mkfle x m => exact .inr ⟨x, rfl, rfl⟩
  | mkdir x m => exact .inr ⟨x, rfl, rfl⟩
  | lokup x => cases h
  | lstat x => cases h

theorem Op.firstIno_batch {op : Op} {namearr : Slice} {mode n : UInt32}
    (hreq : op.call.req = .mkfls namearr mode n) : op.firstIno = op.startino.toNat := by
  rw [Op.firstIno, hreq]

theorem Op.firstIno_single {op : Op} (h : ∀ namearr mode n, op.call.req ≠ .mkfls namearr mode n) :
    op.firstIno = op.myino.toNat := by
  rw [Op.firstIno]
  split
  · rename_i hreq
    exact absurd hreq (h _ _ _)
  · rfl

/-- The numbers a batch stores are its own, one after the other. -/
theorem Op.Reserved.creates_lt {op : Op} (hr : op.Reserved) {namearr : Slice} {mode n : UInt32}
    (hreq : op.call.req = .mkfls namearr mode n) {m : Nat} (hm : m ≤ n.toNat) {id : DirId}
    {stat st : Stat} {x : Slice}
    (h : .created id x st ∈ creates op.call.dirId stat op.startino (op.call.names.take m)) :
    st.inodeNo.toNat < op.firstIno + m := by
  obtain ⟨k, hk, hst⟩ := mem_creates_ino h
  rw [List.length_take] at hk
  have hrange := hr.range
  rw [(Call.inos_batch hreq).1] at hrange
  have hlt := op.myino.toNat_lt
  have hfirst := Op.firstIno_batch hreq
  rw [hst, toNat_add_ofNat (by omega)]
  omega

/-- How many of its numbers an operation that fails keeps. -/
def Op.kept (op : Op) : Nat :=
  match op.call.req with
  | .mkfls _ _ _ => op.n.toNat
  | _ => 0

namespace Filesystem

variable {fs : Filesystem} {C : State → Label → Prop} {s s' : State} {i : Nat} {op op' : Op} {e : Env}
  {tr evs : List FsEvent} {name rest : Slice}

/-- Steps that do not wrap the counter. -/
def NoWrap (s : State) : Label → Prop
  | .call _ _ => True
  | .advance i _ => ∀ op ∈ s.ops[i]?, op.pc = .entered →
      s.inoq.toNat + op.call.inos.toNat < 2 ^ 64

instance : ∀ (s : State) (l : Label), Decidable (NoWrap s l)
  | _, .call _ _ => inferInstanceAs (Decidable True)
  | s, .advance i _ => inferInstanceAs (Decidable (∀ op ∈ s.ops[i]?, op.pc = .entered →
      s.inoq.toNat + op.call.inos.toNat < 2 ^ 64))

/-! ## What a move does to the numbers

Most moves do nothing to them. The others are the first section, which draws them, the puts,
each of which stores the next one, and the last section. -/

/-- What a section between the first and the last leaves alone. -/
structure KeepsInos (op op' : Op) : Prop where
  inside : op.pc.isInside = true
  inside' : op'.pc.isInside = true
  call : op'.call = op.call
  myino : op'.myino = op.myino
  startino : op'.startino = op.startino
  stat : op.call.name?.isSome = true → op.call.isLookup = false → op'.stat = op.stat
  n : op'.n = op.n ∨ (∃ namearr mode n, op.call.req = .mkfls namearr mode n) ∧
    op'.n = UInt32.ofNat op.m ∧ op.Progress

theorem keepsInos_pc {pc : Pc} (hin : op.pc.isInside = true) (hin' : pc.isInside = true) :
    KeepsInos op { op with pc := pc } :=
  ⟨hin, hin', rfl, rfl, rfl, fun _ _ => rfl, .inl rfl⟩

theorem keepsInos_stop {o : Op} (st : Status) (hp : op.Progress) (hin : op.pc.isInside = true)
    (hcall : o.call = op.call) (hmyino : o.myino = op.myino) (hstart : o.startino = op.startino)
    (hstat : op.call.name?.isSome = true → o.stat = op.stat) (hm : o.m = op.m) (hn : o.n = op.n) :
    KeepsInos op (stop o st) where
  inside := hin
  inside' := rfl
  call := hcall
  myino := hmyino
  startino := hstart
  stat hs _ := hstat hs
  n := by
    rw [stop, hcall]
    dsimp only
    split
    · rename_i namearr mode n hreq
      exact .inr ⟨⟨_, _, _, hreq⟩, by rw [hm], hp⟩
    · exact .inl hn

/-- A batch that goes on with its next name only changes the number in its
stat. -/
theorem Next.inos {op op₁ : Op} {name rest : Slice} (hn : Next op op₁ name rest) :
    op₁.call = op.call ∧ op₁.myino = op.myino ∧ op₁.startino = op.startino ∧
      (op.call.name?.isSome = true → op₁.stat = op.stat) ∧ op₁.m = op.m ∧ op₁.n = op.n := by
  cases hn with
  | single hname hlook => exact ⟨rfl, rfl, rfl, fun _ => rfl, rfl, rfl⟩
  | batch hreq hnext =>
    refine ⟨rfl, rfl, rfl, fun hs => ?_, rfl, rfl⟩
    rw [Call.name?, hreq] at hs
    cases hs

theorem read_inos (fs : Filesystem) (s : State) (op : Op) (name : Slice) (e : Env) :
    (fs.read s op name e).1.myino = op.myino ∧ (fs.read s op name e).1.startino = op.startino ∧
      (fs.read s op name e).1.n = op.n := by
  rw [Filesystem.read]
  split
  · split
    · split <;> exact ⟨rfl, rfl, rfl⟩
    · exact ⟨rfl, rfl, rfl⟩
  · exact ⟨rfl, rfl, rfl⟩

/-- Lookups store nothing. -/
theorem storedInos_read (fs : Filesystem) (s : State) (op : Op) (name : Slice) (e : Env) :
    storedInos ((fs.read s op name e).2.map (.pt i)) = [] := by
  rw [storedInos, points_pts, List.map_map, read_touches]
  split <;> rfl

/-- **What a move does to the numbers.** It reserves those of its call, or gives back
what is left of them, or leaves the counter alone; and the only section that stores a
number stores one of the operation's own. -/
theorem Move.inos (hm : Move fs s i op e s' op' evs) {es : List Touch} (ht : op.Touched fs C i es)
    (hplaced : op.Placed) :
    (op.pc = .entered ∧ s'.inoq = s.inoq + op.call.inos ∧ storedInos evs = [] ∧
      ∃ p, op' = { fs.reserve op (s.inoq + op.call.inos) with dir := p, pc := .acquired }) ∨
    (∃ st, op.pc = .leaving st ∧ s'.inoq = giveBack op st s.inoq ∧ storedInos evs = [] ∧
      op'.pc = .done st) ∨
    s'.inoq = s.inoq ∧ KeepsInos op op' ∧ (storedInos evs = [] ∨
      ∃ name rest, op.pc = .putting name rest ∧ evs = [.pt i (.created op.call.dirId name op.stat)]) := by
  cases hm with
  -- the first section takes the inodes of the call off the counter
  | acquire hpc hacq => exact .inl ⟨hpc, rfl, rfl, _, rfl⟩
  | refuse hpc hr =>
    exact .inr (.inr ⟨rfl, keepsInos_pc (by rw [hpc]; rfl) rfl, .inl rfl⟩)
  | pass hpc hr =>
    exact .inr (.inr ⟨rfl, keepsInos_pc (by rw [hpc]; rfl) rfl, .inl rfl⟩)
  | misplaced hpc hp hd hno =>
    exact .inr (.inr ⟨rfl, keepsInos_pc (by rw [hpc]; rfl) rfl, .inl rfl⟩)
  | enterRead hpc hp hd hok hlook =>
    exact .inr (.inr ⟨rfl, keepsInos_pc (by rw [hpc]; rfl) rfl, .inl rfl⟩)
  | @lockFirst p d busy j hpc hp hd hok hlook hlock =>
    exact .inr (.inr ⟨rfl, keepsInos_pc (by rw [hpc]; rfl) (inside_locked op j), .inl rfl⟩)
  | @lockMore p d k busy j hpc hp hd hfree hlock =>
    exact .inr (.inr ⟨rfl, keepsInos_pc (by rw [hpc]; rfl) (inside_locked op j), .inl rfl⟩)
  -- where the body ends, no record is stored: what the call has used stays as it was
  | bulk hpc hreq hdb =>
    rw [Op.Touched, hpc] at ht
    refine .inr (.inr ⟨rfl, ?_, .inl rfl⟩)
    exact keepsInos_stop _ ht.1 (by rw [hpc]; rfl) rfl rfl rfl (fun _ => rfl) rfl rfl
  | finish hpc hreq hnext =>
    rw [Op.Touched, hpc] at ht
    refine .inr (.inr ⟨rfl, ?_, .inl rfl⟩)
    exact keepsInos_stop _ ht.1 (by rw [hpc]; rfl) rfl rfl rfl (fun _ => rfl) rfl rfl
  | collide hpc hn hskip hread =>
    rw [Op.Touched, hpc] at ht
    obtain ⟨h₁, h₂, h₃, h₄, h₅, h₆⟩ := hn.inos
    refine .inr (.inr ⟨rfl, ?_, .inl rfl⟩)
    exact keepsInos_stop _ ht.1 (by rw [hpc]; rfl) h₁ h₂ h₃ h₄ h₅ h₆
  | fail hpc hn hok hnf =>
    rw [Op.Touched, hpc] at ht
    obtain ⟨h₁, h₂, h₃, h₄, h₅, h₆⟩ := hn.inos
    refine .inr (.inr ⟨rfl, ?_, .inl rfl⟩)
    exact keepsInos_stop _ ht.1 (by rw [hpc]; rfl) h₁ h₂ h₃ h₄ h₅ h₆
  | clear hpc hn hread =>
    obtain ⟨h₁, h₂, h₃, h₄, h₅, h₆⟩ := hn.inos
    refine .inr (.inr ⟨rfl, ?_, .inl rfl⟩)
    exact ⟨by rw [hpc]; rfl, rfl, h₁, h₂, h₃, fun hs _ => h₄ hs, .inl h₆⟩
  -- the only section that stores a record
  | put hpc hdb =>
    rw [Op.Touched, hpc] at ht
    refine .inr (.inr ⟨rfl, ?_, .inr ⟨_, _, hpc, rfl⟩⟩)
    rw [putDone]
    split
    · exact ⟨by rw [hpc]; rfl, rfl, rfl, rfl, rfl, fun _ _ => rfl, .inl rfl⟩
    · exact keepsInos_stop _ ht.1 (by rw [hpc]; rfl) rfl rfl rfl (fun _ => rfl) rfl rfl
  | putFail hpc hdb =>
    rw [Op.Touched, hpc] at ht
    refine .inr (.inr ⟨rfl, ?_, .inl rfl⟩)
    exact keepsInos_stop _ ht.1 (by rw [hpc]; rfl) rfl rfl rfl (fun _ => rfl) rfl rfl
  | @read name hpc hname =>
    rw [Op.Placed, hpc] at hplaced
    obtain ⟨hcall, -, st, hpc'⟩ := read_frame fs s op name e
    obtain ⟨hmyino, hstart, hn⟩ := read_inos fs s op name e
    refine .inr (.inr ⟨rfl, ?_, .inl (storedInos_read ..)⟩)
    refine ⟨by rw [hpc]; rfl, by rw [hpc']; rfl, hcall, hmyino, hstart, ?_, .inl hn⟩
    intro _ hlook
    rw [hplaced] at hlook
    cases hlook
  | unlock hpc hp hd =>
    exact .inr (.inr ⟨rfl, keepsInos_pc (by rw [hpc]; rfl) rfl, .inl rfl⟩)
  | leave hpc hp hrel => exact .inr (.inl ⟨_, hpc, rfl, rfl, rfl⟩)

/-! ## What an operation has stored of its own numbers

An operation owns the numbers it has drawn until it returns, and stores them from the first on.
Which of them it has stored is known at each point of its code, and so is what it may give back:
the number of a single create, or the rest of a batch. -/

theorem KeepsInos.firstIno (h : KeepsInos op op') : op'.firstIno = op.firstIno := by
  rw [Op.firstIno, Op.firstIno, h.call, h.myino, h.startino]

theorem KeepsInos.assigned (h : KeepsInos op op') {x : Nat} : op'.Assigned x ↔ op.Assigned x := by
  rw [Op.Assigned, Op.Assigned, h.firstIno, h.call, h.inside, h.inside']

theorem KeepsInos.reserved (h : KeepsInos op op') (hr : op.Reserved) : op'.Reserved where
  single hs hlook := by
    rw [h.call] at hs hlook
    rw [h.stat hs hlook, h.myino]
    exact hr.single hs hlook
  batch {namearr mode k} hreq := by
    rw [h.call] at hreq
    rw [h.myino, h.startino]
    obtain ⟨hcount, hle⟩ := hr.batch hreq
    refine ⟨hcount, ?_⟩
    rcases h.n with hn | ⟨-, hn, hp⟩
    · rw [hn]
      exact hle
    · rw [hn, hp.toNat_ofNat hreq]
      exact Nat.le_trans (hp.2 _ _ _ hreq).2.1 (Call.inos_batch hreq).2
  range hpos := by
    rw [h.call] at hpos ⊢
    rw [h.firstIno, h.myino]
    exact hr.range hpos

/-- **Before a put**, the number is one of the operation's, and none it has
stored. -/
theorem putting_ino (hr : op.Reserved) (hpc : op.pc = .putting name rest) {es : List Touch}
    (ht : op.Touched fs C i es) :
    op.Assigned op.stat.inodeNo.toNat ∧
      ∀ id x st, .created id x st ∈ es → st.inodeNo.toNat ≠ op.stat.inodeNo.toNat := by
  rw [Op.Touched, hpc] at ht
  obtain ⟨hp, hes, ⟨hname, hlook⟩ | ⟨namearr, mode, n, hreq, hnext, hino⟩⟩ := ht
  · obtain ⟨hone, hnil, hno⟩ := Call.inos_single hname hlook
    rw [hnil, List.take_nil] at hes
    refine ⟨⟨by rw [hpc]; rfl, ?_⟩, fun id x st hc => ?_⟩
    · rw [hr.single (by rw [hname]; rfl) hlook, Op.firstIno_single hno, hone]
      exact ⟨Nat.le_refl _, Nat.lt_succ_self _⟩
    · rw [hes] at hc
      cases hc
  · obtain ⟨hget, -⟩ := hp.next hreq hnext
    have hlt : op.m < op.call.names.length := (List.getElem?_eq_some_iff.mp hget).1
    obtain ⟨hcount, hlen⟩ := Call.inos_batch hreq
    have hrange := hr.range
    have hfirst := Op.firstIno_batch hreq
    have hmy := op.myino.toNat_lt
    have hval : op.stat.inodeNo.toNat = op.firstIno + op.m := by
      rw [hino, toNat_add_ofNat (by omega), hfirst]
    refine ⟨⟨by rw [hpc]; rfl, by omega, by omega⟩, fun id x st hc => ?_⟩
    rw [hes] at hc
    have hst := hr.creates_lt hreq (by omega) hc
    omega

/-- **Before the last section** of a create that failed, the numbers it has
stored are among those it keeps. -/
theorem leaving_ino (hr : op.Reserved) {st : Status} (hpc : op.pc = .leaving st)
    (hst : st.isOk = false) {es : List Touch} (ht : op.Touched fs C i es) {id : DirId} {x : Slice}
    {st' : Stat} (hc : .created id x st' ∈ es) : st'.inodeNo.toNat < op.firstIno + op.kept := by
  have hout : fs.Outcome C i op.call op.startino (op.reply st) es := by
    rw [Op.Touched, hpc] at ht
    exact ht
  obtain ⟨⟨namearr, mode, n, hreq⟩, hmem⟩ := hout.created hc hst
  rw [Op.kept, hreq]
  exact hr.creates_lt hreq (hr.batch hreq).2 hmem

/-- What the last section does to the counter. -/
theorem giveBack_cases (hr : op.Reserved) (st : Status) (inoq : UInt64) :
    giveBack op st inoq = inoq ∨
      st.isOk = false ∧ op.myino = inoq ∧ 0 < op.call.inos.toNat ∧
        op.kept ≤ op.call.inos.toNat ∧
        (giveBack op st inoq).toNat + 1 = op.firstIno + op.kept := by
  -- a single create: its one inode goes back when no later call has reserved since
  have hone : ∀ name, op.call.name? = some name → op.call.isLookup = false →
      tryReuseIno inoq op.myino 1 = inoq ∨
        op.myino = inoq ∧ 0 < op.call.inos.toNat ∧ 0 ≤ op.call.inos.toNat ∧
          (tryReuseIno inoq op.myino 1).toNat + 1 = op.firstIno + 0 := by
    intro name hname hlook
    obtain ⟨hinos, -, hno⟩ := Call.inos_single hname hlook
    rw [tryReuseIno]
    split
    · rename_i heq
      have hrange := hr.range
      rw [hinos] at hrange
      obtain ⟨hpos, -⟩ := hrange (by decide)
      have hfirst := Op.firstIno_single hno
      rw [heq] at hfirst
      rw [hfirst] at hpos
      refine .inr ⟨heq, by rw [hinos]; decide, Nat.zero_le _, ?_⟩
      have hle : (1 : UInt64) ≤ inoq := UInt64.le_iff_toNat_le.mpr hpos
      rw [UInt64.toNat_sub_of_le _ _ hle, hfirst]
      exact Nat.sub_add_cancel hpos
    · exact .inl rfl
  rw [giveBack]
  split
  · exact .inl rfl
  rename_i hst
  have hst := Bool.eq_false_of_not_eq_true hst
  rcases hreq : op.call.req with d | ⟨namearr, mode, n⟩ | ⟨y, mode⟩ | ⟨y, mode⟩ | y | y
  · exact .inl rfl
  · obtain ⟨hcount, hle⟩ := hr.batch hreq
    obtain ⟨hinos, -⟩ := Call.inos_batch hreq
    have hkept : op.kept = op.n.toNat := by
      rw [Op.kept, hreq]
    have hsub : (op.myino - op.startino + 1 - op.n.toUInt64).toNat = n.toNat - op.n.toNat := by
      rw [hcount, UInt64.toNat_sub_of_le _ _ (UInt64.le_iff_toNat_le.mpr (by simpa using hle))]
      simp
    dsimp only
    rw [tryReuseIno]
    split
    · rename_i heq
      -- an empty batch has taken nothing, so giving back leaves the counter alone
      by_cases hpos : 0 < op.call.inos.toNat
      · obtain ⟨hfirst, hrange⟩ := hr.range hpos
        rw [heq] at hrange
        refine .inr ⟨hst, heq, hpos, by omega, ?_⟩
        rw [UInt64.toNat_sub_of_le _ _ (UInt64.le_iff_toNat_le.mpr (by omega)), hsub]
        omega
      · refine .inl (UInt64.toNat_inj.mp ?_)
        rw [UInt64.toNat_sub_of_le _ _ (UInt64.le_iff_toNat_le.mpr (by omega)), hsub]
        omega
    · exact .inl rfl
  · have hkept : op.kept = 0 := by
      rw [Op.kept, hreq]
    rw [hkept]
    have h := hone y (by rw [Call.name?, hreq]) (by rw [Call.isLookup, hreq])
    exact h.imp_right fun h => ⟨hst, h⟩
  · have hkept : op.kept = 0 := by
      rw [Op.kept, hreq]
    rw [hkept]
    have h := hone y (by rw [Call.name?, hreq]) (by rw [Call.isLookup, hreq])
    exact h.imp_right fun h => ⟨hst, h⟩
  · exact .inl rfl
  · exact .inl rfl

/-! ## The invariant of the counter

`Inos` is about all operations at once: their ranges are disjoint and below the counter, and
so is what has been stored. -/

/-- The invariant of the counter: the numbers assigned to running operations
and those stored lie below it, and no number has two owners. -/
structure Inos (tr : List FsEvent) (inoq : UInt64) (ops : List Op) : Prop where
  reserved : ∀ {k : Nat} {op : Op}, ops[k]? = some op → op.pc.isInside = true → op.Reserved
  /-- a running operation took its numbers before now -/
  below : ∀ {k : Nat} {op : Op} {x : Nat}, ops[k]? = some op → op.Assigned x →
    1 ≤ x ∧ x ≤ inoq.toNat
  disjoint : ∀ {k k' : Nat} {op op' : Op} {x : Nat}, ops[k]? = some op → ops[k']? = some op' →
    op.Assigned x → op'.Assigned x → k = k'
  stored : ∀ {x : Nat}, x ∈ storedInos tr → 1 ≤ x ∧ x ≤ inoq.toNat
  /-- a number that is stored and assigned was stored by its owner -/
  owner : ∀ {k k' : Nat} {op : Op} {id : DirId} {x : Slice} {st : Stat},
    .pt k (.created id x st) ∈ tr → ops[k']? = some op → op.Assigned st.inodeNo.toNat → k' = k
  nodup : (storedInos tr).Nodup

theorem Inos.start : Inos [] 0 [] where
  reserved hk := by cases hk
  below hk := by cases hk
  disjoint hk := by cases hk
  stored hx := by cases hx
  owner hk := by cases hk
  nodup := List.nodup_nil

variable {inoq inoq' : UInt64} {ops : List Op} {k : Nat}

theorem not_assigned (h : op.pc.isInside = false) (x : Nat) : ¬ op.Assigned x := by
  rintro ⟨hin, -⟩
  rw [h] at hin
  cases hin

/-- An operation arrives. -/
theorem Inos.push (hi : Inos tr inoq ops) (h : op.pc.isInside = false) :
    Inos tr inoq (ops ++ [op]) where
  reserved {j o} hj hin := by
    rcases pool_push hj with ⟨-, rfl⟩ | hj
    · rw [h] at hin
      cases hin
    · exact hi.reserved hj hin
  below {j o x} hj hx := by
    rcases pool_push hj with ⟨-, rfl⟩ | hj
    · exact absurd hx (not_assigned h x)
    · exact hi.below hj hx
  disjoint {j j' o o' x} hj hj' hx hx' := by
    rcases pool_push hj with ⟨-, rfl⟩ | hj
    · exact absurd hx (not_assigned h x)
    rcases pool_push hj' with ⟨-, rfl⟩ | hj'
    · exact absurd hx' (not_assigned h x)
    exact hi.disjoint hj hj' hx hx'
  stored := hi.stored
  owner {j j' o id x st} hpt hj hx := by
    rcases pool_push hj with ⟨-, rfl⟩ | hj
    · exact absurd hx (not_assigned h _)
    · exact hi.owner hpt hj hx
  nodup := hi.nodup

/-- **The numbers of one operation change**: it takes numbers above the
counter, and the counter stays above all numbers but those it gives back
unused. -/
theorem Inos.set (hi : Inos tr inoq ops) (hk : ops[k]? = some op)
    (hres : op'.pc.isInside = true → op'.Reserved)
    (htake : ∀ x, op'.Assigned x → op.Assigned x ∨ inoq.toNat < x)
    (hbelow : ∀ x, op'.Assigned x → 1 ≤ x ∧ x ≤ inoq'.toNat)
    (hback : ∀ x, x ≤ inoq.toNat →
      x ≤ inoq'.toNat ∨ op.Assigned x ∧ ¬ op'.Assigned x ∧ x ∉ storedInos tr) :
    Inos tr inoq' (ops.set k op') := by
  -- an operation that did not move shares no number with the one that did
  have hnew : ∀ {j : Nat} {o : Op} {x : Nat}, j ≠ k → ops[j]? = some o → o.Assigned x →
      ¬ op'.Assigned x := by
    intro j o x hjk hj hx hx'
    rcases htake x hx' with hold | habove
    · exact hjk (hi.disjoint hj hk hx hold)
    · exact absurd (hi.below hj hx).2 (Nat.not_le_of_gt habove)
  constructor
  case reserved =>
    intro j o hj hin
    rcases pool_set hj with ⟨-, rfl⟩ | ⟨-, hj⟩
    · exact hres hin
    · exact hi.reserved hj hin
  case below =>
    intro j o x hj hx
    rcases pool_set hj with ⟨-, rfl⟩ | ⟨hjk, hj⟩
    · exact hbelow x hx
    · obtain ⟨hone, hle⟩ := hi.below hj hx
      refine ⟨hone, ?_⟩
      rcases hback x hle with hle' | ⟨hold, -, -⟩
      · exact hle'
      · exact absurd (hi.disjoint hj hk hx hold) hjk
  case disjoint =>
    intro j j' o o' x hj hj' hx hx'
    rcases pool_set hj with ⟨rfl, rfl⟩ | ⟨hjk, hold⟩
    · rcases pool_set hj' with ⟨rfl, -⟩ | ⟨hjk', hold'⟩
      · rfl
      · exact absurd hx (hnew hjk' hold' hx')
    · rcases pool_set hj' with ⟨rfl, rfl⟩ | ⟨-, hold'⟩
      · exact absurd hx' (hnew hjk hold hx)
      · exact hi.disjoint hold hold' hx hx'
  case stored =>
    intro x hx
    obtain ⟨hone, hle⟩ := hi.stored hx
    refine ⟨hone, ?_⟩
    rcases hback x hle with hle' | ⟨-, -, hno⟩
    · exact hle'
    · exact absurd hx hno
  case owner =>
    intro j j' o id x st hpt hj hx
    rcases pool_set hj with ⟨rfl, rfl⟩ | ⟨-, hj⟩
    · rcases htake _ hx with hold | habove
      · exact hi.owner hpt hk hold
      · have hle := (hi.stored (mem_storedInos.mpr ⟨_, _, _, _, hpt, rfl⟩)).2
        exact absurd hle (Nat.not_le_of_gt habove)
    · exact hi.owner hpt hj hx
  case nodup => exact hi.nodup

theorem storedInos_append (tr evs : List FsEvent) :
    storedInos (tr ++ evs) = storedInos tr ++ storedInos evs := by
  rw [storedInos, points_append, List.map_append, List.filterMap_append]
  rfl

/-- Nothing is stored. -/
theorem Inos.silent (hi : Inos tr inoq ops) (hevs : storedInos evs = []) :
    Inos (tr ++ evs) inoq ops where
  reserved := hi.reserved
  below := hi.below
  disjoint := hi.disjoint
  stored := by
    rw [storedInos_append, hevs, List.append_nil]
    exact hi.stored
  owner {j j' o id x st} hpt hj hx := by
    rcases List.mem_append.mp hpt with hpt | hpt
    · exact hi.owner hpt hj hx
    · have hmem : st.inodeNo.toNat ∈ storedInos evs := mem_storedInos.mpr ⟨_, _, _, _, hpt, rfl⟩
      rw [hevs] at hmem
      cases hmem
  nodup := by
    rw [storedInos_append, hevs, List.append_nil]
    exact hi.nodup

/-- **An operation stores one of its numbers**, which it had not stored. The numbers it
has stored are those before the current one, and nobody else has a number of its range. -/
theorem Inos.store (hi : Inos tr inoq ops) (hk : ops[k]? = some op) {id : DirId} {x : Slice}
    {st : Stat} (hx : op.Assigned st.inodeNo.toNat)
    (hown : ∀ id' x' st', .pt k (.created id' x' st') ∈ tr →
      st'.inodeNo.toNat ≠ st.inodeNo.toNat) :
    Inos (tr ++ [.pt k (.created id x st)]) inoq ops := by
  have hsing : storedInos [.pt k (.created id x st)] = [st.inodeNo.toNat] := rfl
  have hno : st.inodeNo.toNat ∉ storedInos tr := by
    intro hmem
    obtain ⟨j, id', x', st', hpt, heq⟩ := mem_storedInos.mp hmem
    obtain rfl := hi.owner hpt hk (heq ▸ hx)
    exact hown _ _ _ hpt heq
  refine ⟨hi.reserved, hi.below, hi.disjoint, ?_, ?_, ?_⟩
  · intro y hy
    rw [storedInos_append, hsing, List.mem_append] at hy
    rcases hy with hy | hy
    · exact hi.stored hy
    · rw [List.mem_singleton.mp hy]
      exact hi.below hk hx
  · intro j j' o id' x' st' hpt hj hx'
    rcases List.mem_append.mp hpt with hpt | hpt
    · exact hi.owner hpt hj hx'
    · cases List.mem_singleton.mp hpt
      exact hi.disjoint hj hk hx' hx
  · rw [storedInos_append, hsing, List.nodup_append]
    refine ⟨hi.nodup, List.nodup_singleton _, ?_⟩
    rintro y hy z hz rfl
    rw [List.mem_singleton.mp hz] at hy
    exact hno hy

/-! ## Runs

Numbers are drawn and given back in the sections under `mutex_`. Ranges that are drawn do not
overlap; a range is given back only when nothing has been drawn since, which the code checks by
comparing the counter. So the counter is above every number that is in use at any time. -/

/-- A batch that took `n` numbers has the `n` from its first one on. -/
theorem batch_count (inoq n : UInt64) : inoq + n - (inoq + n - n + 1) + 1 = n := by
  rw [UInt64.add_sub_cancel]
  apply UInt64.toBitVec_inj.mp
  simp only [UInt64.toBitVec_add, UInt64.toBitVec_sub]
  bv_omega

theorem reserve_call (fs : Filesystem) (op : Op) (inoq : UInt64) :
    (fs.reserve op inoq).call = op.call := by
  rw [reserve]
  split <;> rfl

theorem reserve_batch (fs : Filesystem) {namearr : Slice} {mode n : UInt32}
    (hreq : op.call.req = .mkfls namearr mode n) (inoq : UInt64) :
    (fs.reserve op inoq).myino = inoq ∧ (fs.reserve op inoq).startino = inoq - n.toUInt64 + 1 ∧
      (fs.reserve op inoq).n = op.n := by
  rw [reserve, hreq]
  exact ⟨rfl, rfl, rfl⟩

theorem reserve_single (fs : Filesystem) (hname : op.call.name? = some name)
    (hlook : op.call.isLookup = false) (inoq : UInt64) :
    (fs.reserve op inoq).myino = inoq ∧ (fs.reserve op inoq).stat.inodeNo = inoq := by
  rcases Call.single_cases hname hlook with ⟨mode, hreq⟩ | ⟨mode, hreq⟩
  · rw [reserve, hreq]
    exact ⟨rfl, rfl⟩
  · rw [reserve, hreq]
    exact ⟨rfl, rfl⟩

/-- **An operation that has acquired its block** has the numbers right above
the counter. -/
theorem reserve_reserved (fs : Filesystem) (hbegun : op.Begun) (inoq : UInt64) (p : Option Nat)
    (hwrap : inoq.toNat + op.call.inos.toNat < 2 ^ 64) {op' : Op}
    (hop' : op' = { fs.reserve op (inoq + op.call.inos) with dir := p, pc := .acquired }) :
    op'.Reserved ∧ ∀ x, op'.Assigned x → inoq.toNat < x ∧ x ≤ (inoq + op.call.inos).toNat := by
  have hsum : (inoq + op.call.inos).toNat = inoq.toNat + op.call.inos.toNat := by
    rw [UInt64.toNat_add, Nat.mod_eq_of_lt hwrap]
  have hcall : op'.call = op.call := by
    rw [hop']
    exact reserve_call fs op _
  -- the numbers reserved are the `inos` ones after the counter, and `myino` is the last
  have hlast : 0 < op.call.inos.toNat →
      op'.firstIno = inoq.toNat + 1 ∧ op'.myino = inoq + op.call.inos := by
    intro hpos
    rcases Call.inos_pos hpos with ⟨namearr, mode, n, hreq⟩ | ⟨y, hname, hlook⟩
    · obtain ⟨hmy, hstart, -⟩ := reserve_batch fs hreq (inoq + op.call.inos)
      have hinos : op.call.inos = n.toUInt64 := by
        rw [Call.inos, hreq]
      have hfirst : op'.firstIno = (inoq + 1).toNat := by
        have hstart' : op'.startino = inoq + op.call.inos - n.toUInt64 + 1 := by
          rw [hop']
          exact hstart
        rw [Op.firstIno_batch (hcall.symm ▸ hreq), hstart', hinos, UInt64.add_sub_cancel]
      refine ⟨?_, ?_⟩
      · rw [hfirst, UInt64.toNat_add, Nat.mod_eq_of_lt]
        · rfl
        · exact Nat.lt_of_le_of_lt (Nat.add_le_add_left hpos _) hwrap
      · rw [hop']
        exact hmy
    · obtain ⟨hmy, -⟩ := reserve_single fs hname hlook (inoq + op.call.inos)
      obtain ⟨hinos, -, hno⟩ := Call.inos_single hname hlook
      have hmy' : op'.myino = inoq + op.call.inos := by
        rw [hop']
        exact hmy
      refine ⟨?_, hmy'⟩
      rw [Op.firstIno_single (hcall.symm ▸ hno), hmy', hsum, hinos]
      rfl
  refine ⟨⟨?_, ?_, ?_⟩, ?_⟩
  · intro hs hlook
    rw [hcall] at hs hlook
    obtain ⟨name, hname⟩ := Option.isSome_iff_exists.mp hs
    obtain ⟨hmy, hst⟩ := reserve_single fs hname hlook (inoq + op.call.inos)
    rw [hop']
    exact hst.trans hmy.symm
  · intro namearr mode n hreq
    rw [hcall] at hreq
    obtain ⟨hmy, hstart, hn⟩ := reserve_batch fs hreq (inoq + op.call.inos)
    have hinos : op.call.inos = n.toUInt64 := by
      rw [Call.inos, hreq]
    rw [hop']
    dsimp only
    rw [hmy, hstart, hn, (hbegun.2 _ _ _ hreq).2, hinos]
    exact ⟨batch_count inoq _, Nat.le_refl _⟩
  · intro hpos
    rw [hcall] at hpos ⊢
    obtain ⟨hfirst, hmy⟩ := hlast hpos
    rw [hfirst, hmy, hsum]
    omega
  · rintro x ⟨-, hle, hlt⟩
    rw [hcall] at hlt
    obtain ⟨hfirst, -⟩ := hlast (by omega)
    omega

/-- **A move keeps the invariant.** The ranges of two operations can only meet when one of
them is drawn or given back, and both of these are sections of the mutex. -/
theorem Inos.move (hi : Inos tr s.inoq s.ops) (hl : Log fs C tr s.ops) (hk : s.ops[k]? = some op)
    (hm : Move fs s k op e s' op' evs) (hplaced : op.Placed)
    (hwrap : op.pc = .entered → s.inoq.toNat + op.call.inos.toNat < 2 ^ 64) :
    Inos (tr ++ evs) s'.inoq (s.ops.set k op') := by
  have ht := hl.touched hk
  rcases hm.inos ht hplaced with ⟨hpc, hinoq, hevs, p, rfl⟩ | ⟨st, hpc, hinoq, hevs, hpc'⟩ |
    ⟨hinoq, hkeep, hput⟩
  · have hbegun : op.Begun := by
      rw [Op.Touched, hpc] at ht
      exact ht.1
    have hw := hwrap hpc
    obtain ⟨hres, hrange⟩ := reserve_reserved fs hbegun s.inoq p hw rfl
    have hinoq' : s'.inoq.toNat = s.inoq.toNat + op.call.inos.toNat := by
      rw [hinoq, UInt64.toNat_add, Nat.mod_eq_of_lt hw]
    refine (hi.set hk (fun _ => hres) (fun x hx => .inr (hrange x hx).1) ?_ ?_).silent hevs
    · intro x hx
      obtain ⟨hlt, hle⟩ := hrange x hx
      rw [hinoq]
      exact ⟨Nat.lt_of_le_of_lt (Nat.zero_le _) hlt, hle⟩
    · intro x hx
      exact .inl (by omega)
  · have hin : op.pc.isInside = true := by
      rw [hpc]
      rfl
    have hout : op'.pc.isInside = false := by
      rw [hpc']
      rfl
    have hres := hi.reserved hk hin
    refine (hi.set hk (fun h => ?_) (fun x hx => ?_) (fun x hx => ?_) ?_).silent hevs
    · rw [hout] at h
      cases h
    · exact absurd hx (not_assigned hout x)
    · exact absurd hx (not_assigned hout x)
    · intro x hx
      rw [hinoq]
      rcases giveBack_cases hres st s.inoq with heq | ⟨hst, hmy, hpos, hkept, hback⟩
      · rw [heq]
        exact .inl hx
      · by_cases hle : x ≤ (giveBack op st s.inoq).toNat
        · exact .inl hle
        -- a number above is one of its own, and not among those it has stored
        obtain ⟨hone, hlast⟩ := hres.range hpos
        rw [hmy] at hlast
        have hx' : op.Assigned x := ⟨hin, by omega, by omega⟩
        refine .inr ⟨hx', not_assigned hout x, fun hmem => ?_⟩
        obtain ⟨j, id, y, st', hpt, rfl⟩ := mem_storedInos.mp hmem
        obtain rfl := hi.owner hpt hk hx'
        have hlt := leaving_ino hres hpc hst ht (mem_entries_points.mpr hpt)
        omega
  · have hres := hi.reserved hk hkeep.inside
    have hset : Inos tr s.inoq (s.ops.set k op') := by
      refine hi.set hk (fun _ => hkeep.reserved hres) (fun x hx => ?_) (fun x hx => ?_) ?_
      · exact .inl (hkeep.assigned.mp hx)
      · exact hi.below hk (hkeep.assigned.mp hx)
      · intro x hx
        exact .inl hx
    rw [hinoq]
    rcases hput with hevs | ⟨name, rest, hpc, rfl⟩
    · exact hset.silent hevs
    · obtain ⟨hassigned, hown⟩ := putting_ino hres hpc ht
      refine hset.store (pool_set_self hk) (hkeep.assigned.mpr hassigned) ?_
      intro id x st hpt
      exact hown id x st (mem_entries_points.mpr hpt)

/-- **The invariant of every run** that does not wrap the counter. A wrap would hand out
numbers a second time, and nothing in the code looks out for it. -/
theorem run_inos {db : Option Db} (hr : (fs.system db).Run NoWrap tr s) :
    Inos tr s.inoq s.ops := by
  refine hr.invariant (I := fun tr s => Inos tr s.inoq s.ops) ?_ ?_
  · rintro s rfl
    exact Inos.start
  · intro tr s l s' evs hr hi hwrap hs
    rcases step_cases hs with ⟨c, stat, -, rfl, rfl⟩ | ⟨i, e, op, s₁, op', rfl, hk, hm, rfl⟩
    · exact (hi.push rfl).silent rfl
    · have hb := run_blocks hr
      dsimp only
      rw [hm.ops_eq]
      exact hi.move (run_log hr) hk hm (hb.placed hk) (hwrap op hk)

/-- **Inode numbers are unique.** In every run that does not wrap the counter,
no number is stored twice, the numbers stored are those the counter has passed,
and none of them is assigned to an operation that runs other than the one that
stored it.

An operation draws all its numbers at once and may give the last ones back, but only while
the counter still ends with them (`TryReuseIno`). So the numbers of different operations are
disjoint at all times, which is what the invariant `Inos` says, and a number that has been
stored is never given back. -/
theorem inos_unique (fs : Filesystem) (db : Option Db) {tr : List FsEvent} {s : State}
    (hrun : (fs.system db).Run NoWrap tr s) :
    (storedInos tr).Nodup ∧
      (∀ x ∈ storedInos tr, 1 ≤ x ∧ x ≤ s.inoq.toNat) ∧
      ∀ i id x st, .pt i (.created id x st) ∈ tr → ∀ j op, s.ops[j]? = some op → j ≠ i →
        ¬ op.Assigned st.inodeNo.toNat := by
  have hi := run_inos hrun
  refine ⟨hi.nodup, fun x hx => hi.stored hx, ?_⟩
  intro i id x st hpt j op hj hne hx
  exact hne (hi.owner hpt hj hx)

/-- A batch that asks for three numbers and has one name; a create of that name
that takes its number meanwhile, fails and gives it back; and one more
create. -/
def mkflsThenMkfle : List Label :=
  .call (rootCall 0 (.mkfls (encodeNames [str "a"]) 0o660 3)) zeroStat :: sections 0 3 ++
    .call (rootCall 0 (.mkfle (str "a") 0o660)) zeroStat :: sections 1 2 ++ sections 0 5 ++
    sections 1 4 ++ .call (rootCall 0 (.mkfle (str "b") 0o660)) zeroStat :: sections 2 7

/-- The second create gets the number that was given back. -/
theorem inos_unique_mkflsThenMkfle :
    ∃ tr s, (plainServer.system (some fun _ => none)).Run NoWrap tr s ∧ storedInos tr = [1, 4] ∧
      s.inoq = 4 ∧ (storedInos tr).Nodup ∧ ∀ x ∈ storedInos tr, 1 ≤ x ∧ x ≤ s.inoq.toNat := by
  have htr : ((plainServer.system (some fun _ => none)).exec (fun s l => decide (NoWrap s l))
      (plainServer.start (some fun _ => none)) mkflsThenMkfle).map
        (fun p => (storedInos p.2, p.1.inoq)) = some ([1, 4], 4) := by decide +kernel
  obtain ⟨⟨s, tr⟩, hp, htr⟩ := Option.map_eq_some_iff.mp htr
  obtain ⟨hstored, hinoq⟩ := Prod.mk.inj htr
  have hinit : (plainServer.system (some fun _ => none)).init
      (plainServer.start (some fun _ => none)) := rfl
  have hrun := Run.exec (C := NoWrap) (fun _ _ hd => of_decide_eq_true hd) (.init hinit) hp
  obtain ⟨hnodup, hrange, -⟩ := inos_unique plainServer _ hrun
  exact ⟨_, _, hrun, hstored, hinoq, hnodup, hrange⟩

end Filesystem

end DeltaFs
