import DeltaFs.Mkfls
import DeltaFs.Refinement

/-!
# A batch is its names in turn

`Mkfls` takes numbers for all its names, puts one name after the other, stops at the
first that fails and gives the numbers that are left back. A server that serves it does
what it would do for an `Mkfle` of each name (`serveMkfls_eq`).

The numbers that a batch draws at once are those its creates would draw one by one, as long
as nothing comes in between. `Batching` says where a batch is in terms of the creates that
are done; when it fails it gives back what the creates that are left would have drawn.
-/

namespace DeltaFs

open FilesystemCli

/-- `Mkfle`, name after name up to the first that fails: the status of the last, and how
many have been made. -/
def FilesystemCli.Server.mkfles {δ : Type} (srv : Server δ) (who : User) (p : LookupStat) (mode : UInt32)
    (stat : Stat) : List Slice → δ → δ × Status × Nat
  | [], d => (d, .ok, 0)
  | name :: names, d =>
    let r := srv.mkfle d who p name mode stat
    if r.2.1.isOk then
      let y := srv.mkfles who p mode stat names r.1
      (y.1, y.2.1, y.2.2 + 1)
    else (r.1, r.2.1, 0)

namespace Filesystem

variable (fs : Filesystem) (ts : UInt64)

/-- `CheckAndPut`, of a batch that is left with `rest`. -/
def checkAndPutNext (name rest : Slice) (d : Content) (op : Op) : Content × Op :=
  let op := (fs.checkName (d.state fs) op name rest (calmAt ts)).1
  match op.pc with
  | .putting name rest =>
    match put (d.state fs) op name rest (calmAt ts) with
    | none => (d, op)
    | some (s, op, _) => ({ d with db := s.db.getD d.db }, op)
  | _ => (d, op)

/-- The loop of `Mknos1`, at most `k` times. -/
def putNames : Nat → Content → Op → Content × Op
  | 0, d, op => (d, stop op .ok)
  | k + 1, d, op =>
    match nextName op with
    | none => (d, stop op .ok)
    | some (name, rest) =>
      let x := fs.checkAndPutNext ts name rest d op.setInodeNo
      match x.2.pc with
      | .running => putNames k x.1 x.2
      | _ => x

/-- `Mkfls`. -/
def serveMkfls (c : Call) (stat : Stat) (d : Content) : Content × Op :=
  let d := { d with inoq := d.inoq + c.inos }
  let op := fs.reserve (Op.new c stat) d.inoq
  let (d, op) := fs.alone ts op (fs.putNames ts op.n.toNat d) d
  ({ d with inoq := giveBack op (statusOf op) d.inoq }, op)

variable {fs ts} {d : Content} {id : DirId} {name rest : Slice} {op : Op} {s : Status}

/-! ## One name

An `Mkfle` and one turn of the loop of a batch do the same: they check, put and count on.
`obstacle` is why a name cannot be put, the same for both. -/

/-- What is in the way of a create. -/
def obstacle (fs : Filesystem) (db : Db) (id : DirId) (name : Slice) : Option Status :=
  if fs.options.skipNameCollisionChecks then none
  else
    let s := (dbGet (db :: fs.readonlyDbs) id name (fun _ => none) lokupStat).1
    if s.isOk then some (.err .alreadyExists name) else if s.isNotFound then none else some s

theorem isOk_of_obstacle {db : Db} (h : fs.obstacle db id name = some s) : s.isOk = false := by
  rw [obstacle] at h
  split at h
  · cases h
  · dsimp only at h
    split at h
    · obtain rfl := Option.some.inj h
      rfl
    · rename_i hno
      split at h
      · cases h
      · obtain rfl := Option.some.inj h
        exact Bool.eq_false_of_not_eq_true hno

/-- The status of a read does not depend on what the stat held. -/
theorem getFirst_status (dbs : List Db) (i : Nat) (s : Status) (stat stat' : Stat) :
    (getFirst id name (fun _ => none) i dbs (s, stat)).1 =
      (getFirst id name (fun _ => none) i dbs (s, stat')).1 := by
  induction dbs generalizing i s stat stat' with
  | nil => rfl
  | cons db dbs ih =>
    rw [getFirst, getFirst]
    cases hdb : db (entryKey id name) with
    | none =>
      simp only [Db.get, hdb]
      exact ih ..
    | some value =>
      cases hdec : Stat.decodeFrom value with
      | none =>
        simp only [Db.get, hdb, hdec]
        rfl
      | some r =>
        simp only [Db.get, hdb, hdec]

theorem checkName_eq (d : Content) (op : Op) (name rest : Slice) :
    (fs.checkName (d.state fs) op name rest (calmAt ts)).1 =
      match fs.obstacle d.db op.call.dirId name with
      | some s => stop op s
      | none => { op with pc := .putting name rest } := by
  have hstatus : (dbGet (fs.dbs (d.state fs)) op.call.dirId name (calmAt ts).faults op.stat).1 =
      (dbGet (d.db :: fs.readonlyDbs) op.call.dirId name (fun _ => none) lokupStat).1 :=
    getFirst_status ..
  rw [checkName, obstacle]
  split
  · rfl
  · simp only [hstatus]
    split
    · rfl
    · split
      · rfl
      · rfl

/-- **`CheckAndPut`** stops at an obstacle. -/
theorem checkAndPutNext_eq (d : Content) (op : Op) (name rest : Slice) :
    fs.checkAndPutNext ts name rest d op =
      match fs.obstacle d.db op.call.dirId name with
      | some s => (d, stop op s)
      | none => ({ d with db := Function.update d.db (entryKey op.call.dirId name) (some op.stat.encodeTo) },
          putDone { op with pc := .putting name rest } rest) := by
  rw [checkAndPutNext, checkName_eq]
  cases fs.obstacle d.db op.call.dirId name with
  | some s => rfl
  | none => rfl

variable {who : User} {p : LookupStat} {mode n : UInt32} {namearr : Slice} {stat : Stat}

/-- **`Mkfle`** beneath a lease that lets the user write. -/
theorem mkfle_eq (hpass : fs.refusal ⟨who, p, .mkfle name mode⟩ ts = none) (hserves : fs.Serves p.dirId name)
    (stat : Stat) (d : Content) :
    let r := (fs.server ts).mkfle d who p name mode stat
    (r.1, r.2.1) =
      match fs.obstacle d.db p.dirId name with
      | some s => (d, s)
      | none =>
        let st := fs.newStat ⟨who, p, .mkfle name mode⟩ sIfreg mode (-1) (d.inoq + 1)
        (⟨Function.update d.db (entryKey p.dirId name) (some st.encodeTo), d.inoq + 1⟩, .ok) := by
  obtain ⟨c, hc⟩ : ∃ c : Call, c = ⟨who, p, .mkfle name mode⟩ := ⟨_, rfl⟩
  have hid : c.dirId = p.dirId := by rw [hc]; rfl
  have hname : c.name? = some name := by rw [hc]; rfl
  rw [← hc] at hpass ⊢
  rw [← hid] at hserves
  have hcreates : Creates c name := .inl ⟨mode, by rw [hc]⟩
  obtain ⟨-, -, hinos, hreserve, hgive⟩ := hcreates.reserve fs stat (d.inoq + 1)
  obtain ⟨op, hop⟩ : ∃ op, op = fs.reserve (Op.new c stat) (d.inoq + 1) := ⟨_, rfl⟩
  have hcall : op.call = c := by rw [hop, hreserve]; rfl
  have hino : op.myino = d.inoq + 1 := by rw [hop, hreserve]
  have hstat : op.stat = fs.newStat c sIfreg mode (-1) (d.inoq + 1) := by
    rw [hop, hreserve, hc]
    rfl
  have halone : fs.alone ts op (fs.checkAndPut ts name { d with inoq := d.inoq + 1 })
      { d with inoq := d.inoq + 1 } = fs.checkAndPutNext ts name [] { d with inoq := d.inoq + 1 } op := by
    rw [alone, hcall, hpass]
    dsimp only
    rw [if_pos (isPartitionOk_of_serves hname hserves)]
    rfl
  have hserver : (fs.server ts).mkfle d who p name mode stat =
      ((fs.serveCreate ts c name stat d).1, statusOf (fs.serveCreate ts c name stat d).2,
        (fs.serveCreate ts c name stat d).2.stat) := by
    rw [hc]
    rfl
  dsimp only
  rw [hserver]
  simp only [serveCreate, hinos, ← hop, halone, checkAndPutNext_eq, hcall, hid]
  cases hobs : fs.obstacle d.db p.dirId name with
  | some s =>
    have hback : giveBack (stop op s) s (d.inoq + 1) = d.inoq := by
      rw [hgive (stop op s) _ hcall, isOk_of_obstacle hobs, if_neg Bool.false_ne_true]
      show tryReuseIno (d.inoq + 1) op.myino 1 = d.inoq
      rw [hino, tryReuseIno, if_pos rfl]
      exact UInt64.add_sub_cancel ..
    show (({ d with inoq := giveBack (stop op s) s (d.inoq + 1) } : Content), s) = (d, s)
    rw [hback]
  | none =>
    have hdone : ∀ op' : Op, op'.call = c → putDone op' [] = stop op' .ok := by
      intro op' hop'
      rw [putDone, hop', hc]
    simp only [hstat]
    rw [hdone _ rfl]
    rfl

/-! ## All names

The numbers of a batch are drawn before its first name is put. After `k` names the counter is
ahead of what `k` creates have made of it by as many as are left. -/

/-- A batch that has put `m` names. The number before its first is `inoq`. -/
structure Batching (fs : Filesystem) (c : Call) (mode n : UInt32) (inoq : UInt64) (m : Nat) (op : Op) : Prop where
  call : op.call = c
  stat : ∃ ino, op.stat = fs.newStat c sIfreg mode (-1) ino
  startino : op.startino = inoq + 1
  myino : op.myino = inoq + n.toUInt64
  n : op.n = n
  m : op.m = m

/-- Where a batch has got to that still had `k` names left, when an `Mkfle` of each has
got to `y`. -/
structure Ended (c : Call) (n : UInt32) (inoq inoq' : UInt64) (m k : Nat) (x : Content × Op)
    (y : Content × Status × Nat) : Prop where
  content : x.1 = ⟨y.1.db, inoq'⟩
  status : statusOf x.2 = y.2.1
  count : x.2.n = UInt32.ofNat (m + y.2.2)
  last : y.1.inoq = inoq + UInt64.ofNat (m + y.2.2)
  le : y.2.2 ≤ k
  call : x.2.call = c
  numbers : x.2.myino = inoq + n.toUInt64 ∧ x.2.startino = inoq + 1

variable {c : Call} {inoq : UInt64} {m k : Nat}

/-- It stops. -/
theorem Batching.stop (hb : Batching fs c mode n inoq m op) (hreq : c.req = .mkfls namearr mode n) (s : Status) :
    Ended c n inoq d.inoq m k (d, stop op s) (⟨d.db, inoq + UInt64.ofNat m⟩, s, 0) where
  content := rfl
  status := rfl
  count := by
    show (Filesystem.stop op s).n = _
    simp only [Filesystem.stop, hb.call, hreq, hb.m, Nat.add_zero]
  last := rfl
  le := Nat.zero_le k
  call := hb.call
  numbers := ⟨hb.myino, hb.startino⟩

theorem Batching.setInodeNo (hb : Batching fs c mode n inoq m op) :
    Batching fs c mode n inoq m op.setInodeNo := by
  obtain ⟨ino, hstat⟩ := hb.stat
  refine ⟨hb.call, ⟨op.startino + UInt64.ofNat op.m, ?_⟩, hb.startino, hb.myino, hb.n, hb.m⟩
  rw [Op.setInodeNo, hstat]
  rfl

/-- The stat of the next name. -/
theorem Batching.stat_eq (hb : Batching fs ⟨who, p, .mkfls namearr mode n⟩ mode n inoq m op) (name : Slice) :
    op.setInodeNo.stat =
      fs.newStat ⟨who, p, .mkfle name mode⟩ sIfreg mode (-1) (inoq + UInt64.ofNat m + 1) := by
  obtain ⟨ino, hstat⟩ := hb.stat
  have hnum : inoq + UInt64.ofNat m + 1 = op.startino + UInt64.ofNat op.m := by
    rw [hb.startino, hb.m, UInt64.add_assoc, UInt64.add_assoc, UInt64.add_comm 1]
  rw [hnum, Op.setInodeNo, hstat]
  rfl

/-- **It puts a name.** Its number is the next one of the batch, and the counter that of a
server on which only the creates so far have been done. -/
theorem Batching.next (hb : Batching fs c mode n inoq m op) (hreq : c.req = .mkfls namearr mode n)
    (name rest : Slice) :
    ∃ op', putDone { op.setInodeNo with pc := .putting name rest } rest = op' ∧ op'.pc = .running ∧
      Batching fs c mode n inoq (m + 1) op' ∧ op'.input = rest := by
  obtain ⟨hcall, hstat, hstart, hmy, hn, hm⟩ := hb.setInodeNo
  refine ⟨{ op.setInodeNo with m := op.m + 1, input := rest, pc := .running }, ?_, rfl,
    ⟨hcall, hstat, hstart, hmy, hn, congrArg Nat.succ hm⟩, rfl⟩
  rw [putDone]
  simp only [hcall, hreq]
  rfl

/-- **The loop of a batch** does what an `Mkfle` of each name does, but for the numbers it
has taken already. -/
theorem Batching.putNames (hpass : fs.refusal ⟨who, p, .mkfls namearr mode n⟩ ts = none) (stat : Stat) (k : Nat) :
    ∀ {m : Nat} {d : Content} {op : Op}, Batching fs ⟨who, p, .mkfls namearr mode n⟩ mode n inoq m op →
      m + k = n.toNat → (∀ name ∈ decodeNames k op.input, fs.Serves p.dirId name) →
      Ended ⟨who, p, .mkfls namearr mode n⟩ n inoq d.inoq m k (fs.putNames ts k d op)
        ((fs.server ts).mkfles who p mode stat (decodeNames k op.input) ⟨d.db, inoq + UInt64.ofNat m⟩) := by
  induction k with
  | zero =>
    intro m d op hb _ _
    exact hb.stop rfl .ok
  | succ k ih =>
    intro m d op hb hk hserves
    have hlt : op.m < op.n.toNat := by
      rw [hb.m, hb.n]
      omega
    cases hinput : getLengthPrefixedSlice op.input with
    | none =>
      have hnext : nextName op = none := by rw [nextName, if_pos hlt, hinput]
      rw [decodeNames, hinput, Filesystem.putNames, hnext]
      exact hb.stop rfl .ok
    | some r =>
      obtain ⟨name, rest⟩ := r
      have hnames : decodeNames (k + 1) op.input = name :: decodeNames k rest := by
        rw [decodeNames, hinput]
      have hnext : nextName op = some (name, rest) := by rw [nextName, if_pos hlt, hinput]
      have hid : op.setInodeNo.call.dirId = p.dirId := by
        show op.call.dirId = p.dirId
        rw [hb.call]
        rfl
      rw [hnames] at hserves ⊢
      have hpass' : fs.refusal ⟨who, p, .mkfle name mode⟩ ts = none := hpass
      have hmkfle := mkfle_eq hpass' (hserves name (List.mem_cons_self ..)) stat
        ⟨d.db, inoq + UInt64.ofNat m⟩
      rw [Filesystem.putNames, hnext, Server.mkfles]
      simp only [checkAndPutNext_eq, hid]
      dsimp only at hmkfle
      cases hobs : fs.obstacle d.db p.dirId name with
      | some s =>
        rw [hobs] at hmkfle
        obtain ⟨hcontent, hstatus⟩ := Prod.mk.inj hmkfle
        rw [hcontent, hstatus, isOk_of_obstacle hobs, if_neg Bool.false_ne_true]
        exact hb.setInodeNo.stop rfl s
      | none =>
        rw [hobs] at hmkfle
        obtain ⟨hcontent, hstatus⟩ := Prod.mk.inj hmkfle
        obtain ⟨op', hop', hpc, hb', hrest⟩ := hb.next rfl name rest
        have hsucc : inoq + UInt64.ofNat m + 1 = inoq + UInt64.ofNat (m + 1) := by
          rw [UInt64.ofNat_add, UInt64.add_assoc]
          rfl
        -- the number a batch has kept for the name is the one an `Mkfle` takes
        rw [hcontent, hstatus, if_pos Status.isOk_ok, hop', ← hb.stat_eq name, hsucc]
        subst hrest
        have hend := ih hb' (d := ⟨Function.update d.db (entryKey p.dirId name)
          (some op.setInodeNo.stat.encodeTo), d.inoq⟩) (by omega) fun x hx => hserves x (List.mem_cons_of_mem _ hx)
        simp only [hpc]
        generalize Filesystem.putNames fs ts k _ op' = x at hend
        generalize Server.mkfles _ who p mode stat _ _ = y at hend
        have hshift : m + 1 + y.2.2 = m + (y.2.2 + 1) := by omega
        exact ⟨hend.content, hend.status, hshift ▸ hend.count, hshift ▸ hend.last, Nat.succ_le_succ hend.le,
          hend.call, hend.numbers⟩

/-- Numbers that a batch does not need are lost when it has put all it found. -/
def lastNumber (inoq : UInt64) (n : UInt32) (y : Content × Status × Nat) : UInt64 :=
  if y.2.1.isOk then inoq + n.toUInt64 else y.1.inoq

theorem Ended.count_eq {x : Content × Op} {y : Content × Status × Nat} {inoq' : UInt64}
    (he : Ended c n inoq inoq' 0 n.toNat x y) : x.2.n.toNat = y.2.2 := by
  rw [he.count, Nat.zero_add, UInt32.toNat_ofNat', Nat.mod_eq_of_lt (he.le.trans_lt n.toNat_lt)]

/-- **A batch that fails** gives back all numbers but those of the names it has put. No
other operation has run meanwhile, so the counter still ends with its numbers. -/
theorem Ended.giveBack {x : Content × Op} {y : Content × Status × Nat}
    (he : Ended c n inoq (inoq + n.toUInt64) 0 n.toNat x y) (hreq : c.req = .mkfls namearr mode n) :
    Filesystem.giveBack x.2 y.2.1 (inoq + n.toUInt64) = lastNumber inoq n y := by
  have hn : x.2.n.toUInt64 = UInt64.ofNat y.2.2 := by
    rw [← he.count_eq]
    exact (UInt64.ofNat_uInt32ToNat _).symm
  rw [Filesystem.giveBack, he.call, hreq, lastNumber]
  split
  · rfl
  · show tryReuseIno _ _ _ = y.1.inoq
    rw [he.numbers.1, he.numbers.2, hn, tryReuseIno, if_pos rfl, he.last, Nat.zero_add]
    exact numbers_left ..

/-- **A batch is its names in turn**, unless it is refused: the db, the status and the
count are those of an `Mkfle` of each name, and a batch that fails leaves the same
numbers. -/
theorem serveMkfls_eq (hpass : fs.refusal ⟨who, p, .mkfls namearr mode n⟩ ts = none)
    (hserves : ∀ name ∈ decodeNames n.toNat namearr, fs.Serves p.dirId name) (stat stat' : Stat) (d : Content) :
    let r := fs.serveMkfls ts ⟨who, p, .mkfls namearr mode n⟩ stat d
    let y := (fs.server ts).mkfles who p mode stat' (decodeNames n.toNat namearr) d
    (r.1, statusOf r.2, r.2.n.toNat) = (⟨y.1.db, lastNumber d.inoq n y⟩, y.2) := by
  obtain ⟨c, hc⟩ : ∃ c : Call, c = ⟨who, p, .mkfls namearr mode n⟩ := ⟨_, rfl⟩
  obtain ⟨op, hop⟩ : ∃ op, op = fs.reserve (Op.new c stat) (d.inoq + n.toUInt64) := ⟨_, rfl⟩
  have hb : Batching fs ⟨who, p, .mkfls namearr mode n⟩ mode n d.inoq 0 op := by
    rw [hop, hc]
    refine ⟨rfl, ⟨_, rfl⟩, ?_, rfl, rfl, rfl⟩
    show d.inoq + n.toUInt64 - n.toUInt64 + 1 = d.inoq + 1
    rw [UInt64.add_sub_cancel]
  have hinput : op.input = namearr := by rw [hop, hc]; rfl
  have hend := hb.putNames (d := { d with inoq := d.inoq + n.toUInt64 }) hpass stat' n.toNat (Nat.zero_add _)
    (hinput ▸ hserves)
  have hzero : (⟨d.db, d.inoq + UInt64.ofNat 0⟩ : Content) = d := congrArg (Content.mk d.db) (UInt64.add_zero _)
  have halone : fs.alone ts op (fs.putNames ts op.n.toNat { d with inoq := d.inoq + n.toUInt64 })
      { d with inoq := d.inoq + n.toUInt64 } =
      fs.putNames ts n.toNat { d with inoq := d.inoq + n.toUInt64 } op := by
    rw [alone, hb.call, hpass, hb.n]
    rfl
  have hinos : c.inos = n.toUInt64 := by rw [hc]; rfl
  rw [hinput, hzero] at hend
  rw [← hc]
  simp only [serveMkfls, hinos, ← hop, halone]
  generalize fs.putNames ts n.toNat _ op = x at hend
  generalize (fs.server ts).mkfles who p mode stat' _ d = y at hend
  rw [hend.content, hend.status, hend.count_eq, hend.giveBack rfl]

end Filesystem

namespace Cluster

variable (cl : Cluster) (ts : UInt64)

/-- `Mkfls`, at server `i`. -/
def mkflsAt (i : Nat) (d : Contents) (c : Call) (stat : Stat) : Contents × Status × Nat :=
  let r := (cl.servers i).serveMkfls ts c stat (d i)
  (Function.update d i r.1, Filesystem.statusOf r.2, r.2.n.toNat)

variable {cl ts} {d : Contents} {i : Nat} {who : User} {p : LookupStat} {mode n : UInt32} {namearr : Slice}
  {names : List Slice}

/-- Names of one server. -/
theorem mkfles_one (hi : ∀ name ∈ names, selectServer cl.xx cl.n p.dirId name = i) (stat : Stat) (d : Contents) :
    (cl.asServer ts).mkfles who p mode stat names d =
      (Function.update d i (((cl.servers i).server ts).mkfles who p mode stat names (d i)).1,
        (((cl.servers i).server ts).mkfles who p mode stat names (d i)).2) := by
  induction names generalizing d with
  | nil => rw [Server.mkfles, Server.mkfles, Function.update_eq_self]
  | cons name names ih =>
    have hmkfle : (cl.asServer ts).mkfle d who p name mode stat =
        (Function.update d i (((cl.servers i).server ts).mkfle (d i) who p name mode stat).1,
          (((cl.servers i).server ts).mkfle (d i) who p name mode stat).2) := by
      rw [asServer]
      dsimp only
      rw [route, hi name (List.mem_cons_self ..)]
    rw [Server.mkfles, Server.mkfles, hmkfle]
    dsimp only
    split
    · rw [ih fun x hx => hi x (List.mem_cons_of_mem _ hx)]
      simp only [Function.update_self, Function.update_idem]
    · rfl

/-- The servers after numbers of server `i` were lost. -/
def skipTo (d : Contents) (i : Nat) (inoq : UInt64) : Contents := Function.update d i ⟨(d i).db, inoq⟩

theorem db_skipTo (d : Contents) (i : Nat) (inoq : UInt64) (k : Nat) : (skipTo d i inoq k).db = (d k).db := by
  rw [skipTo]
  by_cases hk : k = i
  · rw [hk, Function.update_self]
  · rw [Function.update_of_ne hk]

/-- **A batch at the servers.** The names of a request are all of the server that it is
sent to. -/
theorem mkflsAt_eq (hpass : (cl.servers i).refusal ⟨who, p, .mkfls namearr mode n⟩ ts = none)
    (hi : ∀ name ∈ decodeNames n.toNat namearr, selectServer cl.xx cl.n p.dirId name = i) (stat stat' : Stat) :
    let y := (cl.asServer ts).mkfles who p mode stat' (decodeNames n.toNat namearr) d
    cl.mkflsAt ts i d ⟨who, p, .mkfls namearr mode n⟩ stat =
      (skipTo y.1 i (if y.2.1.isOk then (d i).inoq + n.toUInt64 else (y.1 i).inoq), y.2) := by
  have hserves : ∀ name ∈ decodeNames n.toNat namearr, (cl.servers i).Serves p.dirId name :=
    fun name hname => hi name hname ▸ cl.serves_selected p.dirId name
  have hbatch := Filesystem.serveMkfls_eq hpass hserves stat stat' (d i)
  rw [mkfles_one hi stat' d, mkflsAt]
  dsimp only at hbatch ⊢
  generalize ((cl.servers i).server ts).mkfles who p mode stat' _ (d i) = y at hbatch
  obtain ⟨hcontent, hrest⟩ := Prod.mk.inj hbatch
  rw [hcontent, hrest, skipTo, Function.update_self, Function.update_idem]
  rfl

end Cluster

namespace Cluster

variable {cl : Cluster} {d d' : Contents}

/-- Numbers that are lost change nothing in the directories. -/
theorem graph_congr (hdb : ∀ i, (d' i).db = (d i).db) : cl.graph d' = cl.graph d := by
  funext id name
  rw [graph, graph, entry, entry, dbsOf, dbsOf, hdb]

theorem Sound.raise (h : cl.Sound d) (hdb : ∀ i, (d' i).db = (d i).db)
    (hle : ∀ i, (d i).inoq.toNat ≤ (d' i).inoq.toNat) : cl.Sound d' := by
  have hentry : cl.entry d' = cl.entry d := by
    funext id name
    rw [entry, entry, dbsOf, dbsOf, hdb]
  refine ⟨fun id name => ?_, ?_, ?_, ?_, ?_⟩
  · have hread := h.readable id name
    rw [Filesystem.Readable] at hread ⊢
    rw [hdb]
    exact hread
  · rw [hentry]
    exact h.fits
  · rw [hentry]
    exact fun i hi id name st hid hst hdir hdno => (h.used i hi id name st hid hst hdir hdno).trans (hle i)
  · rw [hentry]
    exact fun i hi ino name hfits hlt => h.empty i hi ino name hfits ((hle i).trans_lt hlt)
  · rw [graph_congr hdb]
    exact h.unique

end Cluster

namespace Site

open Namespace

/-! ## In the namespace

A request that has succeeded adds a file for each of its names, and requests that come one
after the other add theirs together (`Adds.trans`). -/

/-- What requests of a batch leave the servers with, that have taken `k` numbers at most. -/
structure Grown (cl : Cluster) (k : Nat) (d d' : Cluster.Contents) : Prop where
  sound : cl.Sound d'
  stands : ∀ {path p}, Stands cl d path p → Stands cl d' path p
  inoq : ∀ i, (d' i).inoq.toNat ≤ (d i).inoq.toNat + k

/-- `T'` is `T` with the files `names` added beneath a directory. -/
structure Adds (path : List Slice) (a : Attr) (names : List Slice) (T T' : Tree) : Prop where
  node : ∀ q, T'.node q = if q ∈ names.map (path ++ [·]) then some a else T.node q
  free : ∀ name ∈ names, T.node (path ++ [name]) = none
  nodup : names.Nodup

section Names

variable {cl : Cluster} {d d' d'' : Cluster.Contents} {path : List Slice} {p : LookupStat} {a : Attr}
  {T T' T'' : Tree} {names names' : List Slice} {k k' : Nat}

theorem Grown.refl (hd : cl.Sound d) : Grown cl 0 d d := ⟨hd, fun h => h, fun _ => Nat.le_refl _⟩

theorem Grown.trans (h : Grown cl k d d') (h' : Grown cl k' d' d'') : Grown cl (k + k') d d'' where
  sound := h'.sound
  stands hs := h'.stands (h.stands hs)
  inoq i := by
    have := h.inoq i
    have := h'.inoq i
    omega

theorem Kept.grown (h : Kept cl d d') : Grown cl 1 d d' := ⟨h.sound, h.stands, h.inoq⟩

theorem Adds.refl (path : List Slice) (a : Attr) (T : Tree) : Adds path a [] T T :=
  ⟨fun _ => rfl, fun _ h => absurd h List.not_mem_nil, List.nodup_nil⟩

theorem mem_beneath {name : Slice} : path ++ [name] ∈ names.map (path ++ [·]) ↔ name ∈ names := by
  simp

/-- The order does not matter. -/
theorem Adds.congr (h : Adds path a names T T') (hsame : ∀ name, name ∈ names ↔ name ∈ names')
    (hnodup : names'.Nodup) : Adds path a names' T T' where
  node q := by
    have hiff : q ∈ names.map (path ++ [·]) ↔ q ∈ names'.map (path ++ [·]) := by
      rw [List.mem_map, List.mem_map]
      exact exists_congr fun name => and_congr_left fun _ => hsame name
    rw [h.node]
    exact if_congr hiff rfl rfl
  free name hname := h.free name ((hsame name).mpr hname)
  nodup := hnodup

theorem Adds.trans (h : Adds path a names T T') (h' : Adds path a names' T' T'') :
    Adds path a (names ++ names') T T'' where
  node q := by
    rw [h'.node, h.node, List.map_append]
    by_cases hq' : q ∈ names'.map (path ++ [·])
    · rw [if_pos hq', if_pos (List.mem_append_right _ hq')]
    · rw [if_neg hq']
      by_cases hq : q ∈ names.map (path ++ [·])
      · rw [if_pos hq, if_pos (List.mem_append_left _ hq)]
      · rw [if_neg hq, if_neg fun hin => (List.mem_append.mp hin).elim hq hq']
  free name hname := by
    rcases List.mem_append.mp hname with hname | hname
    · exact h.free name hname
    · have hfree := h'.free name hname
      rw [h.node] at hfree
      split at hfree
      · cases hfree
      · exact hfree
  nodup := by
    refine List.nodup_append.mpr ⟨h.nodup, h'.nodup, fun x hx y hy heq => ?_⟩
    have hfree := h'.free y hy
    rw [h.node, if_pos (mem_beneath.mpr (heq ▸ hx))] at hfree
    cases hfree

/-- **A new file.** -/
theorem Adds.create {skip : Bool} {who : User} {dir : T.Dir} {name : Slice} {a' : Attr}
    (h : T.create skip who dir name a = (T', .ok a')) : Adds dir.1 a [name] T T' := by
  rw [Tree.create] at h
  split at h
  · split at h
    · rename_i hfree
      obtain rfl := (Prod.mk.inj h).1
      refine ⟨fun q => ?_, fun x hx => ?_, List.nodup_singleton name⟩
      · simp only [List.map_singleton, List.mem_singleton]
        rfl
      · rw [List.mem_singleton.mp hx]
        exact hfree
    · cases h
  · cases h

/-- **`Mkfle` of each name** adds the names, if none fails. Every create finds the tree
that the ones before it have left, so the names are added one by one; and a name that
came twice would have failed. -/
theorem mkfles_adds (hset : cl.SetUp) (j : Nat) (ts : UInt64) {who : User} (mode : UInt32) (stat : Stat)
    (hok : isDirWriteOk (cl.skipPermChecks j) p who = true) (names : List Slice) :
    ∀ {d : Cluster.Contents}, cl.Sound d → Stands cl d path p →
      (∀ i < cl.n, (d i).inoq.toNat + names.length < 2 ^ 56) →
      let y := (cl.asServer ts).mkfles who p mode stat names d
      Grown cl names.length d y.1 ∧ (y.2.1.isOk = true →
        Adds path (Tree.newAttr who sIfreg mode) names (cl.tree d) (cl.tree y.1)) := by
  induction names with
  | nil => exact fun hd _ _ => ⟨.refl hd, fun _ => .refl _ _ _⟩
  | cons name names ih =>
    intro d hd h hroom
    obtain ⟨d₁, ⟨st, stat₁⟩, hcreate, hkept, htree⟩ := createAt_agrees hd h hset j ts
      (c := ⟨who, p, .mkfle name mode⟩) (.inl ⟨mode, rfl⟩) rfl hok (a := Tree.newAttr who sIfreg mode)
      (fun _ _ => rfl) stat fun i hi => by
        have := hroom i hi
        rw [List.length_cons] at this
        omega
    rw [Server.mkfles, Cluster.asServer_mkfle, hcreate]
    cases st with
    | ok =>
      have hrest := ih hkept.sound (hkept.stands h) fun i hi => by
        have := hroom i hi
        have := hkept.inoq i
        rw [List.length_cons] at *
        omega
      obtain ⟨hgrown, hadds⟩ := hrest
      refine ⟨?_, fun hst => ?_⟩
      · rw [List.length_cons, Nat.add_comm]
        exact hkept.grown.trans hgrown
      · exact (Adds.create htree).trans (hadds hst)
    | err e msg =>
      refine ⟨⟨hkept.sound, hkept.stands, fun i => ?_⟩, fun h => by cases h⟩
      have := hkept.inoq i
      rw [List.length_cons]
      show (d₁ i).inoq.toNat ≤ _
      omega

theorem Stands.congr (h : Stands cl d path p) (hdb : ∀ i, (d' i).db = (d i).db) : Stands cl d' path p := by
  have htree : cl.tree d' = cl.tree d := by rw [Cluster.tree, Cluster.tree, Cluster.graph_congr hdb]
  refine ⟨?_, h.due, ?_, ?_, ?_⟩
  · rw [Cluster.graph_congr hdb]
    exact h.walk
  · rw [htree]
    exact h.mode
  · rw [htree]
    exact h.uid
  · rw [htree]
    exact h.gid

/-- **A request of a batch** adds its names, if it does not fail. Served alone, `Mkfls`
does what `Mkfle` of its names would do one after the other. -/
theorem mkflsAt_adds (hset : cl.SetUp) (hd : cl.Sound d) (h : Stands cl d path p) (j : Nat) (ts : UInt64)
    (who : User) (mode : UInt32) {n : UInt32} {namearr : Slice} (stat : Stat) {i : Nat} (hi : i < cl.n)
    (hok : isDirWriteOk (cl.skipPermChecks j) p who = true)
    (hone : ∀ name ∈ decodeNames n.toNat namearr, selectServer cl.xx cl.n p.dirId name = i)
    (hroom : ∀ i < cl.n, (d i).inoq.toNat + n.toNat < 2 ^ 56) :
    let y := cl.mkflsAt ts i d ⟨who, p, .mkfls namearr mode n⟩ stat
    Grown cl n.toNat d y.1 ∧ (y.2.1.isOk = true →
      Adds path (Tree.newAttr who sIfreg mode) (decodeNames n.toNat namearr) (cl.tree d) (cl.tree y.1)) := by
  have hpass : (cl.servers i).refusal ⟨who, p, .mkfls namearr mode n⟩ ts = none := by
    have hlook : (⟨who, p, .mkfls namearr mode n⟩ : Call).isLookup = false := rfl
    have hperm : isDirWriteOk (cl.servers i).options.skipPermChecks p who = true := hset.allowsAt hok hi
    rw [Filesystem.refusal, Filesystem.isLeaseOk_of_due h.due, hlook, hperm]
    rfl
  have hlen : (decodeNames n.toNat namearr).length ≤ n.toNat := length_decodeNames_le ..
  have hadds := mkfles_adds hset j ts mode stat hok (decodeNames n.toNat namearr) hd h fun i hi => by
    have := hroom i hi
    omega
  have heq := Cluster.mkflsAt_eq (d := d) hpass hone stat stat
  dsimp only at hadds heq ⊢
  rw [heq]
  generalize (cl.asServer ts).mkfles who p mode stat (decodeNames n.toNat namearr) d = y at hadds
  obtain ⟨hgrown, hadds⟩ := hadds
  generalize hv : (if y.2.1.isOk = true then (d i).inoq + n.toUInt64 else (y.1 i).inoq) = v
  have hwhole : ((d i).inoq + n.toUInt64).toNat = (d i).inoq.toNat + n.toNat := by
    rw [UInt64.toNat_add]
    have := hroom i hi
    exact Nat.mod_eq_of_lt (by simp; omega)
  have hlast : (y.1 i).inoq.toNat ≤ v.toNat ∧ v.toNat ≤ (d i).inoq.toNat + n.toNat := by
    have := hgrown.inoq i
    rw [← hv]
    split
    · rw [hwhole]
      omega
    · omega
  have hdb := Cluster.db_skipTo y.1 i v
  have hinoq : ∀ k, (y.1 k).inoq.toNat ≤ (Cluster.skipTo y.1 i v k).inoq.toNat ∧
      (Cluster.skipTo y.1 i v k).inoq.toNat ≤ (d k).inoq.toNat + n.toNat := by
    intro k
    rw [Cluster.skipTo]
    by_cases hk : k = i
    · rw [hk, Function.update_self]
      exact hlast
    · rw [Function.update_of_ne hk]
      have := hgrown.inoq k
      omega
  refine ⟨⟨hgrown.sound.raise hdb fun k => (hinoq k).1, fun hs => (hgrown.stands hs).congr hdb,
    fun k => (hinoq k).2⟩, fun hst => ?_⟩
  have htree : cl.tree (Cluster.skipTo y.1 i v) = cl.tree y.1 := by
    rw [Cluster.tree, Cluster.tree, Cluster.graph_congr hdb]
  rw [htree]
  exact hadds hst

end Names

end Site

end DeltaFs
