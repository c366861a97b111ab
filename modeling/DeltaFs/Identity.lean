import DeltaFs.Batch
import DeltaFs.Filesystem
import DeltaFs.Lookups

/-!
# On whose behalf a handle writes

The handles that are open on a directory at the same time share one context,
which remembers the user of the lookup it was made for. What is inserted through
a handle is sent by that context.

A write on a context is a section of the commit protocol. `Sink.Guarded` says on
whose behalf the requests of a buffer are, and that they are checked;
`authorized_of_run` takes it to every run of the protocol, and
`handles_identity` to the handles of a client.

The contexts themselves are those of `Leases`, and who joins one is a matter of `Lookups`:
`OwnContexts` is the condition there, and the user of a context the property that leases
keep under it.
-/

namespace DeltaFs

open TransitionSystem

/-! ## The commit protocol

A property of the sections on a buffer carries over to all runs of the protocol: if every
request that a section sends is on behalf of `who`, all requests of the run are. The check of
the permission is in the section that sends; an insert that only fills a buffer is not checked. -/

section Protocol

variable {β E γ : Type} {sv : Servers} {snk : Sink β E γ} {me : γ → User} {who : User} {W : Prop}
  {s s' : Context β} {tr es : List (Sent γ)}

/-- The requests of a buffer are `who`'s and succeed only if `W`. A write that
succeeds without `W` has sent nothing. -/
def Sink.Guarded (snk : Sink β E γ) (me : γ → User) (who : User) (W : Prop) : Prop :=
  ∀ {name force e b st b' reqs}, snk.write name force e b = some (st, b', reqs) →
    (∀ x ∈ reqs, me x.1 = who ∧ (x.2 = .ok → W)) ∧
      (st = .ok → W ∨ force = false ∧ reqs = [])

/-- What holds of the requests and the commits of a context. -/
structure Authorized (me : γ → User) (who : User) (W : Prop) (tr : List (Sent γ))
    (s : Context β) : Prop where
  sent : ∀ x ∈ tr, me x.req = who ∧ (x.status = .ok → W)
  committed : .commit (.returned .ok) ∈ s.ops → W

/-- The invariant: a commit that has flushed a buffer was checked. -/
structure Context.Flushed (W : Prop) (s : Context β) : Prop where
  past : ∀ op ∈ s.ops, op.past 0 = true → W
  returned : .commit (.returned .ok) ∈ s.ops → W
  done : s.commitStatus = .committed → s.bgStatus = .ok → W

theorem Context.setBg_put_ops (s : Context β) (st : Status) (k : Nat) (op : ContextOp) :
    ((s.setBg st).put k op).ops = s.ops.set k op :=
  congrArg (fun ops => ops.set k op) (Context.setBg_ops ..)

/-- A call moves. -/
theorem Context.Flushed.moves (h : s.Flushed W) {k : Nat} {op : ContextOp}
    (hops : s'.ops = s.ops.set k op) (hpast : op.past 0 = true → W)
    (hret : op = .commit (.returned .ok) → W)
    (hdone : s'.commitStatus = .committed → s'.bgStatus = .ok → W) : s'.Flushed W where
  past o ho := by
    rw [hops] at ho
    cases List.mem_or_eq_of_mem_set ho with
    | inl ho => exact h.past o ho
    | inr ho => rw [ho]; exact hpast
  returned ho := by
    rw [hops] at ho
    cases List.mem_or_eq_of_mem_set ho with
    | inl ho => exact h.returned ho
    | inr ho => exact hret ho.symm
  done := hdone

/-- A call arrives. -/
theorem Context.Flushed.arrives (h : s.Flushed W) {op : ContextOp} (hpast : op.past 0 = false)
    (hret : op ≠ .commit (.returned .ok)) : { s with ops := s.ops ++ [op] }.Flushed W where
  past o ho hp := by
    cases List.mem_append.mp ho with
    | inl ho => exact h.past o ho hp
    | inr ho =>
      rw [List.mem_singleton.mp ho, hpast] at hp
      cases hp
  returned ho := by
    cases List.mem_append.mp ho with
    | inl ho => exact h.returned ho
    | inr ho => exact absurd (List.mem_singleton.mp ho).symm hret
  done := h.done

/-- **Step lemma**: the requests are on behalf of `who`, and a commit goes on
only if `W`. -/
theorem Sink.Guarded.step (hg : snk.Guarded me who W) (hsrvs : 0 < sv.srvs) (h : s.Flushed W)
    {l : ContextLabel E} (hm : Context.Move sv snk s l s' es) :
    s'.Flushed W ∧ ∀ x ∈ es, me x.req = who ∧ (x.status = .ok → W) := by
  have hreqs : ∀ {i : Nat} {reqs : List (γ × Status)},
      (∀ x ∈ reqs, me x.1 = who ∧ (x.2 = .ok → W)) →
      ∀ x ∈ reqs.map (fun r => (⟨i, r.1, r.2⟩ : Sent γ)), me x.req = who ∧ (x.status = .ok → W) := by
    intro i reqs hr x hx
    obtain ⟨r, hin, rfl⟩ := List.mem_map.mp hx
    exact hr r hin
  have hnone : ∀ x ∈ ([] : List (Sent γ)), me x.req = who ∧ (x.status = .ok → W) :=
    fun x hx => absurd hx List.not_mem_nil
  have hpast : ∀ {k : Nat} {op : ContextOp}, s.ops[k]? = some op → op.past 0 = true → W :=
    fun hk hp => h.past _ (List.mem_of_getElem? hk) hp
  cases hm with
  | insertArrives => exact ⟨h.arrives rfl nofun, hnone⟩
  | commitArrives => exact ⟨h.arrives rfl nofun, hnone⟩
  | insertRefused => exact ⟨h.moves rfl nofun nofun h.done, hnone⟩
  | insertSelects => exact ⟨h.moves rfl nofun nofun h.done, hnone⟩
  | insertWrites _ hw => exact ⟨h.moves rfl nofun nofun h.done, hreqs (hg hw).1⟩
  | insertReturns =>
    refine ⟨h.moves (Context.setBg_put_ops ..) nofun nofun fun hst hbg => ?_, hnone⟩
    exact h.done ((Context.setBg_commitStatus ..).symm.trans hst) (Context.setBg_bgStatus_ok.mp hbg).1
  | commitRefused _ hok =>
    refine ⟨h.moves rfl nofun (fun heq => ?_) h.done, hnone⟩
    obtain ⟨hst, hbg⟩ := hok (by injection heq with heq; injection heq)
    exact h.done hst hbg
  | commitClaims => exact ⟨h.moves rfl nofun nofun nofun, hnone⟩
  | @commitFlushes k i e st b reqs _ _ hw =>
    obtain ⟨hsent, hok⟩ := hg hw
    have hW : st = .ok → W := fun hst => (hok hst).resolve_right fun hf => nomatch hf.1
    refine ⟨h.moves rfl (fun hp => ?_) (fun heq => ?_) h.done, hreqs hsent⟩
    · cases st with
      | ok => exact hW rfl
      | err => cases hp
    · cases st with
      | ok => exact hW rfl
      | err => cases heq
  | commitEnds hk hi =>
    -- the loop has flushed the buffer of the first server
    have hW : W := hpast hk (decide_eq_true (by omega))
    exact ⟨h.moves rfl (fun _ => hW) (fun _ => hW) fun _ _ => hW, hnone⟩
  | @commitReturns k e st hk =>
    have hW : st = .ok → W := fun hst => hpast hk (by rw [hst]; rfl)
    refine ⟨h.moves (Context.setBg_put_ops ..) nofun (fun heq => ?_) fun _ hbg => ?_, hnone⟩
    · exact hW (by injection heq with heq; injection heq)
    · exact hW (Context.setBg_bgStatus_ok.mp hbg).2

/-- **Run lemma**: whatever is inserted into a context and committed. Requests leave the
context through its buffers alone, so it is enough that a buffer sends on behalf of the
user it was made for. -/
theorem authorized_of_run (hg : snk.Guarded me who W) (hsrvs : 0 < sv.srvs) {Init : β → Prop}
    (hr : (contextSystem sv snk Init).Run (fun _ _ => True) tr s) : Authorized me who W tr s := by
  have hboth : s.Flushed W ∧ ∀ x ∈ tr, me x.req = who ∧ (x.status = .ok → W) := by
    refine hr.invariant (I := fun tr s => s.Flushed W ∧
      ∀ x ∈ tr, me x.req = who ∧ (x.status = .ok → W)) (fun s hs => ?_)
      fun tr s k s' es _ hI _ hstep => ?_
    · obtain ⟨hst, -, hops, -⟩ := hs
      refine ⟨⟨fun op hop => ?_, fun hop => ?_, fun h => ?_⟩,
        fun x hx => absurd hx List.not_mem_nil⟩
      · rw [hops] at hop
        cases hop
      · rw [hops] at hop
        cases hop
      · rw [hst] at h
        cases h
    · obtain ⟨hflushed, hsent⟩ := hg.step hsrvs hI.1 (Context.step_move hstep)
      refine ⟨hflushed, fun x hx => ?_⟩
      cases List.mem_append.mp hx with
      | inl hx => exact hI.2 x hx
      | inr hx => exact hsent x hx
  exact ⟨hboth.2, hboth.1.returned⟩

end Protocol

/-! ## The two buffers

Both `Mkfls2` and `Bukin2` check the permission of the user of the context, whoever calls, and
send this user along. So the requests are always on behalf of the user who made the context. -/

section Buffers

variable (h : Handle)

/-- The user of the context may create entries in its directory. -/
abbrev Handle.Permitted : Prop := isDirWriteOk h.skipPermChecks h.parent h.who = true

theorem permitted_of_send {reply : Status} (hs : h.send reply = .ok) : h.Permitted := by
  rw [Handle.send] at hs
  split at hs
  · cases hs
  · rename_i hno
    simpa using hno

/-- **`Mkfls1`** sends on behalf of the context's user. The user is a field of the
context, and the request takes it from there and not from the handle. -/
theorem batchSink_guarded : (batchSink h).Guarded MkflsRequest.me h.who h.Permitted := by
  intro name force reply buf st buf' reqs hw
  have hw : mkfls1 h name force reply buf = some (st, buf', reqs) := hw
  rw [mkfls1] at hw
  split at hw
  · simp only [] at hw
    split at hw
    · rename_i hok
      cases hw
      have hper : h.Permitted := permitted_of_send h (Status.isOk_iff.mp hok)
      refine ⟨fun x hx => ?_, fun _ => .inl hper⟩
      rw [List.mem_singleton.mp hx]
      exact ⟨rfl, fun _ => hper⟩
    · rename_i hno
      cases hw
      refine ⟨fun x hx => ?_, fun hok => absurd (Status.isOk_iff.mpr hok) hno⟩
      rw [List.mem_singleton.mp hx]
      exact ⟨rfl, fun hok => absurd (Status.isOk_iff.mpr hok) hno⟩
  · rename_i hno
    cases hw
    refine ⟨fun x hx => absurd hx List.not_mem_nil, fun _ => .inr ⟨?_, rfl⟩⟩
    cases force with
    | false => rfl
    | true => exact absurd rfl hno

/-- An insert into an empty buffer is not checked. -/
theorem mkfls1_buffered (hsize : 0 < h.batchSize.toNat) (name : Slice) (reply : Status) :
    mkfls1 h name false reply ⟨[], 0⟩ = some (.ok, WriBuf.append ⟨[], 0⟩ name, []) := by
  have hno : h.mustFlush false ⟨[], 0⟩ = false := by
    rw [Handle.mustFlush, Bool.false_or]
    exact decide_eq_false (Nat.not_le.mpr hsize)
  rw [mkfls1, hno]
  rfl

/-- A commit sends what is buffered. -/
theorem mkfls1_sent (hper : h.Permitted) (buf : WriBuf) :
    mkfls1 h [] true .ok buf =
      some (.ok, ⟨[], 0⟩, [(⟨h.parent, buf.namearr, buf.n, h.mode, h.who⟩, .ok)]) := by
  have hsend : h.send .ok = .ok := by
    rw [Handle.send, hper]
    rfl
  simp only [mkfls1, Handle.mustFlush, Bool.true_or, if_true, hsend, Status.isOk_ok, WriBuf.append]

/-- A flush that succeeds was sent on behalf of the context's user. -/
theorem flush_guarded {buk buk' : BulkIn} {e : BukEnv} {st : Status}
    {reqs : List (BukinRequest × Status)} (hf : buk.flush h e = some (st, buk', reqs)) :
    (∀ x ∈ reqs, x.1.me = h.who ∧ (x.2 = .ok → h.Permitted)) ∧ (st = .ok → h.Permitted) := by
  rw [BulkIn.flush] at hf
  cases hdb : buk.db with
  | none => rw [hdb] at hf; cases hf
  | some db =>
    simp only [hdb] at hf
    split at hf
    · cases hf
    split at hf
    · cases hf
      refine ⟨fun x hx => ?_, permitted_of_send h⟩
      rw [List.mem_singleton.mp hx]
      exact ⟨rfl, permitted_of_send h⟩
    · rename_i hno
      cases hf
      exact ⟨fun x hx => absurd hx List.not_mem_nil, fun hok => absurd (Status.isOk_iff.mpr hok) hno⟩

/-- **`Bukin1`** sends on behalf of the context's user, which is that of the `ctx` it
was opened with. -/
theorem bulkSink_guarded : (bulkSink h).Guarded BukinRequest.me h.who h.Permitted := by
  intro name force e buk st buk' reqs hw
  have hw : bukin1 h name force e buk = some (st, buk', reqs) := hw
  have hnone : ∀ x ∈ ([] : List (BukinRequest × Status)),
      x.1.me = h.who ∧ (x.2 = .ok → h.Permitted) :=
    fun x hx => absurd hx List.not_mem_nil
  simp only [bukin1] at hw
  split at hw
  · cases hput : (buk.open e).2.put name e with
    | none => rw [hput] at hw; cases hw
    | some x =>
      obtain ⟨s₂, buk₂⟩ := x
      simp only [hput] at hw
      split at hw
      · obtain ⟨hsent, hok⟩ := flush_guarded h hw
        exact ⟨hsent, fun hst => .inl (hok hst)⟩
      · rename_i hno
        cases hw
        refine ⟨hnone, fun hok => .inr ⟨?_, rfl⟩⟩
        cases force with
        | false => rfl
        | true => simp [Status.isOk_iff.mpr hok] at hno
  · rename_i hno
    cases hw
    exact ⟨hnone, fun hok => absurd (Status.isOk_iff.mpr hok) hno⟩

/-- The stat `CreateBulkContext` gives the entries of a bulk insertion. -/
def Handle.bulkStat : Stat where
  dnodeNo := 0
  inodeNo := 0
  fileSize := 0
  fileMode := sIfreg ||| (0o660 &&& accessPerms)
  zerothServer := -1
  userId := h.who.uid
  groupId := h.who.gid
  modifyTime := 0
  changeTime := 0

/-- What is inserted through a handle and committed is on behalf of `who`. -/
structure Handle.OnBehalf (h : Handle) (who : User) : Prop where
  /-- an insert succeeds only if `who` may write, or sends nothing -/
  inserts : (batchSink h).Guarded MkflsRequest.me who
    (isDirWriteOk h.skipPermChecks h.parent who = true)
  bulkInserts : (bulkSink h).Guarded BukinRequest.me who
    (isDirWriteOk h.skipPermChecks h.parent who = true)
  batch : ∀ {tr s}, (contextSystem h.servers (batchSink h) WriBuf.Fresh).Run (fun _ _ => True) tr s →
    Authorized MkflsRequest.me who (isDirWriteOk h.skipPermChecks h.parent who = true) tr s
  bulk : ∀ {tr s}, (contextSystem h.servers (bulkSink h) BulkIn.Fresh).Run (fun _ _ => True) tr s →
    Authorized BukinRequest.me who (isDirWriteOk h.skipPermChecks h.parent who = true) tr s
  /-- the new entries are owned by `who` -/
  owner : ∀ (fs : Filesystem) (req : MkflsRequest) (type zserver : UInt32) (ino : UInt64),
    req.me = who → (fs.newStat ⟨req.me, req.parent, .mkfls req.namearr req.mode req.n⟩ type
      req.mode zserver ino).userId = who.uid
  bulkOwner : h.bulkStat.userId = who.uid

theorem Handle.onBehalf : h.OnBehalf h.who where
  inserts := batchSink_guarded h
  bulkInserts := bulkSink_guarded h
  batch hr := authorized_of_run (batchSink_guarded h) h.srvs_pos hr
  bulk hr := authorized_of_run (bulkSink_guarded h) h.srvs_pos hr
  owner fs req type zserver ino hme := by
    rw [← hme]
    rfl
  bulkOwner := rfl

end Buffers

/-! ## The handles of a client

Who made the context is the user of the first handle. A second handle on the same directory
shares it whoever opens it, since leases are shared between users. The condition on the runs is
that this does not happen, and the two runs at the end are one that satisfies it and one that
does not. -/

namespace FilesystemCli

namespace Lookups

variable {δ : Type} (opts : Options) (srvs_pos : 0 < opts.srvs) (batchSize : UInt64)

/-- What the calls on the handle a lookup has returned read of the client and of
the context they share. -/
def writer (s : Lookups δ) (op : Lookup) : Option DeltaFs.Handle := do
  let r ← op.held
  let lease ← (s.parts r.part).mem r.lease
  let context ← match r.mode with
    | .kRegular => none
    | .kBatchedCreats => lease.batch
    | .kBulkIn => lease.bk
  some {
    xx := opts.xx
    srvs := opts.srvs
    srvs_pos := srvs_pos
    batchSize := batchSize
    skipPermChecks := opts.skipPermChecks
    parent := lease.rep
    who := context.who
    mode := 0o660 }

/-- The contexts of a lease are `who`'s. -/
structure Owns (who : User) (lease : Lease) : Prop where
  batch : ∀ bc, lease.batch = some bc → bc.who = who
  bk : ∀ bk, lease.bk = some bk → bk.who = who

/-- A lookup that finds a lease of its mode finds contexts of its own user. -/
def OwnContexts (s : Lookups δ) : LookupLabel δ → Prop
  | .check i now => ∀ op, s.ops[i]? = some op → Joins opts Owns s op now
  | .take i now => ∀ op, s.ops[i]? = some op → Joins opts Owns s op now
  | _ => True

variable {opts srvs_pos batchSize} {srv : Server δ} {hash : Slice → UInt32} {s : Lookups δ}
  {tr : List (LookupEvent δ)} {i : Nat} {op : Lookup} {r : Ref}

theorem sharing_owns : Sharing Owns where
  same {who lease lease'} hsame h := by
    have hwho : ∀ {x y : Option BatchContext} {b : BatchContext},
        y.map BatchContext.who = x.map BatchContext.who → y = some b →
        ∃ b', x = some b' ∧ b'.who = b.who := by
      intro x y b heq hy
      rw [hy] at heq
      exact Option.map_eq_some_iff.mp heq.symm
    refine ⟨fun bc hbc => ?_, fun bk hbk => ?_⟩
    · obtain ⟨b, hb, hw⟩ := hwho hsame.batch hbc
      rw [← hw]
      exact h.batch b hb
    · obtain ⟨b, hb, hw⟩ := hwho hsame.bk hbk
      rw [← hw]
      exact h.bk b hb
  new {who name mode rep} := by
    refine ⟨fun bc hbc => ?_, fun bk hbk => ?_⟩
    · cases mode with
      | kBatchedCreats => cases hbc; rfl
      | _ => cases hbc
    · cases mode with
      | kBulkIn => cases hbk; rfl
      | _ => cases hbk

theorem allowed_of_own (k : LookupLabel δ) (h : OwnContexts opts s k) :
    Allowed opts (fun _ _ _ => True) (fun _ _ _ _ _ => True) Owns s k := by
  cases k with
  | check => exact h
  | take => exact h
  | others => exact fun _ => trivial
  | _ => trivial

/-- **A handle writes on behalf of its user**: in every run in which no lookup
joins a context of another user.

A context is made for the user who opens the first handle, and requests are sent on behalf of
that user until the last handle is destroyed. A lookup that joins it later has passed its own
permission check, but nothing compares the two users, which is what the condition is about. -/
theorem handles_identity (hr : (lookups opts srv hash).Run (OwnContexts opts) tr s)
    (hop : s.ops[i]? = some op) (hheld : op.held = some r) (hmode : r.mode ≠ .kRegular) :
    ∃ h, s.writer opts srvs_pos batchSize op = some h ∧ h.parent = r.rep ∧ h.OnBehalf op.who := by
  have hi := threads_of_run serves_true sharing_owns (fun s k h => allowed_of_own k h) hr
  obtain ⟨-, hm, -, lease, hl, hlm, hrep, -, howns⟩ := hi.held hop hheld
  have hcounts := ((hi.leases r.part).ok hl).counts
  rw [Lease.Counts, hlm, ← hm] at hcounts
  cases hrm : r.mode with
  | kRegular => exact absurd hrm hmode
  | kBatchedCreats =>
    rw [hrm] at hcounts
    obtain ⟨-, bc, hbc, -⟩ := hcounts
    let h : DeltaFs.Handle :=
      ⟨opts.xx, opts.srvs, srvs_pos, batchSize, opts.skipPermChecks, lease.rep, bc.who, 0o660⟩
    have hwho : h.OnBehalf bc.who := h.onBehalf
    rw [howns.batch bc hbc] at hwho
    refine ⟨h, ?_, hrep, hwho⟩
    simp only [writer, hheld, hl, hrm, hbc, Option.bind_eq_bind, Option.bind_some]
    rfl
  | kBulkIn =>
    rw [hrm] at hcounts
    obtain ⟨-, bk, hbk, -⟩ := hcounts
    let h : DeltaFs.Handle :=
      ⟨opts.xx, opts.srvs, srvs_pos, batchSize, opts.skipPermChecks, lease.rep, bk.who, 0o660⟩
    have hwho : h.OnBehalf bk.who := h.onBehalf
    rw [howns.bk bk hbk] at hwho
    refine ⟨h, ?_, hrep, hwho⟩
    simp only [writer, hheld, hl, hrm, hbk, Option.bind_eq_bind, Option.bind_some]
    rfl

/-- A server where there is a directory of each name that only its owner may
write. -/
def ownedDirs : Server Unit where
  lokup _ _ _ _ := ((), .ok ⟨0, 1, 0, 0o755, 1, 1, -1⟩)
  mkfle _ _ _ _ _ stat := ((), .ok, stat)
  mkdir _ _ _ _ _ stat := ((), .ok, stat)
  lstat _ _ _ _ stat := ((), .ok, stat)

/-- A client of one server. -/
def oneServerOptions : Options := ⟨false, 4, ⟨fun _ _ => 0, fun _ _ => 0⟩, 1⟩

/-- Its threads. -/
abbrev ownedLookups : TransitionSystem (Lookups Unit) (LookupLabel Unit) (LookupEvent Unit) :=
  lookups oneServerOptions ownedDirs fun name => DeltaFs.hash name 0

/-- A user opens a batch on `a`, the first one there. -/
def openFirst (who : User) : List (LookupLabel Unit) :=
  [.call who Client.rtlokupstat (str "a") .kBatchedCreats, .check 0 1, .take 0 1, .fetch 0,
    .finish 0]

/-- Another user opens it after the owner of the directory. -/
def openSecond : List (LookupLabel Unit) :=
  openFirst ⟨1, 1⟩ ++
    [.call ⟨2, 2⟩ Client.rtlokupstat (str "a") .kBatchedCreats, .check 1 1]

/-- The owner opens it twice. -/
def openTwice : List (LookupLabel Unit) :=
  openFirst ⟨1, 1⟩ ++
    [.call ⟨1, 1⟩ Client.rtlokupstat (str "a") .kBatchedCreats, .check 1 1]

/-- What a check finds has contexts of its own user only. -/
def joinsOwn (s : Lookups Unit) (i : Nat) (now : UInt64) : Bool :=
  s.ops[i]?.all fun op =>
    ((s.parts (op.part oneServerOptions)).check op.name now).all fun x =>
      (x.2.1.bind x.1.mem).all fun lease =>
        lease.batch.all (fun bc => decide (bc.who = op.who)) &&
          lease.bk.all fun bk => decide (bk.who = op.who)

/-- The test for `OwnContexts`. -/
def ownOnly (s : Lookups Unit) : LookupLabel Unit → Bool
  | .check i now => joinsOwn s i now
  | .take i now => joinsOwn s i now
  | _ => true

theorem ownContexts_of_test (s : Lookups Unit) (k : LookupLabel Unit) (h : ownOnly s k = true) :
    OwnContexts oneServerOptions s k := by
  have hjoins : ∀ {i : Nat} {now : UInt64}, joinsOwn s i now = true → ∀ op, s.ops[i]? = some op →
      Joins oneServerOptions Owns s op now := by
    intro i now htest op hop t l ds lease hcheck hl _
    simp only [joinsOwn, hop, Option.all_some, hcheck, Option.bind_some, hl,
      Bool.and_eq_true] at htest
    obtain ⟨hbatch, hbk⟩ := htest
    refine ⟨fun bc hbc => ?_, fun bk hbk' => ?_⟩
    · rw [hbc] at hbatch
      exact of_decide_eq_true hbatch
    · rw [hbk'] at hbk
      exact of_decide_eq_true hbk
  cases k with
  | check => exact hjoins h
  | take => exact hjoins h
  | _ => trivial

/-- What lookup `i` writes with, as far as it matters here. -/
def written (i : Nat) (x : Lookups Unit × List (LookupEvent Unit)) :
    Option (User × User × LookupStat × Bool × UInt64) :=
  x.1.ops[i]?.bind fun op =>
    (x.1.writer oneServerOptions Nat.one_pos 16 op).map fun h =>
      (op.who, h.who, h.parent, h.skipPermChecks, h.batchSize)

theorem of_written {i : Nat} {x : Lookups Unit × List (LookupEvent Unit)}
    {who me : User} {p : LookupStat} {skip : Bool} {size : UInt64}
    (h : written i x = some (who, me, p, skip, size)) :
    ∃ op h, x.1.ops[i]? = some op ∧ x.1.writer oneServerOptions Nat.one_pos 16 op = some h ∧
      op.who = who ∧ h.who = me ∧ h.parent = p ∧ h.skipPermChecks = skip ∧ h.batchSize = size := by
  obtain ⟨op, hop, hw⟩ := Option.bind_eq_some_iff.mp h
  obtain ⟨w, hwriter, heq⟩ := Option.map_eq_some_iff.mp hw
  obtain ⟨rfl, rfl, rfl, rfl, rfl⟩ : op.who = who ∧ w.who = me ∧ w.parent = p ∧
    w.skipPermChecks = skip ∧ w.batchSize = size := by simpa using heq
  exact ⟨op, w, hop, hwriter, rfl, rfl, rfl, rfl, rfl⟩

/-- The owner of a directory inserts through the second handle it has opened. -/
theorem handles_identity_openTwice :
    ∃ tr s op r, ownedLookups.Run (OwnContexts oneServerOptions) tr s ∧ s.ops[1]? = some op ∧
      op.held = some r ∧ r.mode ≠ .kRegular ∧
      ∃ h, s.writer oneServerOptions Nat.one_pos 16 op = some h ∧ h.parent = r.rep ∧
        h.OnBehalf op.who := by
  have hexec : (ownedLookups.exec ownOnly (start oneServerOptions ()) openTwice).bind (fun x =>
      x.1.ops[1]?.bind fun op => op.held.map Ref.mode) = some .kBatchedCreats := by decide +kernel
  obtain ⟨x, hx, hop⟩ := Option.bind_eq_some_iff.mp hexec
  obtain ⟨op, hop, hheld⟩ := Option.bind_eq_some_iff.mp hop
  obtain ⟨r, hheld, hmode⟩ := Option.map_eq_some_iff.mp hheld
  have hstart : ownedLookups.Run (OwnContexts oneServerOptions) [] (start oneServerOptions ()) :=
    .init ⟨(), rfl⟩
  have hr := hstart.exec ownContexts_of_test hx
  have hne : r.mode ≠ .kRegular := by rw [hmode]; decide
  exact ⟨_, x.1, op, r, hr, hop, hheld, hne, handles_identity hr hop hheld hne⟩

/-- A user who may not write the directory inserts a name all the same, and has
it sent on behalf of the owner, who opened the directory first; on a handle of
its own the insert succeeds as well. -/
theorem handles_shared :
    (∃ tr s op h buf buf' req, ownedLookups.Run (fun _ _ => True) tr s ∧ s.ops[1]? = some op ∧
      s.writer oneServerOptions Nat.one_pos 16 op = some h ∧
      isDirWriteOk h.skipPermChecks h.parent op.who = false ∧
      mkfls1 h (str "x") false .ok ⟨[], 0⟩ = some (.ok, buf, []) ∧
      mkfls1 h [] true .ok buf = some (.ok, buf', [(req, .ok)]) ∧ req.me ≠ op.who) ∧
    ∃ tr s op h buf, ownedLookups.Run (fun _ _ => True) tr s ∧ s.ops[0]? = some op ∧
      s.writer oneServerOptions Nat.one_pos 16 op = some h ∧ h.who = op.who ∧
      isDirWriteOk h.skipPermChecks h.parent op.who = false ∧
      mkfls1 h (str "x") false .ok ⟨[], 0⟩ = some (.ok, buf, []) := by
  have hstart : ownedLookups.Run (fun _ _ => True) [] (start oneServerOptions ()) := .init ⟨(), rfl⟩
  constructor
  · have hexec : (ownedLookups.exec (fun _ _ => true) (start oneServerOptions ())
        openSecond).bind (written 1) =
          some (⟨2, 2⟩, ⟨1, 1⟩, ⟨0, 1, 0, 0o755, 1, 1, -1⟩, false, 16) := by decide +kernel
    obtain ⟨x, hx, hw⟩ := Option.bind_eq_some_iff.mp hexec
    obtain ⟨op, h, hop, hwriter, hwho, hme, hp, hskip, hsize⟩ := of_written hw
    have hper : h.Permitted := by rw [Handle.Permitted, hskip, hp, hme]; decide
    refine ⟨_, x.1, op, h, _, _, _, hstart.exec (fun _ _ _ => trivial) hx, hop, hwriter, ?_,
      mkfls1_buffered h (by rw [hsize]; decide) (str "x") .ok, mkfls1_sent h hper _, ?_⟩
    · rw [hskip, hp, hwho]
      decide
    · rw [hme, hwho]
      exact (by decide : (⟨1, 1⟩ : User) ≠ ⟨2, 2⟩)
  · have hexec : (ownedLookups.exec (fun _ _ => true) (start oneServerOptions ())
        (openFirst ⟨2, 2⟩)).bind (written 0) =
          some (⟨2, 2⟩, ⟨2, 2⟩, ⟨0, 1, 0, 0o755, 1, 1, -1⟩, false, 16) := by decide +kernel
    obtain ⟨x, hx, hw⟩ := Option.bind_eq_some_iff.mp hexec
    obtain ⟨op, h, hop, hwriter, hwho, hme, hp, hskip, hsize⟩ := of_written hw
    refine ⟨_, x.1, op, h, _, hstart.exec (fun _ _ _ => trivial) hx, hop, hwriter,
      hme.trans hwho.symm, ?_, mkfls1_buffered h (by rw [hsize]; decide) (str "x") .ok⟩
    rw [hskip, hp, hwho]
    decide

end Lookups

end FilesystemCli

end DeltaFs
