import DeltaFs.Lookups
import DeltaFs.Relative

/-!
# Leases are transparent

The threads of a client look directories up on a filesystem that others create
entries on. `lookups_transparent`: a regular lookup returns what the filesystem
itself would have returned at some moment between its call and its return,
whoever looked the directory up before, and whether the lease was found in the
cache or in the table, before or after a wait, or is new.

`Told` is the invariant of the events: a lookup that holds a reply of the
filesystem has shown it, and a lookup that has returned was answered before.

The moment is found in the events: a lookup that asks the server is answered at one step,
and what it returns at a later one is that answer, whatever has happened in between; a
lookup that finds a lease is answered where it finds it. Creates of others are steps that
change the content and keep what leases know.
-/

namespace DeltaFs

open FilesystemCli FilesystemCli.Client

open scoped List

namespace Filesystem

variable (fs : Filesystem)

/-- What others do on the filesystem, up to the next moment somebody looks. A
`Mkfls` works name by name, and takes inode numbers and gives them back. -/
inductive Served (d : Content) : Content → Prop where
  | mkfle (ts : UInt64) (who : User) (p : LookupStat) (name : Slice) (mode : UInt32) (stat : Stat) :
      Served d ((fs.server ts).mkfle d who p name mode stat).1
  | mkdir (ts : UInt64) (who : User) (p : LookupStat) (name : Slice) (mode : UInt32) (stat : Stat) :
      Served d ((fs.server ts).mkdir d who p name mode stat).1
  | mkfls (ts : UInt64) (op : Op) (name : Slice) : Served d (fs.checkAndPut ts name d op).1
  | numbers (inoq : UInt64) : Served d { d with inoq := inoq }
  | lokup (ts : UInt64) (who : User) (p : LookupStat) (name : Slice) :
      Served d ((fs.server ts).lokup d who p name).1
  | lstat (ts : UInt64) (who : User) (p : LookupStat) (name : Slice) (stat : Stat) :
      Served d ((fs.server ts).lstat d who p name stat).1

/-- The root, or the result of a lookup. -/
def Parent (p : LookupStat) : Prop :=
  p = rtlokupstat ∨ ∃ ts d who q name, ((fs.server ts).lokup d who q name).2 = .ok p

variable {fs} {d d' : Content} {id : DirId} {name : Slice} {mode : LokupMode} {rep p : LookupStat}


/-- Nothing others do takes an entry away. -/
theorem Served.entry (hcoll : fs.options.skipNameCollisionChecks = false) (h : fs.Served d d')
    (he : fs.Entry d id name mode rep) : fs.Entry d' id name mode rep := by
  cases h with
  | mkfle ts => exact serveCreate_entry hcoll he _ _ _
  | mkdir ts => exact serveCreate_entry hcoll he _ _ _
  | mkfls ts op x => exact checkAndPut_entry hcoll he x op
  | numbers inoq => exact he
  | lokup ts => rw [lokup_content]; exact he
  | lstat ts => rw [lstat_content]; exact he

/-- Leases of parents do not expire. -/
theorem Parent.due (h : fs.Parent p) : p.leaseDue = -1 := by
  cases h with
  | inl h => rw [h]; rfl
  | inr h =>
    obtain ⟨ts, d, who, q, name, hp⟩ := h
    obtain ⟨-, -, st, -, -, rfl⟩ := entry_of_lokup hp
    rfl

end Filesystem

namespace FilesystemCli

namespace Lookups

open Filesystem

/-- A regular lookup beneath the root or the result of a lookup, or something
others do. -/
def Fair (fs : Filesystem) (s : Lookups Content) : LookupLabel Content → Prop
  | .call _ parent _ mode => mode = .kRegular ∧ fs.Parent parent
  | .others d => fs.Served s.content d
  | _ => True

/-- The filesystem would return the same: the same stat, or an error with the
same code. -/
def Agrees (fs : Filesystem) (op : Lookup) (d : Content)
    (result : Except (ErrCode × Slice) LookupStat) : Prop :=
  ∀ ts, ((fs.server ts).lokup d op.who op.parent op.name).2.mapError Prod.fst =
    result.mapError Prod.fst

/-- What the events tell of the lookups. -/
structure Told (fs : Filesystem) (opts : Options) (tr : List (LookupEvent Content))
    (s : Lookups Content) : Prop where
  invoked : ∀ {i : Nat} {op : Lookup}, s.ops[i]? = some op → [.invoked i] <+ tr
  /-- a lookup that is under way passed the check of the permissions -/
  passed : ∀ {i : Nat} {op : Lookup}, s.ops[i]? = some op → op.phase ≠ .entered →
    op.phase ≠ .returned → isLookupOk opts.skipPermChecks op.parent op.who = true
  fetched : ∀ {i : Nat} {op : Lookup} {reply : Except (ErrCode × Slice) LookupStat},
    s.ops[i]? = some op → op.phase = .fetched reply →
    ∃ d, [.invoked i, .answered i d reply] <+ tr ∧ Agrees fs op d reply
  returned : ∀ {i : Nat} {result : Except (ErrCode × Slice) LookupStat}, .ret i result ∈ tr →
    ∃ op d, s.ops[i]? = some op ∧ [.invoked i, .answered i d result, .ret i result] <+ tr ∧
      Agrees fs op d result

variable {fs : Filesystem} {opts : Options} {hash : Slice → UInt32} {ts : UInt64}
  {s s' : Lookups Content} {i : Nat} {op op' : Lookup} {tr : List (LookupEvent Content)}

theorem Agrees.of_call {d : Content} {result : Except (ErrCode × Slice) LookupStat}
    (h : Agrees fs op d result) (hcall : SameCall op op') : Agrees fs op' d result := by
  rw [Agrees, hcall.who, hcall.parent, hcall.name]
  exact h

/-- The calls the threads make. -/
abbrev Regular (fs : Filesystem) (_ : User) (p : LookupStat) (mode : LokupMode) : Prop :=
  mode = .kRegular ∧ fs.Parent p

theorem serves_entry : Serves (fs.server ts) (Regular fs) fs.Entry where
  lokup h := by
    rw [lokup_content]
    exact h
  found {d who p name mode rep} hM h := by
    rw [lokup_content, hM.1]
    exact entry_of_lokup h

theorem allowed_of_fair (hcoll : fs.options.skipNameCollisionChecks = false)
    (k : LookupLabel Content) (h : Fair fs s k) :
    Allowed opts (Regular fs) fs.Entry (fun _ _ => True) s k := by
  cases k with
  | call => exact h
  | others d => exact fun he => Served.entry hcoll h he
  | check => exact fun _ _ _ _ _ _ _ _ _ => trivial
  | take => exact fun _ _ _ _ _ _ _ _ _ => trivial
  | _ => trivial

/-- What a lookup shows when it is answered agrees with the filesystem. -/
inductive Answered (fs : Filesystem) (opts : Options) (s : Lookups Content) (i : Nat)
    (op op' : Lookup) : List (LookupEvent Content) → Prop where
  /-- at once -/
  | returned {result : Except (ErrCode × Slice) LookupStat} : Agrees fs op s.content result →
      op'.phase = .returned →
      Answered fs opts s i op op' [.answered i s.content result, .ret i result]
  /-- by the filesystem -/
  | fetched {reply : Except (ErrCode × Slice) LookupStat} : Agrees fs op s.content reply →
      op'.phase = .fetched reply → isLookupOk opts.skipPermChecks op.parent op.who = true →
      Answered fs opts s i op op' [.answered i s.content reply]
  /-- before -/
  | finished {reply : Except (ErrCode × Slice) LookupStat} : op.phase = .fetched reply →
      op'.phase = .returned → Answered fs opts s i op op' [.ret i reply]
  /-- not yet -/
  | waiting : (∀ reply, op'.phase ≠ .fetched reply) →
      (op'.phase ≠ .returned → isLookupOk opts.skipPermChecks op.parent op.who = true) →
      Answered fs opts s i op op' []

theorem answered_of_shows (hperm : opts.skipPermChecks = false)
    (hfs : fs.options.skipPermChecks = false)
    (hi : Threads opts hash (Regular fs) fs.Entry (fun _ _ => True) s) (ht : Told fs opts tr s)
    (hop : s.ops[i]? = some op) {before after : List (LookupEvent Content)}
    (h : Shows opts (fs.server ts) fs.Entry s i op op' before after) :
    Answered fs opts s i op op' after := by
  obtain ⟨hmode, hparent⟩ := hi.calls hop
  have hdue := hparent.due
  -- a lookup that looks for a lease passed the check of the permissions
  have hpassed : op.phase = .entered ∨ op.phase = .waiting →
      (op.phase = .entered → isLookupOk opts.skipPermChecks op.parent op.who = true) →
      isLookupOk opts.skipPermChecks op.parent op.who = true := by
    intro hphase hentered
    cases hphase with
    | inl h => exact hentered h
    | inr h => exact ht.passed hop (by rw [h]; exact nofun) (by rw [h]; exact nofun)
  cases h with
  | refused hphase hno hover =>
    refine .returned (fun ts' => ?_) hover
    rw [hperm] at hno
    rw [lokup_refused hdue (by rw [hfs]; exact hno)]
    rfl
  | @granted r hphase hentered hP hover =>
    have hok := hpassed hphase hentered
    refine .returned (fun ts' => ?_) hover
    rw [hperm] at hok
    rw [lokup_entry hP (by rw [hfs]; exact hok) hdue]
  | mismatch hphase hentered hP hne =>
    -- all leases are regular
    exact absurd (hP.1.trans hmode.symm) hne
  | missing hphase hentered hgoes =>
    refine .waiting (fun reply h => ?_) fun _ => hpassed hphase hentered
    cases hgoes with
    | inl hw => rw [h] at hw; cases hw
    | inr hw => rw [h] at hw; cases hw
  | fetched hphase hgoes =>
    refine .fetched (fun ts' => ?_) hgoes
      (ht.passed hop (by rw [hphase]; exact nofun) (by rw [hphase]; exact nofun))
    rw [lokup_time hdue ts' ts]
  | failed hphase hover => exact .finished hphase hover
  | @installed r hphase hover => exact .finished hphase hover
  | given _ _ hover =>
    refine .waiting (fun reply h => ?_) fun h => absurd hover h
    rw [hover] at h
    cases h

/-- A call adds a thread and the event of its call. -/
theorem Told.called (ht : Told fs opts tr s) (who : User) (parent : LookupStat) (name : Slice)
    (mode : LokupMode) :
    Told fs opts (tr ++ [.invoked s.ops.length])
      { s with ops := s.ops ++ [Lookup.new who parent name mode] } := by
  have hold : ∀ {l : List (LookupEvent Content)}, l <+ tr → l <+ tr ++ [.invoked s.ops.length] :=
    fun h => h.trans (List.sublist_append_left _ _)
  refine ⟨fun {j o} hj => ?_, fun {j o} hj he hr => ?_, fun {j o reply} hj hf => ?_,
    fun {j result} hret => ?_⟩
  · cases TransitionSystem.pool_push hj with
    | inl h => rw [h.1]; exact List.sublist_append_right _ _
    | inr h => exact hold (ht.invoked h)
  · cases TransitionSystem.pool_push hj with
    | inl h => rw [h.2] at he; exact absurd rfl he
    | inr h => exact ht.passed h he hr
  · cases TransitionSystem.pool_push hj with
    | inl h => rw [h.2] at hf; cases hf
    | inr h =>
      obtain ⟨d, hsub, hagrees⟩ := ht.fetched h hf
      exact ⟨d, hold hsub, hagrees⟩
  · have hret : LookupEvent.ret j result ∈ tr := by simpa using hret
    obtain ⟨o, d, hj, hsub, hagrees⟩ := ht.returned hret
    exact ⟨o, d, TransitionSystem.pool_push_old hj, hold hsub, hagrees⟩

/-- A step of a lookup. What it answered before it returned is still there: only the lookup that
moves is answered or returns. -/
theorem Told.moved (hperm : opts.skipPermChecks = false) (hfs : fs.options.skipPermChecks = false)
    (hi : Threads opts hash (Regular fs) fs.Entry (fun _ _ => True) s) (ht : Told fs opts tr s)
    (hop : s.ops[i]? = some op) {es : List (LookupEvent Content)}
    (h : Steps opts (fs.server ts) hash fs.Entry (fun _ _ => True) s i op s' es) :
    Told fs opts (tr ++ es) s' := by
  have hold : ∀ {l : List (LookupEvent Content)}, l <+ tr → l <+ tr ++ es :=
    fun h => h.trans (List.sublist_append_left _ _)
  cases h with
  | @mk op' t ds before after hmove _ _ hshows =>
    have hanswered := answered_of_shows hperm hfs hi ht hop hshows
    have hself : s'.ops[i]? = some op' := by
      rw [hmove.ops]
      exact TransitionSystem.pool_set_self hop
    have hafter : after <+ before ++ ds.map (.deleted (op.part opts)) ++ after :=
      List.sublist_append_right _ _
    have hlater : ∀ {j : Nat} {o : Lookup}, s.ops[j]? = some o →
        ∃ o', s'.ops[j]? = some o' ∧ SameCall o o' := by
      intro j o hj
      by_cases hji : j = i
      · subst hji
        obtain rfl := Option.some.inj (hj.symm.trans hop)
        exact ⟨op', hself, hmove.call⟩
      · refine ⟨o, ?_, ⟨rfl, rfl, rfl, rfl⟩⟩
        rw [hmove.ops, TransitionSystem.pool_set_ne hji]
        exact hj
    refine ⟨fun {j o} hj => ?_, fun {j o} hj he hr => ?_, fun {j o reply} hj hf => ?_,
      fun {j result} hret => ?_⟩
    · rw [hmove.ops] at hj
      cases TransitionSystem.pool_set hj with
      | inl h => rw [h.1]; exact hold (ht.invoked hop)
      | inr h => exact hold (ht.invoked h.2)
    · rw [hmove.ops] at hj
      cases TransitionSystem.pool_set hj with
      | inl h =>
        obtain ⟨rfl, rfl⟩ := h
        rw [hmove.call.parent, hmove.call.who]
        cases hanswered with
        | returned _ hover => exact absurd hover hr
        | fetched _ _ hok => exact hok
        | finished _ hover => exact absurd hover hr
        | waiting _ hok => exact hok hr
      | inr h => exact ht.passed h.2 he hr
    · rw [hmove.ops] at hj
      cases TransitionSystem.pool_set hj with
      | inl h =>
        obtain ⟨rfl, rfl⟩ := h
        cases hanswered with
        | returned _ hover => rw [hover] at hf; cases hf
        | fetched hagrees hphase _ =>
          obtain rfl := Phase.fetched.inj (hphase.symm.trans hf)
          exact ⟨s.content, (ht.invoked hop).append hafter, hagrees.of_call hmove.call⟩
        | finished _ hover => rw [hover] at hf; cases hf
        | waiting hno => exact absurd hf (hno reply)
      | inr h =>
        obtain ⟨d, hsub, hagrees⟩ := ht.fetched h.2 hf
        exact ⟨d, hold hsub, hagrees⟩
    · rw [List.mem_append] at hret
      cases hret with
      | inl hret =>
        obtain ⟨o, d, hj, hsub, hagrees⟩ := ht.returned hret
        obtain ⟨o', hj', hcall⟩ := hlater hj
        exact ⟨o', d, hj', hold hsub, hagrees.of_call hcall⟩
      | inr hret =>
        -- only the lookup that moves returns
        have hret : LookupEvent.ret j result ∈ after := by
          simp only [List.mem_append, List.mem_map] at hret
          rcases hret with (hret | ⟨x, -, hx⟩) | hret
          · cases hshows with
            | installed => simp at hret
            | _ => cases hret
          · cases hx
          · exact hret
        cases hanswered with
        | returned hagrees _ =>
          obtain ⟨rfl, rfl⟩ : j = i ∧ result = _ := by simpa using hret
          exact ⟨op', s.content, hself, (ht.invoked hop).append hafter,
            hagrees.of_call hmove.call⟩
        | fetched => simp at hret
        | finished hphase _ =>
          obtain ⟨rfl, rfl⟩ : j = i ∧ result = _ := by simpa using hret
          obtain ⟨d, hsub, hagrees⟩ := ht.fetched hop hphase
          exact ⟨op', d, hself, hsub.append hafter, hagrees.of_call hmove.call⟩
        | waiting => cases hret

/-- **Step lemma**: what the events tell stays true. What was answered is never taken back,
since the log only grows. -/
theorem Told.step (hperm : opts.skipPermChecks = false) (hfs : fs.options.skipPermChecks = false)
    (hi : Threads opts hash (Regular fs) fs.Entry (fun _ _ => True) s) (ht : Told fs opts tr s)
    {k : LookupLabel Content} {es : List (LookupEvent Content)}
    (h : Stepped opts (fs.server ts) hash fs.Entry (fun _ _ => True) s k s' es) :
    Told fs opts (tr ++ es) s' := by
  cases h with
  | called who parent name mode => exact ht.called who parent name mode
  | moved hop _ hsteps => exact Told.moved hperm hfs hi ht hop hsteps
  | deleted =>
    rw [List.append_nil]
    exact ⟨ht.invoked, ht.passed, ht.fetched, ht.returned⟩
  | others d =>
    rw [List.append_nil]
    exact ⟨ht.invoked, ht.passed, ht.fetched, ht.returned⟩

/-- **Leases are transparent**: what a lookup returns, the filesystem would have
returned to the same user at a moment between its call and its return.

A lease that is found in the cache may be older than the call. It is still right, because what
the server says of a directory does not change while its entry is there, and entries are not
removed; the permission is checked for the user who asks. So the moment of the return will do
for a lease that has been found, and for one that is fetched it is that of the answer. -/
theorem lookups_transparent (hperm : opts.skipPermChecks = false)
    (hfs : fs.options.skipPermChecks = false)
    (hcoll : fs.options.skipNameCollisionChecks = false)
    (hr : (lookups opts (fs.server ts) hash).Run (Fair fs) tr s)
    {result : Except (ErrCode × Slice) LookupStat} (hret : .ret i result ∈ tr) :
    ∃ op d, s.ops[i]? = some op ∧ [.invoked i, .answered i d result, .ret i result] <+ tr ∧
      Agrees fs op d result := by
  have hboth : Threads opts hash (Regular fs) fs.Entry (fun _ _ => True) s ∧ Told fs opts tr s := by
    refine hr.invariant (I := fun tr s => Threads opts hash (Regular fs) fs.Entry
      (fun _ _ => True) s ∧ Told fs opts tr s) (fun s hs => ?_) fun tr s k s' es _ hI hc hs => ?_
    · obtain ⟨content, rfl⟩ := hs
      refine ⟨threads_start content, fun h => (nomatch h), fun h => (nomatch h),
        fun h => (nomatch h), fun h => (nomatch h)⟩
    · have hk : Allowed opts (Regular fs) fs.Entry (fun _ _ => True) s k :=
        allowed_of_fair hcoll k hc
      have hstep := Stepped.of_step serves_entry sharing_true hI.1 hk hs
      exact ⟨hstep.threads sharing_true hI.1 hk, hI.2.step hperm hfs hI.1 hstep⟩
  exact hboth.2.returned hret

/-- Calls of the regular lookup of a name in the root. -/
def rootOnly (_ : Lookups Content) : LookupLabel Content → Bool
  | .call _ parent _ mode => decide (parent = rtlokupstat ∧ mode = .kRegular)
  | .others _ => false
  | _ => true

/-- Lookup `i` returns `rep`. -/
def returns? (i : Nat) (rep : LookupStat) : LookupEvent Content → Bool
  | .ret j (.ok rep') => decide (j = i ∧ rep' = rep)
  | _ => false

/-- Two users look up `a` in the root; the second one waits, and finds the lease
of the first. -/
def twoUsers : List (LookupLabel Content) :=
  [.call someone rtlokupstat (str "a") .kRegular, .call ⟨2, 2⟩ rtlokupstat (str "a") .kRegular,
    .check 0 1, .take 0 1, .check 1 1, .fetch 0, .finish 0, .take 1 2]

/-- The second user of `twoUsers` gets what the filesystem holds. -/
theorem lookups_transparent_twoUsers :
    ∃ tr s, (lookups checking aServer fun name => DeltaFs.hash name 0).Run (Fair ownFs) tr s ∧
      .ret 1 (.ok ⟨0, 1, 0, 0o040777, 1, 1, -1⟩) ∈ tr ∧
      ∃ op d, s.ops[1]? = some op ∧
        [.invoked 1, .answered 1 d (.ok ⟨0, 1, 0, 0o040777, 1, 1, -1⟩),
          .ret 1 (.ok ⟨0, 1, 0, 0o040777, 1, 1, -1⟩)] <+ tr ∧
        Agrees ownFs op d (.ok ⟨0, 1, 0, 0o040777, 1, 1, -1⟩) := by
  have hexec : ((lookups checking aServer fun name => DeltaFs.hash name 0).exec rootOnly
      (start checking withDir) twoUsers).map (fun x =>
        x.2.any (returns? 1 ⟨0, 1, 0, 0o040777, 1, 1, -1⟩)) = some true := by decide +kernel
  obtain ⟨x, hx, hany⟩ := Option.map_eq_some_iff.mp hexec
  obtain ⟨s, tr⟩ := x
  have hfair : ∀ s k, rootOnly s k = true → Fair ownFs s k := by
    intro s k hk
    cases k with
    | call who parent name mode =>
      obtain ⟨hp, hm⟩ := of_decide_eq_true hk
      exact ⟨hm, .inl hp⟩
    | others d => cases hk
    | _ => trivial
  have hstart : (lookups checking aServer fun name => DeltaFs.hash name 0).Run (Fair ownFs) []
      (start checking withDir) := .init ⟨withDir, rfl⟩
  have hr := hstart.exec hfair hx
  rw [List.nil_append] at hr
  obtain ⟨e, he, hret⟩ := List.any_eq_true.mp hany
  have hin : .ret 1 (.ok ⟨0, 1, 0, 0o040777, 1, 1, -1⟩) ∈ tr := by
    cases e with
    | ret j result =>
      cases result with
      | ok rep =>
        obtain ⟨rfl, rfl⟩ := of_decide_eq_true hret
        exact he
      | error e => cases hret
    | _ => cases hret
  exact ⟨tr, s, hr, hin, lookups_transparent rfl rfl rfl hr hin⟩

end Lookups

end FilesystemCli

end DeltaFs
