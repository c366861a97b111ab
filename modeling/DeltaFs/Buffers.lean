import DeltaFs.Batch

/-!
# What the buffers of a context hold

Two invariants of the buffers of a shared context, between any two sections. The
count of a write buffer is the number of names in its array, as long as it starts
at 0: `CreateBatch` does not set it. A bulk buffer whose db could not be opened is
in the way of every call that gets to it before the error has been recorded.

Both are about one buffer at a time. A section works on the buffer of one server, under the
lock of it, so an invariant of a buffer that each section keeps holds of all buffers in
every run (`run_bufs`), and the rest is about `Mkfls1` and `Bukin1`.
-/

namespace DeltaFs

open TransitionSystem

/-! ## Invariants of one buffer

A section of a call writes one buffer, that of the server its name belongs to, or each in turn
in a commit. So a property of single buffers that every write keeps holds of all of them in
every run. What is written may be assumed to be what calls insert, and this is how a condition
on the names gets into the invariant. -/

namespace Context

variable {β E γ : Type} {sv : Servers} {snk : Sink β E γ}

/-- Inserts feed a buffer only what `F` admits. -/
def Feeds (F : Slice → β → Prop) (s : Context β) : ContextLabel E → Prop
  | .advance k _ =>
    match s.ops[k]? with
    | some (.insert name (.selected i)) => F name (s.bufs i)
    | _ => True
  | _ => True

/-- The buffer a call is about to insert into, and the name. -/
def target? (s : Context β) (k : Nat) : Option (Slice × β) :=
  match s.ops[k]? with
  | some (.insert name (.selected i)) => some (name, s.bufs i)
  | _ => none

theorem feeds_advance (F : Slice → β → Prop) (s : Context β) (k : Nat) (e : E) :
    (∀ x ∈ s.target? k, F x.1 x.2) ↔ s.Feeds F (.advance k e) := by
  rw [target?, Feeds]
  split
  · simp
  · simp

instance {F : Slice → β → Prop} [∀ name b, Decidable (F name b)] (s : Context β)
    (l : ContextLabel E) : Decidable (s.Feeds F l) :=
  match l with
  | .insert _ => instDecidableTrue
  | .commit => instDecidableTrue
  | .advance k e => decidable_of_iff _ (feeds_advance F s k e)

/-- **Buffers are independent**: what every write keeps holds of every buffer in
every run, and every request is sent by a write. -/
theorem run_bufs {Init P : β → Prop} {F : Slice → β → Prop} {Q : γ → Prop}
    (hinit : ∀ b, Init b → P b)
    (hinsert : ∀ {name e b st b' reqs}, P b → F name b →
      snk.write name false e b = some (st, b', reqs) → P b' ∧ ∀ r ∈ reqs, Q r.1)
    (hcommit : ∀ {e b st b' reqs}, P b → snk.write [] true e b = some (st, b', reqs) →
      P b' ∧ ∀ r ∈ reqs, Q r.1)
    {tr : List (Sent γ)} {s : Context β}
    (hr : (contextSystem sv snk Init).Run (fun s l => s.Feeds F l) tr s) :
    (∀ i, P (s.bufs i)) ∧ ∀ x ∈ tr, Q x.req := by
  have hone : ∀ {tr : List (Sent γ)} {s : Context β} {i : Nat} {b : β}
      {reqs : List (γ × Status)}, ((∀ i, P (s.bufs i)) ∧ ∀ x ∈ tr, Q x.req) →
      (P b ∧ ∀ r ∈ reqs, Q r.1) → (∀ j, P (Function.update s.bufs i b j)) ∧
        ∀ x ∈ tr ++ reqs.map fun r => ⟨i, r.1, r.2⟩, Q x.req := by
    intro tr s i b reqs hs hb
    refine ⟨fun j => ?_, fun x hx => ?_⟩
    · by_cases hj : j = i
      · rw [hj, Function.update_self]
        exact hb.1
      · rw [Function.update_of_ne hj]
        exact hs.1 j
    · rcases List.mem_append.mp hx with hx | hx
      · exact hs.2 x hx
      · obtain ⟨r, hr, rfl⟩ := List.mem_map.mp hx
        exact hb.2 r hr
  refine hr.invariant (I := fun tr s => (∀ i, P (s.bufs i)) ∧ ∀ x ∈ tr, Q x.req) ?_ ?_
  · rintro s ⟨-, -, -, hbufs⟩
    exact ⟨fun i => hinit _ (hbufs i), fun x hx => absurd hx List.not_mem_nil⟩
  · intro tr s l s' es _ hi hC hs
    cases step_move hs with
    | insertWrites hk hw =>
      rw [Feeds, hk] at hC
      exact hone hi (hinsert (hi.1 _) hC hw)
    | commitFlushes hk _ hw => exact hone hi (hcommit (hi.1 _) hw)
    | insertReturns hk =>
      rw [List.append_nil]
      simpa [put] using hi
    | commitReturns hk =>
      rw [List.append_nil]
      simpa [put] using hi
    | _ =>
      rw [List.append_nil]
      exact hi

end Context

/-! ## The count of a write buffer

`Mkfls1` adds one to the count with each name and sets it to zero after sending, so the count is
that of the names if it starts at zero. `CreateBatch` leaves it as the allocator has it. Both
are shown: the invariant, and what happens to a buffer that starts with another count. -/

/-- `namearr` is `n` names, each with the prefix of its length. -/
def Counted (namearr : Slice) (n : UInt32) : Prop :=
  ∃ names : List Slice, namearr = encodeNames names ∧ n.toNat = names.length ∧
    ∀ x ∈ names, x.length < 2 ^ 32

/-- The count of a write buffer is that of its names. -/
def WriBuf.Exact (buf : WriBuf) : Prop := Counted buf.namearr buf.n

/-- A new write buffer whose count is 0. -/
def WriBuf.Zeroed (buf : WriBuf) : Prop := buf.Fresh ∧ buf.n = 0

theorem WriBuf.Zeroed.exact {buf : WriBuf} (hb : buf.Zeroed) : buf.Exact :=
  ⟨[], hb.1, by rw [hb.2]; rfl, fun x hx => absurd hx List.not_mem_nil⟩

/-- The loop of the receiver reads every name. -/
theorem Counted.decoded {namearr : Slice} {n : UInt32} (hc : Counted namearr n) :
    (decodeNames n.toNat namearr).length = n.toNat := by
  obtain ⟨names, rfl, hn, hlen⟩ := hc
  rw [hn, decodeNames_encodeNames hlen (Nat.le_refl _)]

/-- One more name. -/
theorem WriBuf.Exact.append {buf : WriBuf} (hb : buf.Exact) {name : Slice}
    (hfits : name = [] ∨ name.length < 2 ^ 32 ∧ buf.n.toNat + 1 < 2 ^ 32) :
    (buf.append name).Exact := by
  rw [WriBuf.append]
  split
  · exact hb
  rename_i hne
  obtain ⟨hlen, hn⟩ := hfits.resolve_left hne
  obtain ⟨names, hnames, hcount, hlens⟩ := hb
  refine ⟨names ++ [name], ?_, ?_, fun x hx => ?_⟩
  · rw [putLengthPrefixedSlice_eq, hnames, encodeNames, encodeNames, List.flatMap_append,
      List.flatMap_singleton]
  · rw [UInt32.toNat_add, List.length_append, ← hcount]
    exact Nat.mod_eq_of_lt hn
  · rcases List.mem_append.mp hx with hx | hx
    · exact hlens x hx
    · rw [List.mem_singleton.mp hx]
      exact hlen

variable {h : Handle}

/-- **`Mkfls1` keeps the count exact**, and sends exact counts. The buffer is emptied in the
section that sends it, so there is no moment at which the count and the names are apart. -/
theorem WriBuf.Exact.mkfls1 {name : Slice} {force : Bool} {reply s : Status} {buf buf' : WriBuf}
    {reqs : List (MkflsRequest × Status)} (hb : buf.Exact) (hfits : h.FitsBuf name buf)
    (hw : mkfls1 h name force reply buf = some (s, buf', reqs)) :
    buf'.Exact ∧ ∀ r ∈ reqs, Counted r.1.namearr r.1.n := by
  rw [DeltaFs.mkfls1] at hw
  split at hw
  · simp only [] at hw
    split at hw
    · cases hw
      have hnew : WriBuf.Exact ⟨[], 0⟩ := WriBuf.Zeroed.exact ⟨rfl, rfl⟩
      refine ⟨hnew.append (hfits.imp_right fun hf => ⟨hf.1, by decide⟩), fun r hr => ?_⟩
      rw [List.mem_singleton.mp hr]
      exact hb
    · cases hw
      refine ⟨hb, fun r hr => ?_⟩
      rw [List.mem_singleton.mp hr]
      exact hb
  · rename_i hno
    cases hw
    refine ⟨hb.append (hfits.imp_right fun hf => ⟨hf.1, hf.2.resolve_left fun hm => hno ?_⟩),
      fun r hr => absurd hr List.not_mem_nil⟩
    have hf : force = false := Bool.eq_false_of_not_eq_true fun hf => by
      rw [hf] at hno
      exact hno rfl
    rw [hf]
    exact hm

/-- **Counts are exact** in every run from counts that start at 0, in which names
fit the prefix of their length: between any two sections every write buffer counts
its names, every request counts the names it carries, and its receiver reads as
many as it reserves numbers for.

The constructor of `WriBuf` does not set the count, hence the first condition: a buffer that
starts at another number counts that much too many names until its first flush. -/
theorem counts_exact (h : Handle) {tr : List (Sent MkflsRequest)} {s : Context WriBuf}
    (hr : (contextSystem h.servers (batchSink h) WriBuf.Zeroed).Run
      (fun s l => s.Feeds h.FitsBuf l) tr s) :
    (∀ i, (s.bufs i).Exact) ∧ ∀ x ∈ tr, Counted x.req.namearr x.req.n ∧
      (decodeNames x.req.n.toNat x.req.namearr).length = x.req.n.toNat := by
  have hcommit : ∀ {e b st b' reqs}, b.Exact →
      (batchSink h).write [] true e b = some (st, b', reqs) →
        b'.Exact ∧ ∀ r ∈ reqs, Counted r.1.namearr r.1.n := by
    intro e b st b' reqs hb hw
    have hw : mkfls1 h [] true e b = some (st, b', reqs) := hw
    exact hb.mkfls1 (.inl rfl) hw
  obtain ⟨hbufs, hreqs⟩ := Context.run_bufs (P := WriBuf.Exact) (F := h.FitsBuf)
    (Q := fun r => Counted r.namearr r.n) (fun b hb => hb.exact)
    (fun hb hfits hw => hb.mkfls1 hfits hw) hcommit hr
  exact ⟨hbufs, fun x hx => ⟨hreqs x hx, (hreqs x hx).decoded⟩⟩

/-- `counts_exact` for an insert and a commit. -/
theorem counts_exact_insertThenCommit :
    ∃ tr s, (contextSystem oneServer.servers (batchSink oneServer) WriBuf.Zeroed).Run
      (fun s l => s.Feeds oneServer.FitsBuf l) tr s ∧ s.ops = bothOk ∧
      tr.map (fun x => x.req.n) = [1] ∧ ∀ x ∈ tr, Counted x.req.namearr x.req.n := by
  have hsum : ((contextSystem oneServer.servers (batchSink oneServer) WriBuf.Zeroed).exec
      (fun s l => decide (s.Feeds oneServer.FitsBuf l)) (emptyContext ⟨[], 0⟩)
      (insertThenCommit .ok)).map (fun p => (p.1.ops, p.2.map fun x => x.req.n)) =
        some (bothOk, [1]) := by decide +kernel
  obtain ⟨⟨s, tr⟩, hp, hsum⟩ := Option.map_eq_some_iff.mp hsum
  obtain ⟨hops, hn⟩ := Prod.mk.inj hsum
  have hinit : (contextSystem oneServer.servers (batchSink oneServer) WriBuf.Zeroed).init
      (emptyContext ⟨[], 0⟩) := ⟨rfl, rfl, rfl, fun _ => ⟨rfl, rfl⟩⟩
  have hrun := Run.exec (C := fun s l => s.Feeds oneServer.FitsBuf l)
    (fun _ _ hd => of_decide_eq_true hd) (.init hinit) hp
  exact ⟨_, _, hrun, hops, hn, fun x hx => ((counts_exact oneServer hrun).2 x hx).1⟩

/-- The count a new buffer has is whatever the allocator left there: one name is
inserted, and six numbers are reserved for it. -/
theorem counts_uninitialised :
    ¬ ∀ (h : Handle) (tr : List (Sent MkflsRequest)) (s : Context WriBuf),
      (contextSystem h.servers (batchSink h) WriBuf.Fresh).Run (fun _ _ => True) tr s →
        (∀ i, (s.bufs i).Exact) ∧ ∀ x ∈ tr, Counted x.req.namearr x.req.n := by
  intro hall
  have hsum : ((contextSystem oneServer.servers (batchSink oneServer) WriBuf.Fresh).exec
      (fun _ _ => true) (emptyContext ⟨[], 5⟩) (insertThenCommit .ok)).map (fun p =>
        p.2.map fun x => (x.req.n, (decodeNames x.req.n.toNat x.req.namearr).length)) =
        some [(6, 1)] := by decide +kernel
  obtain ⟨⟨s, tr⟩, hp, hsum⟩ := Option.map_eq_some_iff.mp hsum
  have hinit : (contextSystem oneServer.servers (batchSink oneServer) WriBuf.Fresh).init
      (emptyContext ⟨[], 5⟩) := ⟨rfl, rfl, rfl, fun _ => rfl⟩
  have hrun := Run.exec (C := fun _ _ => True) (fun _ _ _ => trivial) (.init hinit) hp
  have hreq := (hall oneServer _ _ hrun).2
  rw [List.nil_append] at hreq
  obtain ⟨x, hx, hx'⟩ := List.mem_map.mp
    (show ((6, 1) : UInt32 × Nat) ∈ tr.map fun x =>
      (x.req.n, (decodeNames x.req.n.toNat x.req.namearr).length) by
        rw [show tr.map _ = _ from hsum]; exact List.mem_cons_self)
  obtain ⟨hn, hlen⟩ := Prod.mk.inj hx'
  have hcount := (hreq x hx).decoded
  rw [hlen, hn] at hcount
  exact absurd hcount (by decide)

/-! ## A db that could not be opened

The pointer to the db is kept when `Open` fails, and the error is recorded in the context only
after the section is over. In between, and for calls that have passed the check of the context
before, the db looks as if it were open. `Sound` is the condition on the calls that keeps them
out of the way, and `Clear` the invariant: no call that is on its way to a buffer finds it half
open. -/

/-- The db is there, but `Open` failed. -/
def BulkIn.halfOpen (buk : BulkIn) : Bool :=
  match buk.db with
  | none => false
  | some db => !db.opened

/-- The next section on the buffer opens its db, and fails. -/
def BulkIn.FailsToOpen (buk : BulkIn) (e : BukEnv) : Prop := buk.db = none ∧ e.opening ≠ .ok

instance (buk : BulkIn) (e : BukEnv) : Decidable (buk.FailsToOpen e) :=
  decidable_of_iff (buk.db.isNone = true ∧ e.opening ≠ .ok) (by rw [Option.isNone_iff_eq_none]; rfl)

/-- Opening leaves a db that is open, unless it fails. -/
theorem BulkIn.open_spec (buk : BulkIn) (e : BukEnv) :
    (∃ db, (buk.open e).2.db = some db) ∧
      ((buk.open e).2.halfOpen = true → buk.halfOpen = true ∨ buk.FailsToOpen e) ∧
      ((buk.open e).1 = .ok → (buk.open e).2.halfOpen = buk.halfOpen) ∧
      ((buk.open e).1 ≠ .ok → buk.halfOpen = false) := by
  rcases hdb : buk.db with _ | db
  · refine ⟨⟨⟨e.opening.isOk, []⟩, by simp only [BulkIn.open, hdb]⟩, fun hhalf => ?_,
      fun hok => ?_, fun _ => by rw [halfOpen, hdb]⟩
    · simp only [BulkIn.open, hdb, halfOpen] at hhalf
      refine .inr ⟨hdb, fun hok => ?_⟩
      rw [hok] at hhalf
      cases hhalf
    · simp only [BulkIn.open, hdb] at hok
      simp only [BulkIn.open, hdb, halfOpen, hok]
      rfl
  · have hsame : buk.open e = (.ok, buk) := by simp only [BulkIn.open, hdb]
    rw [hsame]
    exact ⟨⟨db, hdb⟩, .inl, fun _ => rfl, fun hno => absurd rfl hno⟩

/-- `Put` goes through the pointer of a db that is open. -/
theorem BulkIn.put_halfOpen {buk : BulkIn} {db : BukDb} (hdb : buk.db = some db) (name : Slice)
    (e : BukEnv) :
    (buk.put name e = none ↔ name ≠ [] ∧ buk.halfOpen = true) ∧
      ∀ {st buk'}, buk.put name e = some (st, buk') →
        buk'.halfOpen = buk.halfOpen ∧ (∃ db', buk'.db = some db') ∧ (name = [] → st = .ok) := by
  rw [BulkIn.put]
  simp only [halfOpen, hdb]
  split
  · rename_i hname
    refine ⟨iff_of_false (by simp) fun hx => hx.1 hname, ?_⟩
    rintro st buk' heq
    cases heq
    exact ⟨by rw [hdb], ⟨db, hdb⟩, fun _ => rfl⟩
  rename_i hname
  split
  · rename_i hhalf
    exact ⟨iff_of_true rfl ⟨hname, hhalf⟩, fun heq => by cases heq⟩
  rename_i hopen
  split
  · refine ⟨iff_of_false (by simp) fun hx => hopen hx.2, ?_⟩
    rintro st buk' heq
    cases heq
    exact ⟨rfl, ⟨_, rfl⟩, fun hno => absurd hno hname⟩
  · refine ⟨iff_of_false (by simp) fun hx => hopen hx.2, ?_⟩
    rintro st buk' heq
    cases heq
    exact ⟨by rw [hdb], ⟨db, hdb⟩, fun hno => absurd hno hname⟩

/-- So does `Flush`. -/
theorem BulkIn.flush_halfOpen {buk : BulkIn} {db : BukDb} (hdb : buk.db = some db) (e : BukEnv) :
    (buk.flush h e = none ↔ buk.halfOpen = true) ∧
      ∀ {st buk' reqs}, buk.flush h e = some (st, buk', reqs) → buk'.halfOpen = false := by
  rw [BulkIn.flush]
  simp only [halfOpen, hdb]
  split
  · rename_i hhalf
    exact ⟨iff_of_true rfl hhalf, fun heq => by cases heq⟩
  rename_i hopen
  split
  · refine ⟨iff_of_false (by simp) hopen, ?_⟩
    rintro st buk' reqs heq
    cases heq
    rfl
  · refine ⟨iff_of_false (by simp) hopen, ?_⟩
    rintro st buk' reqs heq
    cases heq
    rw [hdb]
    exact Bool.eq_false_of_not_eq_true hopen

/-- **When `Bukin1` dereferences a null pointer**: it finds a db that could not be
opened, and has a name to put or a db to flush. -/
theorem bukin1_crash {name : Slice} {force : Bool} {e : BukEnv} {buk : BulkIn} :
    bukin1 h name force e buk = none ↔ buk.halfOpen = true ∧ (name ≠ [] ∨ force = true) := by
  obtain ⟨⟨db, hdb⟩, -, hsame, hfailed⟩ := buk.open_spec e
  rw [bukin1]
  rcases hopen : buk.open e with ⟨st, buk₁⟩
  rw [hopen] at hdb hsame hfailed
  simp only [] at hdb hsame hfailed ⊢
  split
  · rename_i hok
    have hsame := hsame (Status.isOk_iff.mp hok)
    obtain ⟨hput, hafter⟩ := BulkIn.put_halfOpen hdb name e
    rcases hp : buk₁.put name e with _ | ⟨st', buk₂⟩
    · obtain ⟨hname, hhalf₁⟩ := hput.mp hp
      exact iff_of_true rfl ⟨hsame ▸ hhalf₁, .inl hname⟩
    · obtain ⟨hsame₂, ⟨db', hdb'⟩, hempty⟩ := hafter hp
      have hnot : ¬ (name ≠ [] ∧ buk₁.halfOpen = true) := fun hx => by
        rw [hput.mpr hx] at hp
        cases hp
      simp only []
      split
      · rename_i hforce
        rw [(BulkIn.flush_halfOpen hdb' e).1, hsame₂, hsame]
        exact ⟨fun hx => ⟨hx, .inr (Bool.and_eq_true_iff.mp hforce).2⟩, fun hx => hx.1⟩
      · rename_i hforce
        refine iff_of_false (by simp) ?_
        rintro ⟨hx, hname | hf⟩
        · exact hnot ⟨hname, hsame.trans hx⟩
        · by_cases hname : name = []
          · rw [hempty hname, hf] at hforce
            exact hforce rfl
          · exact hnot ⟨hname, hsame.trans hx⟩
  · rename_i hnok
    refine iff_of_false (by simp) fun hx => ?_
    rw [hfailed fun hok => hnok (Status.isOk_iff.mpr hok)] at hx
    cases hx.1

/-- A section leaves a db half-open only if it was, or fails to open it now. -/
theorem bukin1_halfOpen {name : Slice} {force : Bool} {e : BukEnv} {buk buk' : BulkIn} {st : Status}
    {reqs : List (BukinRequest × Status)} (hw : bukin1 h name force e buk = some (st, buk', reqs))
    (hhalf : buk'.halfOpen = true) : buk.halfOpen = true ∨ buk.FailsToOpen e := by
  obtain ⟨⟨db, hdb⟩, hopened, -, -⟩ := buk.open_spec e
  rw [bukin1] at hw
  rcases hopen : buk.open e with ⟨st₁, buk₁⟩
  rw [hopen] at hw hdb hopened
  simp only [] at hw hdb hopened
  split at hw
  · rcases hp : buk₁.put name e with _ | ⟨st₂, buk₂⟩
    · rw [hp] at hw
      cases hw
    obtain ⟨hsame, ⟨db', hdb'⟩, -⟩ := (BulkIn.put_halfOpen hdb name e).2 hp
    rw [hp] at hw
    simp only [] at hw
    split at hw
    · rw [(BulkIn.flush_halfOpen hdb' e).2 hw] at hhalf
      cases hhalf
    · cases hw
      exact hopened (hsame ▸ hhalf)
  · cases hw
    exact hopened hhalf

/-- The call will get to the buffer of server `i`, with something to do there. -/
def ContextOp.headsFor (i : Nat) : ContextOp → Bool
  | .insert name (.selected j) => name ≠ [] ∧ j = i
  | .commit (.flushing j) => j ≤ i
  | _ => false

namespace Context

/-- No call other than `k` is on its way to the buffer of server `i`. -/
def Alone {β : Type} (s : Context β) (k i : Nat) : Prop :=
  ∀ op ∈ s.ops.eraseIdx k, op.headsFor i = false

/-- A call passes the check of the context only when no buffer it heads for is
half-open, and when a db cannot be opened no other call is on its way to it. -/
def Sound (h : Handle) (s : Context BulkIn) : ContextLabel BukEnv → Prop
  | .advance k e =>
    match s.ops[k]? with
    | some (.insert name .entered) => s.commitStatus = .notCommitted → s.bgStatus = .ok →
        name ≠ [] → (s.bufs (h.servers.select name)).halfOpen = false
    | some (.commit .entered) => s.commitStatus = .notCommitted → s.bgStatus = .ok →
        ∀ i < h.srvs, (s.bufs i).halfOpen = false
    | some (.insert _ (.selected i)) => (s.bufs i).FailsToOpen e → s.Alone k i
    | some (.commit (.flushing i)) => (s.bufs i).FailsToOpen e → s.Alone k i
    | _ => True
  | _ => True

/-- Whatever section comes next, it uses no db that is not open: `Put` and `Flush`
are called on dbs that `Open` has opened and that have not been deleted. -/
def NoCrash (h : Handle) (s : Context BulkIn) : Prop :=
  (∀ (k : Nat) (name : Slice) (i : Nat) (e : BukEnv),
    s.ops[k]? = some (.insert name (.selected i)) → bukin1 h name false e (s.bufs i) ≠ none) ∧
  ∀ (k i : Nat) (e : BukEnv), s.ops[k]? = some (.commit (.flushing i)) → i < h.srvs →
    bukin1 h [] true e (s.bufs i) ≠ none

/-- Calls head for buffers of servers that are not half-open. -/
def Clear (h : Handle) (s : Context BulkIn) : Prop :=
  (∀ (k : Nat) (name : Slice) (i : Nat), s.ops[k]? = some (.insert name (.selected i)) →
    i < h.srvs) ∧
  ∀ (k : Nat) (op : ContextOp) (i : Nat), s.ops[k]? = some op → i < h.srvs →
    op.headsFor i = true → (s.bufs i).halfOpen = false

theorem Clear.noCrash {s : Context BulkIn} (hc : s.Clear h) : s.NoCrash h := by
  constructor
  · intro k name i e hk hcrash
    obtain ⟨hhalf, hname⟩ := bukin1_crash.mp hcrash
    have hheads : (ContextOp.insert name (.selected i)).headsFor i = true :=
      decide_eq_true ⟨hname.resolve_right Bool.false_ne_true, rfl⟩
    rw [hc.2 k _ i hk (hc.1 k name i hk) hheads] at hhalf
    cases hhalf
  · intro k i e hk hi hcrash
    obtain ⟨hhalf, -⟩ := bukin1_crash.mp hcrash
    have hheads : (ContextOp.commit (.flushing i)).headsFor i = true :=
      decide_eq_true (Nat.le_refl i)
    rw [hc.2 k _ i hk hi hheads] at hhalf
    cases hhalf

/-- A call moves without touching a buffer. -/
theorem Clear.moves {s s' : Context BulkIn} (hc : s.Clear h) {k : Nat} {op : ContextOp}
    (hops : s'.ops = s.ops.set k op) (hbufs : s'.bufs = s.bufs)
    (hsel : ∀ name i, op = .insert name (.selected i) → i < h.srvs)
    (hnew : ∀ i < h.srvs, op.headsFor i = true → (s.bufs i).halfOpen = false) : s'.Clear h := by
  constructor
  · intro j name i hj
    rw [hops] at hj
    rcases pool_set hj with ⟨-, heq⟩ | ⟨-, hj⟩
    · exact hsel name i heq.symm
    · exact hc.1 j name i hj
  · intro j o i hj hi hheads
    rw [hops] at hj
    rw [hbufs]
    rcases pool_set hj with ⟨-, rfl⟩ | ⟨-, hj⟩
    · exact hnew i hi hheads
    · exact hc.2 j o i hj hi hheads

/-- A call takes its section on the buffer of server `i`. -/
theorem Clear.writes {s : Context BulkIn} (hc : s.Clear h) {k i : Nat} {op op' : ContextOp}
    {name : Slice} {force : Bool} {e : BukEnv} {st : Status} {b : BulkIn}
    {reqs : List (BukinRequest × Status)} (hk : s.ops[k]? = some op)
    (hw : bukin1 h name force e (s.bufs i) = some (st, b, reqs))
    (halone : (s.bufs i).FailsToOpen e → s.Alone k i)
    (hsel : ∀ name i, op' ≠ .insert name (.selected i))
    (hnew : ∀ j, op'.headsFor j = true → j ≠ i ∧ op.headsFor j = true) :
    ({ s with bufs := Function.update s.bufs i b }.put k op').Clear h := by
  constructor
  · intro j x l hj
    rcases pool_set hj with ⟨-, heq⟩ | ⟨-, hj⟩
    · exact absurd heq.symm (hsel x l)
    · exact hc.1 j x l hj
  · intro j o l hj hl hheads
    change (Function.update s.bufs i b l).halfOpen = false
    rcases pool_set hj with ⟨-, rfl⟩ | ⟨hjk, hj⟩
    · obtain ⟨hne, hold⟩ := hnew l hheads
      rw [Function.update_of_ne hne]
      exact hc.2 k op l hk hl hold
    · by_cases hli : l = i
      · subst hli
        rw [Function.update_self]
        refine Bool.eq_false_of_not_eq_true fun hhalf => ?_
        rcases bukin1_halfOpen hw hhalf with hwas | hfails
        · rw [hc.2 j o l hj hl hheads] at hwas
          cases hwas
        · -- the call that moves would be on its way alone
          have hmem : o ∈ s.ops.eraseIdx k := List.mem_eraseIdx_iff_getElem?.mpr ⟨j, hjk, hj⟩
          rw [halone hfails o hmem] at hheads
          cases hheads
      · rw [Function.update_of_ne hli]
        exact hc.2 j o l hj hl hheads

/-- A call arrives. -/
theorem Clear.arrives {s : Context BulkIn} (hc : s.Clear h) {op : ContextOp}
    (hsel : ∀ name i, op ≠ .insert name (.selected i)) (hnew : ∀ i, op.headsFor i = false) :
    ({ s with ops := s.ops ++ [op] } : Context BulkIn).Clear h := by
  constructor
  · intro j name i hj
    rcases pool_push hj with ⟨-, heq⟩ | hj
    · exact absurd heq.symm (hsel name i)
    · exact hc.1 j name i hj
  · intro j o i hj hi hheads
    rcases pool_push hj with ⟨-, rfl⟩ | hj
    · rw [hnew i] at hheads
      cases hheads
    · exact hc.2 j o i hj hi hheads

/-- **A sound step keeps the way clear.** The condition is needed for the calls that have
passed the check already: the status they have seen says nothing of the db. -/
theorem Clear.step {s s' : Context BulkIn} (hc : s.Clear h) {l : ContextLabel BukEnv}
    {es : List (Sent BukinRequest)} (hC : s.Sound h l)
    (hs : s.step h.servers (bulkSink h) l = some (s', es)) : s'.Clear h := by
  cases step_move hs with
  | insertArrives => exact hc.arrives (fun _ _ heq => by cases heq) fun _ => rfl
  | commitArrives => exact hc.arrives (fun _ _ heq => by cases heq) fun _ => rfl
  | insertRefused hk _ =>
    exact hc.moves rfl rfl (fun _ _ heq => by cases heq) fun _ _ hheads => by cases hheads
  | @insertSelects k e name hk hnot =>
    rw [Sound, hk] at hC
    rcases insert_entered hk hs with ⟨st, -, heq, -⟩ | ⟨-, hbg, -⟩
    · have hops := congrArg (fun c => c.ops[k]?) heq
      simp only [put, pool_set_self hk] at hops
      cases hops
    refine hc.moves rfl rfl (fun x i heq => ?_) fun i hi hheads => ?_
    · cases heq
      exact h.servers.select_lt name
    · obtain ⟨hname, rfl⟩ := of_decide_eq_true hheads
      exact hC hnot hbg hname
  | @insertWrites k i e name st b reqs hk hw =>
    rw [Sound, hk] at hC
    exact hc.writes hk hw hC (fun _ _ heq => by cases heq) fun _ hheads => by cases hheads
  | @insertReturns k e name st hk =>
    have hops : ((s.setBg st).put k (.insert name (.returned st))).ops =
        s.ops.set k (.insert name (.returned st)) := by simp [put]
    have hbufs : ((s.setBg st).put k (.insert name (.returned st))).bufs = s.bufs := by simp [put]
    exact hc.moves hops hbufs (fun _ _ heq => by cases heq) fun _ _ hheads => by cases hheads
  | commitRefused hk _ =>
    exact hc.moves rfl rfl (fun _ _ heq => by cases heq) fun _ _ hheads => by cases hheads
  | @commitClaims k e hk hnot =>
    rw [Sound, hk] at hC
    rcases commit_entered hk hs with ⟨st, heq, -, -⟩ | ⟨-, hbg, -⟩
    · have hops := congrArg (fun c => c.ops[k]?) heq
      simp only [put, pool_set_self hk] at hops
      cases hops
    refine hc.moves rfl rfl (fun _ _ heq => by cases heq) fun i hi _ => hC hnot hbg i hi
  | @commitFlushes k i e st b reqs hk hi hw =>
    rw [Sound, hk] at hC
    have hw : bukin1 h [] true e (s.bufs i) = some (st, b, reqs) := hw
    refine hc.writes hk hw hC (fun _ _ heq => ?_) fun j hheads => ?_
    · split at heq <;> cases heq
    · split at hheads
      · have hle : i + 1 ≤ j := of_decide_eq_true hheads
        exact ⟨by omega, decide_eq_true (by omega)⟩
      · cases hheads
  | commitEnds hk _ =>
    exact hc.moves rfl rfl (fun _ _ heq => by cases heq) fun _ _ hheads => by cases hheads
  | @commitReturns k e st hk =>
    have hops : (({ s with commitStatus := .committed }.setBg st).put k (.commit (.returned st))).ops =
        s.ops.set k (.commit (.returned st)) := by simp [put]
    have hbufs : (({ s with commitStatus := .committed }.setBg st).put k
        (.commit (.returned st))).bufs = s.bufs := by simp [put]
    exact hc.moves hops hbufs (fun _ _ heq => by cases heq) fun _ _ hheads => by cases hheads

/-- **No db is used that is not open**, in every run in which calls keep out of
the way of a db that could not be opened: the error is recorded before another
call passes the check, and no call has passed it already.

`Bukin1` keeps a `BukDb` that has failed to open in its slot. Whoever comes next takes it for
one that is open; the status of the context is what keeps later calls out, and it is set in
a section of its own, after the one that has failed. -/
theorem bulk_no_crash (h : Handle) {tr : List (Sent BukinRequest)} {s : Context BulkIn}
    (hr : (contextSystem h.servers (bulkSink h) BulkIn.Fresh).Run (Sound h) tr s) :
    s.NoCrash h := by
  refine Clear.noCrash (hr.invariant_state (I := Clear h) ?_ ?_)
  · rintro s ⟨-, -, hops, -⟩
    rw [Clear, hops]
    constructor
    · intro k name i hk
      cases hk
    · intro k op i hk
      cases hk
  · intro s l s' es hc hC hs
    exact hc.step hC hs

instance (h : Handle) (s : Context BulkIn) (l : ContextLabel BukEnv) : Decidable (s.Sound h l) := by
  cases l with
  | advance k e =>
    rw [Sound]
    split
    · infer_instance
    · infer_instance
    · rw [Alone]
      infer_instance
    · rw [Alone]
      infer_instance
    · infer_instance
  | _ => exact inferInstanceAs (Decidable True)

/-- An environment in which no db can be opened. -/
def noDb : BukEnv := ⟨.err .ioError [], .ok, .ok, .ok⟩

/-- An insert whose db cannot be opened, and a second one after it. -/
def insertTwice : List (ContextLabel BukEnv) :=
  [.insert (str "a"), .advance 0 noDb, .advance 0 noDb, .advance 0 noDb,
    .insert (str "b"), .advance 1 noDb]

/-- One after the other, the second insert is refused. -/
theorem bulk_no_crash_insertTwice :
    ∃ tr s, (contextSystem oneServer.servers (bulkSink oneServer) BulkIn.Fresh).Run
      (Sound oneServer) tr s ∧ s.NoCrash oneServer ∧
      s.ops = [.insert (str "a") (.returned (.err .ioError [])),
        .insert (str "b") (.returned (.err .ioError []))] := by
  have hops : ((contextSystem oneServer.servers (bulkSink oneServer) BulkIn.Fresh).exec
      (fun s l => decide (s.Sound oneServer l)) (emptyContext ⟨[], none, []⟩) insertTwice).map
        (fun p => p.1.ops) = some [.insert (str "a") (.returned (.err .ioError [])),
          .insert (str "b") (.returned (.err .ioError []))] := by decide +kernel
  obtain ⟨⟨s, tr⟩, hp, hops⟩ := Option.map_eq_some_iff.mp hops
  have hinit : (contextSystem oneServer.servers (bulkSink oneServer) BulkIn.Fresh).init
      (emptyContext ⟨[], none, []⟩) := ⟨rfl, rfl, rfl, fun _ => rfl⟩
  have hrun := Run.exec (C := Sound oneServer) (fun _ _ hd => of_decide_eq_true hd) (.init hinit) hp
  exact ⟨_, _, hrun, bulk_no_crash oneServer hrun, hops⟩

/-- Two inserts pass the check of the context before either gets to the buffer. -/
def insertBoth : List (ContextLabel BukEnv) :=
  [.insert (str "a"), .insert (str "b"), .advance 0 noDb, .advance 1 noDb, .advance 0 noDb]

/-- The db cannot be opened for the first of them, and the second one puts its
name into it. -/
theorem bulk_crashes :
    ¬ ∀ (h : Handle) (tr : List (Sent BukinRequest)) (s : Context BulkIn),
      (contextSystem h.servers (bulkSink h) BulkIn.Fresh).Run (fun _ _ => True) tr s →
        s.NoCrash h := by
  intro hall
  have hsum : ((contextSystem oneServer.servers (bulkSink oneServer) BulkIn.Fresh).exec
      (fun _ _ => true) (emptyContext ⟨[], none, []⟩) insertBoth).map (fun p =>
        (p.1.ops[1]?, (bukin1 oneServer (str "b") false noDb (p.1.bufs 0)).isNone)) =
        some (some (.insert (str "b") (.selected 0)), true) := by decide +kernel
  obtain ⟨⟨s, tr⟩, hp, hsum⟩ := Option.map_eq_some_iff.mp hsum
  obtain ⟨hk, hnone⟩ := Prod.mk.inj hsum
  have hinit : (contextSystem oneServer.servers (bulkSink oneServer) BulkIn.Fresh).init
      (emptyContext ⟨[], none, []⟩) := ⟨rfl, rfl, rfl, fun _ => rfl⟩
  have hrun := Run.exec (C := fun _ _ => True) (fun _ _ _ => trivial) (.init hinit) hp
  exact (hall oneServer _ _ hrun).1 1 (str "b") 0 noDb hk (Option.isNone_iff_eq_none.mp hnone)

end Context

end DeltaFs
