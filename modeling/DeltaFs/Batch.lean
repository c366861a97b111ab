import DeltaFs.Commit
import DeltaFs.DirIndex

/-!
# Batched creates and bulk insertion

The two instances of the commit protocol. `Mkfls1` appends names to a write
buffer and sends them with `Mkfls2` when the buffer is full or flushed;
`Bukin1` puts names into a table directory of the client, opened on first use,
and hands the directory over with `Bukin2` when it is flushed.

What they differ in is a `Sink`: `mkfls1_spec` and `bukin1_spec` say what a section does to
its buffer, and from these the laws of `Commit` follow. `commit_delivers` is then
`run_delivered` twice, once for each of the two.
-/

namespace DeltaFs

/-- What the calls on a context read of the client, of the context and of its
lease. -/
structure Handle where
  xx : XXHash
  /-- `srvs_` -/
  srvs : Nat
  srvs_pos : 0 < srvs
  /-- `options_.batch_size` -/
  batchSize : UInt64
  /-- `options_.skip_perm_checks` -/
  skipPermChecks : Bool
  /-- `*lease->rep` -/
  parent : LookupStat
  /-- `ctx->who` -/
  who : User
  /-- `mode`, of a batch -/
  mode : UInt32

variable (h : Handle)

/-- The servers of the directory, by its index. -/
def Handle.servers : Servers where
  srvs := h.srvs
  select name := (fetchIndex h.xx h.parent.dirId h.srvs h.srvs).selectServer h.xx name
  select_lt name := DirIndex.selectServer_lt _ h.xx name h.srvs_pos

/-- What `Mkfls2` and `Bukin2` return, given the server's reply. -/
def Handle.send (reply : Status) : Status :=
  if !isDirWriteOk h.skipPermChecks h.parent h.who then .err .accessDenied (str "No write perm")
  else reply

/-! ## Write buffers

A buffer is a count, which is not initialised, and an array of names with the prefix of their
lengths. `Mkfls1` decides first whether to send what is there (it counts at least `batch_size`
names, or the call is a flush) and appends the new name after it. Names whose length does
not fit the prefix, or counts that wrap, are what `FitsBuf` excludes. -/

/-- `WriBuf`. -/
structure WriBuf where
  namearr : Slice
  n : UInt32

/-- A `Mkfls2` request. -/
structure MkflsRequest where
  parent : LookupStat
  namearr : Slice
  n : UInt32
  mode : UInt32
  me : User

/-- The end of `Mkfls1`. -/
def WriBuf.append (buf : WriBuf) (name : Slice) : WriBuf :=
  if name = [] then buf
  else { namearr := putLengthPrefixedSlice buf.namearr name, n := buf.n + 1 }

/-- The condition of `Mkfls1` for sending what is buffered. -/
def Handle.mustFlush (force : Bool) (buf : WriBuf) : Bool :=
  force || h.batchSize.toNat ≤ buf.n.toNat

/-- `Mkfls1`, given the server's reply. -/
def mkfls1 (name : Slice) (force : Bool) (reply : Status) (buf : WriBuf) :
    Option (Status × WriBuf × List (MkflsRequest × Status)) :=
  if h.mustFlush force buf then
    let req : MkflsRequest := ⟨h.parent, buf.namearr, buf.n, h.mode, h.who⟩
    let s := h.send reply
    if s.isOk then some (s, WriBuf.append ⟨[], 0⟩ name, [(req, s)])
    else some (s, buf, [(req, s)])
  else some (.ok, buf.append name, [])

/-- `BatchInsert` and `BatchCommit` write into `WriBuf`s. -/
def batchSink : Sink WriBuf Status MkflsRequest where
  beingCommittedMsg := str "Batch is being committed"
  write := mkfls1 h

/-- A new write buffer; its count is not initialised. -/
def WriBuf.Fresh (buf : WriBuf) : Prop := buf.namearr = []

/-- The names of a write buffer. -/
def WriBuf.names (buf : WriBuf) : List Slice := decodeNames buf.n.toNat buf.namearr

/-- The name array is the encoding of the names the count admits. -/
def WriBuf.Valid (buf : WriBuf) : Prop :=
  buf.namearr = encodeNames buf.names ∧ ∀ x ∈ buf.names, x.length < 2 ^ 32

/-- A name fits a buffer when its length fits a varint and, unless the buffer
is about to be sent, the count does not wrap. -/
def Handle.FitsBuf (name : Slice) (buf : WriBuf) : Prop :=
  name = [] ∨ name.length < 2 ^ 32 ∧ (h.mustFlush false buf = true ∨ buf.n.toNat + 1 < 2 ^ 32)

theorem WriBuf.Fresh.names {buf : WriBuf} (h : buf.Fresh) : buf.names = [] := by
  rw [WriBuf.names, h, decodeNames_nil]

theorem WriBuf.Fresh.valid {buf : WriBuf} (h : buf.Fresh) : buf.Valid := by
  rw [WriBuf.Valid, h.names]
  exact ⟨h, by simp⟩

/-- A name to append, unless it is empty. -/
def nonEmpty (name : Slice) : List Slice := if name = [] then [] else [name]

/-- A name appended is one more name of the buffer. -/
theorem WriBuf.append_spec {buf : WriBuf} (hv : buf.Valid) {name : Slice}
    (hfits : name = [] ∨ name.length < 2 ^ 32 ∧ buf.n.toNat + 1 < 2 ^ 32) :
    (buf.append name).Valid ∧ (buf.append name).names = buf.names ++ nonEmpty name := by
  by_cases hne : name = []
  · rw [WriBuf.append, if_pos hne, nonEmpty, if_pos hne, List.append_nil]
    exact ⟨hv, rfl⟩
  obtain ⟨hlen, hn⟩ := hfits.resolve_left hne
  have hcount : (buf.n + 1).toNat = buf.n.toNat + 1 := by
    rw [UInt32.toNat_add]
    exact Nat.mod_eq_of_lt hn
  have henc : putLengthPrefixedSlice buf.namearr name = encodeNames (buf.names ++ [name]) := by
    rw [putLengthPrefixedSlice_eq, hv.1, encodeNames, encodeNames, List.flatMap_append,
      List.flatMap_singleton]
  have hlens : ∀ x ∈ buf.names ++ [name], x.length < 2 ^ 32 := by
    intro x hx
    rcases List.mem_append.mp hx with hx | hx
    · exact hv.2 x hx
    · rw [List.mem_singleton.mp hx]
      exact hlen
  have hnames : decodeNames (buf.n + 1).toNat (encodeNames (buf.names ++ [name])) =
      buf.names ++ [name] := by
    apply decodeNames_encodeNames hlens
    rw [hcount, List.length_append, List.length_singleton]
    exact Nat.succ_le_succ (length_decodeNames_le ..)
  rw [WriBuf.append, if_neg hne, nonEmpty, if_neg hne, WriBuf.Valid, WriBuf.names, henc, hnames]
  exact ⟨⟨rfl, hlens⟩, rfl⟩

/-- **What `Mkfls1` does**: it sends all names buffered and starts over with
the new one, or fails and changes nothing, or appends the new one. -/
theorem mkfls1_spec {name : Slice} {force : Bool} {reply s : Status} {buf buf' : WriBuf}
    {reqs : List (MkflsRequest × Status)} (hv : buf.Valid) (hfits : h.FitsBuf name buf)
    (hw : mkfls1 h name force reply buf = some (s, buf', reqs)) :
    buf'.Valid ∧
      ((∃ req : MkflsRequest, reqs = [(req, .ok)] ∧ s = .ok ∧
          decodeNames req.n.toNat req.namearr = buf.names ∧ buf'.names = nonEmpty name) ∨
        (s ≠ .ok ∧ buf' = buf) ∨
        (force = false ∧ s = .ok ∧ buf'.names = buf.names ++ nonEmpty name)) := by
  rw [mkfls1] at hw
  split at hw
  · simp only [] at hw
    split at hw
    · rename_i hok
      rw [Status.isOk_iff] at hok
      cases hw
      have hempty : (⟨[], 0⟩ : WriBuf).Fresh := rfl
      have hone : name = [] ∨ name.length < 2 ^ 32 ∧ (⟨[], 0⟩ : WriBuf).n.toNat + 1 < 2 ^ 32 :=
        hfits.imp_right fun hf => ⟨hf.1, by decide⟩
      obtain ⟨hv', hn'⟩ := WriBuf.append_spec hempty.valid hone
      rw [hempty.names] at hn'
      exact ⟨hv', .inl ⟨_, by rw [hok], hok, rfl, hn'⟩⟩
    · rename_i hnok
      cases hw
      exact ⟨hv, .inr (.inl ⟨fun hok => hnok (Status.isOk_iff.mpr hok), rfl⟩)⟩
  · rename_i hnf
    cases hw
    have hforce : force = false := by
      rcases force with _ | _
      · rfl
      · exact absurd rfl hnf
    have hcount : name = [] ∨ name.length < 2 ^ 32 ∧ buf.n.toNat + 1 < 2 ^ 32 := by
      refine hfits.imp_right fun hf => ⟨hf.1, hf.2.resolve_left ?_⟩
      rw [hforce] at hnf
      exact hnf
    obtain ⟨hv', hn'⟩ := WriBuf.append_spec hv hcount
    exact ⟨hv', .inr (.inr ⟨hforce, rfl, hn'⟩)⟩

/-- A write buffer guarantees what the commit protocol needs. -/
def batchLaws : (batchSink h).Laws where
  pending := WriBuf.names
  names req := decodeNames req.n.toNat req.namearr
  Valid := WriBuf.Valid
  Fits := h.FitsBuf
  fits_nil _ := .inl rfl
  valid hv hfits hw := (mkfls1_spec h hv hfits hw).1
  keeps hv hfits hw hok x hx := by
    rcases (mkfls1_spec h hv hfits hw).2 with ⟨req, hreq, -, hnames, -⟩ | ⟨-, rfl⟩ | ⟨-, -, hnames⟩
    · exact .inr ⟨_, by rw [hreq]; exact List.mem_singleton_self _, rfl, by rw [hnames]; exact hx⟩
    · exact .inl hx
    · exact .inl (by rw [hnames]; exact List.mem_append_left _ hx)
  adds hv hfits hw hne := by
    rcases (mkfls1_spec h hv hfits hw).2 with ⟨req, -, -, -, hnames⟩ | ⟨hnok, -⟩ | ⟨-, -, hnames⟩
    · rw [hnames, nonEmpty, if_neg hne]
      exact List.mem_singleton_self _
    · exact absurd rfl hnok
    · rw [hnames, nonEmpty, if_neg hne]
      exact List.mem_append_right _ (List.mem_singleton_self _)
  flushes {e b b' reqs} hv hw := by
    have hw : mkfls1 h [] true e b = some (.ok, b', reqs) := hw
    rcases (mkfls1_spec h hv (.inl rfl) hw).2 with ⟨-, -, -, -, hnames⟩ | ⟨hnok, -⟩ | ⟨hf, -, -⟩
    · exact hnames
    · exact absurd rfl hnok
    · cases hf

/-! ## Bulk insertion

Here a buffer is a db of the client that is opened with the first name, and is closed by the
flush that hands it over. Opening destroys what is at the location. It may fail, and the pointer
to the db stays; the next call then goes through a db that has not been opened. In the protocol
this is a buffer that has crashed. -/

/-- `BukDb`: a table directory opened for writing. -/
structure BukDb where
  /-- whether `Open` succeeded -/
  opened : Bool
  /-- the names put and not flushed -/
  mem : List Slice

/-- `BulkIn`. -/
structure BulkIn where
  dbloc : Slice
  db : Option BukDb
  /-- the names in the tables at `dbloc` -/
  tables : List Slice

/-- How the calls on a `BukDb`, and the server, turn out. -/
structure BukEnv where
  opening : Status
  putting : Status
  flushing : Status
  reply : Status

/-- A `Bukin2` request, with what the directory holds. -/
structure BukinRequest where
  parent : LookupStat
  dir : Slice
  tables : List Slice
  me : User

/-- The first part of `Bukin1`: destroy what is at the location and open a new
db there, when there is none. -/
def BulkIn.open (buk : BulkIn) (e : BukEnv) : Status × BulkIn :=
  match buk.db with
  | some _ => (.ok, buk)
  | none => (e.opening, { buk with db := some ⟨e.opening.isOk, []⟩, tables := [] })

/-- `BukDb::Put`, when the name is not empty; `none` on a db that could not be
opened. -/
def BulkIn.put (buk : BulkIn) (name : Slice) (e : BukEnv) : Option (Status × BulkIn) :=
  if name = [] then some (.ok, buk)
  else
    match buk.db with
    | none => none
    | some db =>
      if !db.opened then none
      else if e.putting.isOk then
        some (e.putting, { buk with db := some { db with mem := db.mem ++ [name] } })
      else some (e.putting, buk)

/-- The last part of `Bukin1`: flush, close, and hand the directory over. -/
def BulkIn.flush (buk : BulkIn) (e : BukEnv) : Option (Status × BulkIn × List (BukinRequest × Status)) :=
  match buk.db with
  | none => none
  | some db =>
    if !db.opened then none
    else if e.flushing.isOk then
      let tables := buk.tables ++ db.mem
      let s := h.send e.reply
      some (s, { buk with db := none, tables := tables }, [(⟨h.parent, buk.dbloc, tables, h.who⟩, s)])
    else some (e.flushing, buk, [])

/-- `Bukin1`. -/
def bukin1 (name : Slice) (forceFlush : Bool) (e : BukEnv) (buk : BulkIn) :
    Option (Status × BulkIn × List (BukinRequest × Status)) :=
  let (s, buk) := buk.open e
  if s.isOk then
    match buk.put name e with
    | none => none
    | some (s, buk) =>
      if s.isOk && forceFlush then buk.flush h e else some (s, buk, [])
  else some (s, buk, [])

/-- `BulkInsert` and `BulkCommit` write into `BulkIn`s. -/
def bulkSink : Sink BulkIn BukEnv BukinRequest where
  beingCommittedMsg := str "Bulk context is being committed"
  write := bukin1 h

/-- A new bulk buffer has no db. -/
def BulkIn.Fresh (buk : BulkIn) : Prop := buk.db = none

/-- The names of a bulk buffer: those put into the db that is open. -/
def BulkIn.names (buk : BulkIn) : List Slice :=
  match buk.db with
  | none => []
  | some db => db.mem

/-- Opening keeps the names. -/
theorem BulkIn.names_open (buk : BulkIn) (e : BukEnv) : (buk.open e).2.names = buk.names := by
  rcases hdb : buk.db with _ | db
  · simp [BulkIn.open, BulkIn.names, hdb]
  · simp [BulkIn.open, BulkIn.names, hdb]

/-- A put that succeeds adds the name, another one changes nothing. -/
theorem BulkIn.put_spec {buk buk' : BulkIn} {name : Slice} {e : BukEnv} {s : Status}
    (hp : buk.put name e = some (s, buk')) :
    (s = .ok ∧ buk'.names = buk.names ++ nonEmpty name) ∨ (s ≠ .ok ∧ buk' = buk) := by
  rw [BulkIn.put] at hp
  split at hp
  · rename_i hne
    cases hp
    rw [nonEmpty, if_pos hne, List.append_nil]
    exact .inl ⟨rfl, rfl⟩
  rename_i hne
  rcases hdb : buk.db with _ | db
  · rw [hdb] at hp
    cases hp
  simp only [hdb] at hp
  split at hp
  · cases hp
  split at hp
  · rename_i hok
    cases hp
    rw [nonEmpty, if_neg hne]
    refine .inl ⟨Status.isOk_iff.mp hok, ?_⟩
    simp [BulkIn.names, hdb]
  · rename_i hnok
    cases hp
    exact .inr ⟨fun hok => hnok (Status.isOk_iff.mpr hok), rfl⟩

/-- A flush that succeeds hands all names over, with none left; another one
fails. -/
theorem BulkIn.flush_spec {buk buk' : BulkIn} {e : BukEnv} {s : Status}
    {reqs : List (BukinRequest × Status)} (hf : buk.flush h e = some (s, buk', reqs)) (hok : s = .ok) :
    ∃ req : BukinRequest, reqs = [(req, .ok)] ∧ (∀ x ∈ buk.names, x ∈ req.tables) ∧
      buk'.names = [] := by
  rw [BulkIn.flush] at hf
  rcases hdb : buk.db with _ | db
  · rw [hdb] at hf
    cases hf
  simp only [hdb] at hf
  split at hf
  · cases hf
  split at hf
  · cases hf
    refine ⟨_, by rw [hok], ?_, rfl⟩
    intro x hx
    simp only [BulkIn.names, hdb] at hx
    exact List.mem_append_right _ hx
  · rename_i hnok
    cases hf
    exact absurd (Status.isOk_iff.mpr hok) hnok

/-- **What `Bukin1` does**: it fails, or it adds the name, or it adds the name
and hands all names over. -/
theorem bukin1_spec {name : Slice} {force : Bool} {e : BukEnv} {s : Status} {buk buk' : BulkIn}
    {reqs : List (BukinRequest × Status)} (hw : bukin1 h name force e buk = some (s, buk', reqs)) :
    (s ≠ .ok ∧ (force = false → buk'.names = buk.names)) ∨
      (force = false ∧ s = .ok ∧ buk'.names = buk.names ++ nonEmpty name) ∨
      (force = true ∧ s = .ok ∧ buk'.names = [] ∧ ∃ req : BukinRequest, reqs = [(req, .ok)] ∧
        ∀ x ∈ buk.names ++ nonEmpty name, x ∈ req.tables) := by
  rw [bukin1] at hw
  have hopen := buk.names_open e
  rcases hop : buk.open e with ⟨s₁, buk₁⟩
  rw [hop] at hw hopen
  simp only [] at hw hopen
  split at hw
  · rcases hput : buk₁.put name e with _ | ⟨s₂, buk₂⟩
    · rw [hput] at hw
      cases hw
    rw [hput] at hw
    simp only [] at hw
    rcases BulkIn.put_spec hput with ⟨rfl, hnames⟩ | ⟨hnok, rfl⟩
    · rw [hopen] at hnames
      rcases force with _ | _
      · cases hw
        exact .inr (.inl ⟨rfl, rfl, hnames⟩)
      · by_cases hok : s = .ok
        · obtain ⟨req, hreq, hall, hnil⟩ := BulkIn.flush_spec h hw hok
          rw [hnames] at hall
          exact .inr (.inr ⟨rfl, hok, hnil, req, hreq, hall⟩)
        · exact .inl ⟨hok, fun hf => by cases hf⟩
    · rw [if_neg (by simp [Status.isOk_iff, hnok])] at hw
      cases hw
      exact .inl ⟨hnok, fun _ => hopen⟩
  · rename_i hnok
    cases hw
    exact .inl ⟨fun hok => hnok (Status.isOk_iff.mpr hok), fun _ => hopen⟩

/-- A bulk buffer guarantees what the commit protocol needs. -/
def bulkLaws : (bulkSink h).Laws where
  pending := BulkIn.names
  names req := req.tables
  Valid _ := True
  Fits _ _ := True
  fits_nil _ := trivial
  valid _ _ _ := trivial
  keeps _ _ hw hok x hx := by
    rcases bukin1_spec h hw with ⟨hnok, hnames⟩ | ⟨-, -, hnames⟩ | ⟨-, -, -, req, hreq, hall⟩
    · rw [hnames (hok.resolve_right hnok)]
      exact .inl hx
    · rw [hnames]
      exact .inl (List.mem_append_left _ hx)
    · exact .inr ⟨_, by rw [hreq]; exact List.mem_singleton_self _, rfl,
        hall x (List.mem_append_left _ hx)⟩
  adds _ _ hw hne := by
    rcases bukin1_spec h hw with ⟨hnok, -⟩ | ⟨-, -, hnames⟩ | ⟨hf, -⟩
    · exact absurd rfl hnok
    · rw [hnames, nonEmpty, if_neg hne]
      exact List.mem_append_right _ (List.mem_singleton_self _)
    · cases hf
  flushes {e b b' reqs} _ hw := by
    have hw : bukin1 h [] true e b = some (.ok, b', reqs) := hw
    rcases bukin1_spec h hw with ⟨hnok, -⟩ | ⟨hf, -⟩ | ⟨-, -, hnil, -⟩
    · exact absurd rfl hnok
    · cases hf
    · exact hnil

/-! ## Commits

What a run of either instance shows, and the runs that lose a name: one in which an insert has
passed the check of the context before a commit claims it, and writes after the commit has
flushed the buffer the name belongs to. -/

/-- **Committed names reach their servers**: in every run of `BatchInsert` and
`BatchCommit` on one batch, and of `BulkInsert` and `BulkCommit` on one bulk
context, in which no insert feeds a buffer a commit has passed, no name is
empty and every name fits its buffer, a commit that returned OK has delivered
every acknowledged name. -/
theorem commit_delivers (h : Handle) :
    (∀ tr s, (contextSystem h.servers (batchSink h) WriBuf.Fresh).Run
      (Context.Admissible (batchLaws h)) tr s → s.Delivered h.servers (batchLaws h) tr) ∧
    ∀ tr s, (contextSystem h.servers (bulkSink h) BulkIn.Fresh).Run
      (Context.Admissible (bulkLaws h)) tr s → s.Delivered h.servers (bulkLaws h) tr := by
  constructor
  · intro tr s hr
    exact Context.run_delivered (fun _ hf => WriBuf.Fresh.valid hf) hr
  · intro tr s hr
    exact Context.run_delivered (fun _ _ => trivial) hr

instance (name : Slice) (buf : WriBuf) : Decidable (h.FitsBuf name buf) := instDecidableOr

/-- A client of one server, acting for the superuser. -/
def oneServer : Handle where
  xx := ⟨fun _ _ => 0, fun _ _ => 0⟩
  srvs := 1
  srvs_pos := Nat.one_pos
  batchSize := 16
  skipPermChecks := false
  parent := ⟨0, 0, 0, 0, 0, 0, 0⟩
  who := ⟨0, 0⟩
  mode := 0o660

/-- A context with nothing in its buffers. -/
def emptyContext {β : Type} (b : β) : Context β := ⟨.notCommitted, .ok, fun _ => b, []⟩

/-- An insert of `a` that is over before a commit starts. -/
def insertThenCommit {E : Type} (e : E) : List (ContextLabel E) :=
  [.insert (str "a"), .advance 0 e, .advance 0 e, .advance 0 e,
    .commit, .advance 1 e, .advance 1 e, .advance 1 e, .advance 1 e]

/-- An insert of `a` that checks the context before a commit claims it, and
writes after the commit has flushed. -/
def commitInsideInsert {E : Type} (e : E) : List (ContextLabel E) :=
  [.insert (str "a"), .commit, .advance 0 e, .advance 1 e, .advance 1 e, .advance 0 e,
    .advance 1 e, .advance 1 e, .advance 0 e]

/-- What a run shows: its calls, and the names carried by the requests. -/
def summary {β E γ : Type} {snk : Sink β E γ} (L : snk.Laws) (p : Context β × List (Sent γ)) :
    List ContextOp × List (List Slice) :=
  (p.1.ops, p.2.map fun x => L.names x.req)

/-- Both calls of these runs return OK. -/
def bothOk : List ContextOp := [.insert (str "a") (.returned .ok), .commit (.returned .ok)]

instance (name : Slice) (buf : WriBuf) : Decidable ((batchLaws h).Fits name buf) :=
  inferInstanceAs (Decidable (h.FitsBuf name buf))

instance (name : Slice) (buk : BulkIn) : Decidable ((bulkLaws h).Fits name buk) :=
  inferInstanceAs (Decidable True)

/-- The orderly run, on a batch and on a bulk context. -/
theorem commit_delivers_insertThenCommit :
    (∃ tr s, (contextSystem oneServer.servers (batchSink oneServer) WriBuf.Fresh).Run
        (Context.Admissible (batchLaws oneServer)) tr s ∧ s.ops = bothOk ∧
        s.Delivered oneServer.servers (batchLaws oneServer) tr) ∧
      ∃ tr s, (contextSystem oneServer.servers (bulkSink oneServer) BulkIn.Fresh).Run
        (Context.Admissible (bulkLaws oneServer)) tr s ∧ s.ops = bothOk ∧
        s.Delivered oneServer.servers (bulkLaws oneServer) tr := by
  constructor
  · have hsum : ((contextSystem oneServer.servers (batchSink oneServer) WriBuf.Fresh).exec
        (fun s l => decide (s.Admissible (batchLaws oneServer) l)) (emptyContext ⟨[], 0⟩)
        (insertThenCommit .ok)).map (summary (batchLaws oneServer)) =
          some (bothOk, [[str "a"]]) := by decide +kernel
    obtain ⟨p, hp, hsum⟩ := Option.map_eq_some_iff.mp hsum
    have hinit : (contextSystem oneServer.servers (batchSink oneServer) WriBuf.Fresh).init
        (emptyContext ⟨[], 0⟩) := ⟨rfl, rfl, rfl, fun _ => rfl⟩
    have hrun := TransitionSystem.Run.exec (fun _ _ hd => of_decide_eq_true hd) (.init hinit) hp
    exact ⟨_, _, hrun, (Prod.mk.inj hsum).1, (commit_delivers oneServer).1 _ _ hrun⟩
  · have hsum : ((contextSystem oneServer.servers (bulkSink oneServer) BulkIn.Fresh).exec
        (fun s l => decide (s.Admissible (bulkLaws oneServer) l)) (emptyContext ⟨[], none, []⟩)
        (insertThenCommit ⟨.ok, .ok, .ok, .ok⟩)).map (summary (bulkLaws oneServer)) =
          some (bothOk, [[str "a"]]) := by decide +kernel
    obtain ⟨p, hp, hsum⟩ := Option.map_eq_some_iff.mp hsum
    have hinit : (contextSystem oneServer.servers (bulkSink oneServer) BulkIn.Fresh).init
        (emptyContext ⟨[], none, []⟩) := ⟨rfl, rfl, rfl, fun _ => rfl⟩
    have hrun := TransitionSystem.Run.exec (fun _ _ hd => of_decide_eq_true hd) (.init hinit) hp
    exact ⟨_, _, hrun, (Prod.mk.inj hsum).1, (commit_delivers oneServer).2 _ _ hrun⟩

/-- A run in which both calls return OK and no request carries the name does
not deliver. -/
theorem not_delivered {β E γ : Type} {sv : Servers} {snk : Sink β E γ} (L : snk.Laws)
    {p : Context β × List (Sent γ)} {sent : List (List Slice)}
    (hp : summary L p = (bothOk, sent)) (hsent : ∀ names ∈ sent, str "a" ∉ names) :
    ¬ p.1.Delivered sv L p.2 := by
  obtain ⟨hops, hnames⟩ := Prod.mk.inj hp
  intro hdel
  have hdone : p.1.Done := by
    rw [Context.Done, hops]
    exact ⟨by decide, by decide⟩
  have hack : ∃ op ∈ p.1.ops, op.acknowledged (str "a") := by
    rw [hops]
    exact ⟨_, List.mem_cons_self .., rfl, rfl⟩
  obtain ⟨⟨x, hx, -, -, hname⟩, -⟩ := hdel hdone _ hack
  refine hsent (L.names x.req) ?_ hname
  rw [← hnames]
  exact List.mem_map.mpr ⟨x, hx, rfl⟩

/-- Without the conditions neither commit delivers: an insert that has passed
the check of the commit status feeds the buffer after the flush. -/
theorem commit_loses_late_insert :
    (¬ ∀ h tr s, (contextSystem (Handle.servers h) (batchSink h) WriBuf.Fresh).Run
      (fun _ _ => True) tr s → s.Delivered h.servers (batchLaws h) tr) ∧
    ¬ ∀ h tr s, (contextSystem (Handle.servers h) (bulkSink h) BulkIn.Fresh).Run
      (fun _ _ => True) tr s → s.Delivered h.servers (bulkLaws h) tr := by
  constructor
  · intro hall
    have hsum : ((contextSystem oneServer.servers (batchSink oneServer) WriBuf.Fresh).exec
        (fun _ _ => true) (emptyContext ⟨[], 0⟩) (commitInsideInsert .ok)).map
          (summary (batchLaws oneServer)) = some (bothOk, [[]]) := by decide +kernel
    obtain ⟨p, hp, hsum⟩ := Option.map_eq_some_iff.mp hsum
    have hinit : (contextSystem oneServer.servers (batchSink oneServer) WriBuf.Fresh).init
        (emptyContext ⟨[], 0⟩) := ⟨rfl, rfl, rfl, fun _ => rfl⟩
    have hrun := TransitionSystem.Run.exec (C := fun _ _ => True) (fun _ _ _ => trivial)
      (.init hinit) hp
    exact not_delivered _ hsum (by simp) (hall _ _ _ hrun)
  · intro hall
    have hsum : ((contextSystem oneServer.servers (bulkSink oneServer) BulkIn.Fresh).exec
        (fun _ _ => true) (emptyContext ⟨[], none, []⟩) (commitInsideInsert ⟨.ok, .ok, .ok, .ok⟩)).map
          (summary (bulkLaws oneServer)) = some (bothOk, [[]]) := by decide +kernel
    obtain ⟨p, hp, hsum⟩ := Option.map_eq_some_iff.mp hsum
    have hinit : (contextSystem oneServer.servers (bulkSink oneServer) BulkIn.Fresh).init
        (emptyContext ⟨[], none, []⟩) := ⟨rfl, rfl, rfl, fun _ => rfl⟩
    have hrun := TransitionSystem.Run.exec (C := fun _ _ => True) (fun _ _ _ => trivial)
      (.init hinit) hp
    exact not_delivered _ hsum (by simp) (hall _ _ _ hrun)

end DeltaFs
