import DeltaFs.CliDirs
import DeltaFs.Leases
import DeltaFs.Paths

/-!
# A client, one operation at a time

`fscli.cc`: `Lokup` of a `FilesystemCli` checks the permissions of the user on
the parent directory, goes to the partition of the name, and finds a lease
there or has the server look the directory up. The leases of all users are the
same.

The client here runs one operation after the other. `Client.Inv P` is the
invariant of its leases: they count the references held, and `P` holds of what
they say, for a `P` that the requests to the server keep.
-/

namespace DeltaFs

namespace FilesystemCli

namespace Leases

variable {δ : Type} {P Q : Slice → LokupMode → LookupStat → Prop} {t t' : Leases} {ext ext' : Nat → Nat}
  {name : Slice} {l : Nat} {lease : Lease}

/-- The two checks of `Lokup2`, when there is nobody to wait for. -/
def find (t : Leases) (name : Slice) (now₁ now₂ : UInt64) : Option (Leases × Option Nat) := do
  match ← t.check name now₁ with
  | (t, some l, _) => some (t, some l)
  | (t, none, _) =>
    let r ← t.check name now₂
    some (r.1, r.2.1)

/-- The end of `Lokup1`, as what it returns. -/
def finish (t : Leases) (l : Nat) (mode : LokupMode) :
    Option (Leases × Except (ErrCode × Slice) Nat) := do
  match ← t.grant l mode with
  | (t, .ok, _) => some (t, .ok l)
  | (t, .err c msg, _) => some (t, .error (c, msg))

/-- `CreateBatch` and `CreateBulkContext`: the contexts of a new lease. -/
def newContexts (who : User) : LokupMode → Option BatchContext × Option BatchContext
  | .kRegular => (none, none)
  | .kBatchedCreats => (some ⟨who, 0⟩, none)
  | .kBulkIn => (none, some ⟨who, 0⟩)

/-- `Lokup1` beneath a parent the user may look into. The lookup at the server
takes `d` to `fetched.1`. -/
def lokup (t : Leases) (who : User) (name : Slice) (mode : LokupMode) (now₁ now₂ : UInt64)
    (d : δ) (fetched : δ × Except (ErrCode × Slice) LookupStat) :
    Option (Leases × δ × Except (ErrCode × Slice) Nat) := do
  match ← t.find name now₁ now₂ with
  | (t, some l) =>
    let r ← t.finish l mode
    some (r.1, d, r.2)
  | (t, none) =>
    match fetched.2 with
    | .error e => some (t, fetched.1, .error e)
    | .ok rep =>
      let contexts := newContexts who mode
      let r ← t.install name mode contexts.1 contexts.2 rep
      let r ← r.1.finish r.2.1 mode
      some (r.1, fetched.1, r.2)

/-- The leases others hold are still there. -/
def Stays (t t' : Leases) (ext' : Nat → Nat) : Prop :=
  ∀ {l lease}, t.mem l = some lease → 0 < ext' l →
    ∃ lease', t'.mem l = some lease' ∧ lease.Same lease'

theorem Inv.mono (hi : Inv P t ext) (h : ∀ k mode rep, P k mode rep → Q k mode rep) : Inv Q t ext where
  toCore := hi.toCore
  ok hl := { hi.ok hl with rep := h _ _ _ (hi.ok hl).rep }

/-- What the two checks find. -/
inductive Found (P : Slice → LokupMode → LookupStat → Prop) (t : Leases) (ext : Nat → Nat) (name : Slice) :
    Leases → Option Nat → Prop where
  | missing {t' : Leases} : Inv P t' ext → Stays t t' ext → t'.table name = none →
      Found P t ext name t' none
  | found {t' : Leases} {l : Nat} {lease : Lease} : Core t' (more ext l) →
      (∀ {q lease'}, t'.mem q = some lease' → Ok P lease' (ext q)) → Stays t t' ext →
      t'.mem l = some lease → lease.key = name → Found P t ext name t' (some l)

theorem Stays.trans {t₁ : Leases} (h : Stays t t₁ ext) (h' : Stays t₁ t' ext) : Stays t t' ext := by
  intro q lease hq hpos
  obtain ⟨lease₁, h₁, hsame⟩ := h hq hpos
  obtain ⟨lease₂, h₂, hsame'⟩ := h' h₁ hpos
  exact ⟨lease₂, h₂, hsame.trans hsame'⟩

/-- One check. -/
theorem Checked.found_of {now : UInt64} {o : Option Nat} {ds : List Deleted} (hi : Inv P t ext)
    (h : Checked P t ext name now t' o ds) : Found P t ext name t' o := by
  cases h with
  | missing hi' hmoved _ hnone => exact .missing hi' hmoved.stays hnone
  | @found l lease hcore hmem htable hl hlist hdue =>
    obtain ⟨lease', h', hkey, -⟩ := (hi.listed name l).mp hlist
    obtain rfl := Option.some.inj (hl.symm.trans h')
    refine .found hcore (fun {q lease'} hq => ?_) (fun {q lease'} hq _ => ?_) ?_ hkey
    · rw [hmem] at hq
      exact hi.ok hq
    · exact ⟨lease', by rw [hmem, hq], .refl _⟩
    · rw [hmem, hl]

theorem Inv.find (hi : Inv P t ext) (name : Slice) (now₁ now₂ : UInt64) :
    ∃ t' o, t.find name now₁ now₂ = some (t', o) ∧ Found P t ext name t' o := by
  obtain ⟨t₁, o₁, ds₁, h₁, hc₁⟩ := hi.check name now₁
  cases o₁ with
  | some l => exact ⟨t₁, some l, by rw [Leases.find, h₁]; rfl, hc₁.found_of hi⟩
  | none =>
    cases hc₁.found_of hi with
    | missing hi₁ hstays₁ _ =>
      obtain ⟨t₂, o₂, ds₂, h₂, hc₂⟩ := hi₁.check name now₂
      refine ⟨t₂, o₂, ?_, ?_⟩
      · rw [Leases.find, h₁]
        simp only [Option.bind_eq_bind, Option.bind_some, h₂]
      · cases hc₂.found_of hi₁ with
        | missing hi₂ hstays₂ hnone => exact .missing hi₂ (hstays₁.trans hstays₂) hnone
        | found hcore hok hstays₂ hl hkey => exact .found hcore hok (hstays₁.trans hstays₂) hl hkey

/-- What `Lokup1` does to a partition, and returns. What is known of the
directories is `P d` before the lookup at the server. -/
inductive Looked (P : δ → Slice → LokupMode → LookupStat → Prop) (t : Leases) (ext : Nat → Nat)
    (name : Slice) (mode : LokupMode) (d : δ)
    (fetched : δ × Except (ErrCode × Slice) LookupStat) :
    Leases → δ → Except (ErrCode × Slice) Nat → Prop where
  | ok {t' : Leases} {d' : δ} {l : Nat} {lease : Lease} : Inv (P d') t' (more ext l) →
      Stays t t' ext → t'.mem l = some lease → lease.key = name → lease.mode = mode →
      d' = d ∨ d' = fetched.1 → Looked P t ext name mode d fetched t' d' (.ok l)
  | mismatch {t' : Leases} {other : LokupMode} {rep : LookupStat} : Inv (P d) t' ext →
      Stays t t' ext → P d name other rep → other ≠ mode →
      Looked P t ext name mode d fetched t' d (.error (.accessDenied, modeMismatch))
  | failed {t' : Leases} {e : ErrCode × Slice} : Inv (P fetched.1) t' ext → Stays t t' ext →
      fetched.2 = .error e → Looked P t ext name mode d fetched t' fetched.1 (.error e)

/-- A new context counts no handles. -/
theorem newContexts_counts (who : User) (name : Slice) (mode : LokupMode) (rep : LookupStat) :
    Lease.Counts ⟨0, rep, (newContexts who mode).1, (newContexts who mode).2, name, mode, false⟩
      0 := by
  cases mode with
  | kRegular => exact ⟨rfl, rfl⟩
  | kBatchedCreats => exact ⟨rfl, _, rfl, rfl⟩
  | kBulkIn => exact ⟨rfl, _, rfl, rfl⟩

/-- **`Lokup1`** finds a lease of the name, or has one made of what the server
returns for it. -/
theorem Inv.lokup {P : δ → Slice → LokupMode → LookupStat → Prop} {d : δ} (hi : Inv (P d) t ext)
    (who : User) (name : Slice) (mode : LokupMode) (now₁ now₂ : UInt64)
    {fetched : δ × Except (ErrCode × Slice) LookupStat}
    (hmono : ∀ k mode rep, P d k mode rep → P fetched.1 k mode rep)
    (hP : ∀ rep, fetched.2 = .ok rep → P fetched.1 name mode rep) :
    ∃ t' d' r, t.lokup who name mode now₁ now₂ d fetched = some (t', d', r) ∧
      Looked P t ext name mode d fetched t' d' r := by
  obtain ⟨t₁, o, hfind, hfound⟩ := hi.find name now₁ now₂
  cases hfound with
  | @found l lease hcore hok hstays hl hkey =>
    by_cases hmode : lease.mode = mode
    · have ho := hok hl
      obtain ⟨t', lease', hgrant, hinv, hmoved, hl', hsame, -⟩ := grant_same hcore
        (fun _ h => hok h) hl ho.rep ho.due ho.out ho.counts
      rw [hmode] at hgrant
      refine ⟨t', d, .ok l, ?_, .ok hinv (hstays.trans fun hq hpos => ?_) hl'
        (hsame.key.trans hkey) (hsame.mode.trans hmode) (.inl rfl)⟩
      · simp only [Leases.lokup, hfind, Option.bind_eq_bind, Option.bind_some, Leases.finish, hgrant]
      · refine hmoved.stays hq ?_
        rw [more, Function.update_apply]
        split <;> omega
    · obtain ⟨t', ds, hgrant, hinv, hmoved, -⟩ := grant_other hcore (fun h => hok h) hl hmode
      refine ⟨t', d, _, ?_, .mismatch hinv (hstays.trans hmoved.stays) (hkey ▸ (hok hl).rep)
        hmode⟩
      simp only [Leases.lokup, hfind, Option.bind_eq_bind, Option.bind_some, Leases.finish, hgrant]
  | missing hi₁ hstays hnone =>
    cases hf : fetched.2 with
    | error e =>
      refine ⟨t₁, fetched.1, .error e, ?_, .failed (hi₁.mono hmono) hstays hf⟩
      simp only [Leases.lokup, hfind, Option.bind_eq_bind, Option.bind_some, hf]
    | ok rep =>
      obtain ⟨t₂, l, ds, t', lease, hinstall, hgrant, hinv, hmoved, -, hzero, hl, hsame⟩ :=
        (hi₁.mono hmono).installed hnone (hP rep hf) (newContexts_counts who name mode rep)
      refine ⟨t', fetched.1, .ok l, ?_, .ok hinv (hstays.trans fun hq hpos => ?_) hl hsame.key
        hsame.mode (.inr rfl)⟩
      · simp only [Leases.lokup, hfind, Option.bind_eq_bind, Option.bind_some, hf, hinstall,
          Leases.finish, hgrant]
      · refine hmoved.stays hq ?_
        rw [more, Function.update_apply]
        split <;> omega

end Leases

/-! ## The client

A client is its partitions, the references it has not given back yet, and the state of what it
talks to. The operations of `pathClient` are those that the code for paths is written over: they
look a directory up, release its lease, and send one request at the end. The servers are a
parameter (`Server`), so that the same client is used with one filesystem and with many. -/

/-- The filesystem behind a client, one request at a time, as what the requests
do to it and return. The last argument of a request is what the caller's `Stat`
holds. -/
structure Server (δ : Type) where
  lokup : δ → User → LookupStat → Slice → δ × Except (ErrCode × Slice) LookupStat
  mkfle : δ → User → LookupStat → Slice → UInt32 → Stat → δ × Status × Stat
  mkdir : δ → User → LookupStat → Slice → UInt32 → Stat → δ × Status × Stat
  lstat : δ → User → LookupStat → Slice → Stat → δ × Status × Stat

/-- `FilesystemCliOptions`, and the servers. -/
structure Options where
  skipPermChecks : Bool
  perPartitionLeaseLruSize : Nat
  xx : XXHash
  srvs : Nat

/-- A reference to a lease: its partition, the lease there, and what of the
lease never changes. -/
structure Ref where
  dir : DirId
  index : Nat
  lease : Nat
  mode : LokupMode
  rep : LookupStat
  deriving DecidableEq

/-- `lease->part`. -/
def Ref.part (r : Ref) : DirId × Nat := (r.dir, r.index)

/-- A client and its servers. -/
structure Client (δ : Type) where
  content : δ
  /-- the leases of each partition -/
  parts : DirId × Nat → Leases
  /-- the references to leases that have not been given back -/
  held : List Ref
  /-- what `CurrentMicros` will return -/
  clock : Nat → UInt64

/-- A `Lease*`: the root's, or a reference. -/
abbrev Handle : Type := Option Ref

namespace Client

variable {δ : Type} (opts : Options) (srv : Server δ)

/-- A new client. -/
def start (content : δ) (clock : Nat → UInt64) : Client δ where
  content := content
  parts _ := Leases.empty opts.perPartitionLeaseLruSize
  held := []
  clock := clock

/-- `rtlokupstat_`. -/
def rtlokupstat : LookupStat where
  dnodeNo := 0
  inodeNo := 0
  zerothServer := 0
  dirMode := 0o777
  userId := 0
  groupId := 0
  leaseDue := -1

/-- `rtstat_`. -/
def rtstat : Stat where
  dnodeNo := 0
  inodeNo := 0
  fileSize := 0
  fileMode := 0o777
  zerothServer := 0
  userId := 0
  groupId := 0
  modifyTime := 0
  changeTime := 0

/-- The number of references to a lease, among `held`. -/
def refs (held : List Ref) (k : DirId × Nat) (l : Nat) : Nat :=
  held.countP fun r => r.part = k ∧ r.lease = l

/-- The partition of a name. -/
def partOf (id : DirId) (name : Slice) : DirId × Nat :=
  (id, selectServer opts.xx opts.srvs id name)

/-- Write a partition. -/
def setPart (s : Client δ) (k : DirId × Nat) (t : Leases) : Client δ :=
  { s with parts := Function.update s.parts k t }

/-- `Lokup`. -/
def lokup (who : User) (s : Client δ) (p : LookupStat) (name : Slice) (mode : LokupMode) :
    Client δ × Except (ErrCode × Slice) Handle :=
  if isLookupOk opts.skipPermChecks p who then
    let k := partOf opts p.dirId name
    match (s.parts k).lokup who name mode (s.clock 0) (s.clock 1) s.content
      (srv.lokup s.content who p name) with
    | none => (s, .error (.assertionFailed, []))
    | some (t, content, found) =>
      let s := { s with content := content, clock := fun i => s.clock (i + 2) }.setPart k t
      match found with
      | .error e => (s, .error e)
      | .ok l =>
        match t.mem l with
        | none => (s, .error (.assertionFailed, []))
        | some lease =>
          let r : Ref := ⟨k.1, k.2, l, mode, lease.rep⟩
          ({ s with held := r :: s.held }, .ok (some r))
  else (s, .error (.accessDenied, str "No x perm"))

/-- What gives a reference back, as far as its partition goes. -/
def giveBack (r : Ref) (f : Leases → Option Leases) (s : Client δ) : Client δ :=
  if r ∈ s.held then
    match f (s.parts r.part) with
    | none => s
    | some t => { s.setPart r.part t with held := s.held.erase r }
  else s

/-- `Release(Lease*)`: of a lease without a context; the root's stays. -/
def release (s : Client δ) : Handle → Client δ
  | none => s
  | some r =>
    if r.mode = .kRegular then
      s.giveBack r fun t => (t.releaseLease r.lease).map Prod.fst
    else s

/-- `Destroy(BAT*)` and `Destroy(BULK*)`. -/
def destroy (s : Client δ) (r : Ref) : Client δ :=
  match r.mode with
  | .kRegular => s
  | .kBatchedCreats => s.giveBack r fun t => (t.destroyBat r.lease).map Prod.fst
  | .kBulkIn => s.giveBack r fun t => (t.destroyBulk r.lease).map Prod.fst

/-- `DeletePartition`, of a partition nobody references. -/
def deletePartition (s : Client δ) (k : DirId × Nat) : Client δ :=
  if s.held.all fun r => r.part ≠ k then
    s.setPart k (Leases.empty opts.perPartitionLeaseLruSize)
  else s

/-- A request that is sent if the user may, with the message if not. -/
def request (ok : Bool) (msg : String) (s : Client δ) (stat : Stat)
    (f : δ → δ × Status × Stat) : Client δ × Status × Stat :=
  if ok then
    let (content, st, stat) := f s.content
    ({ s with content := content }, st, stat)
  else (s, .err .accessDenied (str msg), stat)

/-- The operations of the user `who`. -/
def pathClient (who : User) : PathClient (Client δ) Handle where
  rep
    | none => rtlokupstat
    | some r => r.rep
  lokup := lokup opts srv who
  release := release
  rtlease := none
  mkfle1 s p name mode stat :=
    request (isDirWriteOk opts.skipPermChecks p who) "No write perm" s stat fun d =>
      srv.mkfle d who p name mode stat
  mkdir1 s p name mode stat :=
    request (isDirWriteOk opts.skipPermChecks p who) "No write perm" s stat fun d =>
      srv.mkdir d who p name mode stat
  lstat1 s p name stat :=
    request (isLookupOk opts.skipPermChecks p who) "No x perm" s stat fun d =>
      srv.lstat d who p name stat
  rtstat := rtstat

/-! ## The invariant

What a lease says has been said by a server at some time. It is still right as long as what
servers say of directories does not change, which is what `Keeps` asks of the requests. The
leases of the other partitions, and those of other names in the same one, are not touched by an
operation, and the references count what is held. -/

/-- What the requests to the server keep: `P d id name mode rep` says that `rep`
is a stat of the directory `name` in the directory `id`, for a lookup in one of
the modes `M`. -/
structure Keeps (M : LokupMode → Prop)
    (P : δ → DirId → Slice → LokupMode → LookupStat → Prop) : Prop where
  lokup : ∀ {d who p name id k mode rep}, P d id k mode rep →
    P (srv.lokup d who p name).1 id k mode rep
  found : ∀ {d who p name mode rep}, M mode → isLookupOk opts.skipPermChecks p who = true →
    (srv.lokup d who p name).2 = .ok rep → P (srv.lokup d who p name).1 p.dirId name mode rep
  mkfle : ∀ {d who p name m stat id k mode rep}, P d id k mode rep →
    P (srv.mkfle d who p name m stat).1 id k mode rep
  mkdir : ∀ {d who p name m stat id k mode rep}, P d id k mode rep →
    P (srv.mkdir d who p name m stat).1 id k mode rep
  lstat : ∀ {d who p name stat id k mode rep}, P d id k mode rep →
    P (srv.lstat d who p name stat).1 id k mode rep

/-- The invariant of a client. -/
structure Inv (P : δ → DirId → Slice → LokupMode → LookupStat → Prop) (s : Client δ) : Prop where
  leases : ∀ k, Leases.Inv (P s.content k.1) (s.parts k) (refs s.held k)
  /-- a reference says what its lease says -/
  held : ∀ r ∈ s.held, ∃ lease, (s.parts r.part).mem r.lease = some lease ∧ lease.mode = r.mode ∧
    lease.rep = r.rep

variable {opts srv} {P : δ → DirId → Slice → LokupMode → LookupStat → Prop} {s s' : Client δ} {who : User}
  {p : LookupStat} {name : Slice} {mode : LokupMode} {r : Ref}

theorem Inv.start (content : δ) (clock : Nat → UInt64) : (start opts content clock).Inv P where
  leases _ := Leases.Inv.empty _ _
  held r hr := by cases hr

variable {held : List Ref} {k : DirId × Nat}

theorem refs_pos (hr : r ∈ held) : 0 < refs held r.part r.lease :=
  List.countP_pos_iff.mpr ⟨r, hr, by simp⟩

/-- One more reference. -/
theorem refs_push_self (r : Ref) (held : List Ref) :
    refs (r :: held) r.part = Leases.more (refs held r.part) r.lease := by
  funext l
  rw [refs, List.countP_cons]
  by_cases hl : l = r.lease
  · subst hl
    simp [refs]
  · rw [Leases.more_of_ne _ hl]
    simp [refs, Ne.symm hl]

theorem refs_push_ne (r : Ref) (held : List Ref) (hk : k ≠ r.part) :
    refs (r :: held) k = refs held k := by
  funext l
  rw [refs, List.countP_cons]
  simp [refs, Ne.symm hk]

/-- One reference less. -/
theorem refs_erase (hr : r ∈ held) (k : DirId × Nat) :
    refs held k = refs (r :: held.erase r) k := by
  funext l
  exact (List.perm_cons_erase hr).countP_eq _

/-- **A partition changes**, and with it the references to its leases. All sections of
lookups and releases are of this kind, so the invariant is checked here once for the
partitions they leave alone. -/
theorem Inv.replace (hi : s.Inv P) {t : Leases} {d : δ} {clock : Nat → UInt64}
    (hgrow : ∀ {id k mode rep}, P s.content id k mode rep → P d id k mode rep)
    (hinv : Leases.Inv (P d k.1) t (refs held k))
    (hother : ∀ k', k' ≠ k → refs held k' = refs s.held k')
    (hheld : ∀ r ∈ held, r.part ≠ k ∧ r ∈ s.held ∨ r.part = k ∧
      ∃ lease, t.mem r.lease = some lease ∧ lease.mode = r.mode ∧ lease.rep = r.rep) :
    (⟨d, Function.update s.parts k t, held, clock⟩ : Client δ).Inv P := by
  constructor
  · intro k'
    show Leases.Inv (P d k'.1) (Function.update s.parts k t k') (refs held k')
    by_cases hk : k' = k
    · rw [hk, Function.update_self]
      exact hinv
    · rw [Function.update_of_ne hk, hother k' hk]
      exact (hi.leases k').mono fun _ _ _ => hgrow
  · intro r hr
    show ∃ lease, (Function.update s.parts k t r.part).mem r.lease = some lease ∧ _
    cases hheld r hr with
    | inl h =>
      rw [Function.update_of_ne h.1]
      exact hi.held r h.2
    | inr h =>
      rw [h.1, Function.update_self]
      exact h.2

/-- The references to a partition, after a step others do not notice. -/
theorem Inv.stays (hi : s.Inv P) {t : Leases} {ext : Nat → Nat}
    (hstays : Leases.Stays (s.parts k) t ext) (hr : r ∈ s.held) (hk : r.part = k)
    (hpos : 0 < ext r.lease) :
    ∃ lease, t.mem r.lease = some lease ∧ lease.mode = r.mode ∧ lease.rep = r.rep := by
  obtain ⟨lease, hl, hm, hrep⟩ := hi.held r hr
  rw [hk] at hl
  obtain ⟨lease', hl', hsame⟩ := hstays hl hpos
  exact ⟨lease', hl', hsame.mode.trans hm, hsame.rep.trans hrep⟩

/-- Every reference is to a lease of another partition, or to one that is still
there. -/
theorem Inv.others (hi : s.Inv P) {t : Leases}
    (hstays : Leases.Stays (s.parts k) t (refs s.held k)) : ∀ r ∈ s.held, r.part ≠ k ∧ r ∈ s.held ∨
      r.part = k ∧ ∃ lease, t.mem r.lease = some lease ∧ lease.mode = r.mode ∧
        lease.rep = r.rep := by
  intro r hr
  by_cases hk : r.part = k
  · exact .inr ⟨hk, hi.stays hstays hr hk (hk ▸ refs_pos hr)⟩
  · exact .inl ⟨hk, hr⟩

variable {M : LokupMode → Prop}

/-- What is known of the directories is not lost. -/
def Grows (P : δ → DirId → Slice → LokupMode → LookupStat → Prop) (s s' : Client δ) : Prop :=
  ∀ {id k mode rep}, P s.content id k mode rep → P s'.content id k mode rep

/-- What `Lokup` returns. -/
inductive Lokups (opts : Options) (srv : Server δ) (who : User)
    (P : δ → DirId → Slice → LokupMode → LookupStat → Prop) (s : Client δ) (p : LookupStat)
    (name : Slice) (mode : LokupMode) (s' : Client δ) :
    Except (ErrCode × Slice) Handle → Prop where
  | ok {r : Ref} : isLookupOk opts.skipPermChecks p who = true → r ∈ s'.held → r.mode = mode →
      P s'.content p.dirId name mode r.rep →
      s'.content = s.content ∨ s'.content = (srv.lokup s.content who p name).1 →
      Lokups opts srv who P s p name mode s' (.ok (some r))
  | refused : isLookupOk opts.skipPermChecks p who = false → s' = s →
      Lokups opts srv who P s p name mode s' (.error (.accessDenied, str "No x perm"))
  | mismatch {other : LokupMode} {rep : LookupStat} {e : ErrCode × Slice} :
      P (srv.lokup s.content who p name).1 p.dirId name other rep → other ≠ mode →
      Lokups opts srv who P s p name mode s' (.error e)
  | failed {e : ErrCode × Slice} : isLookupOk opts.skipPermChecks p who = true →
      (srv.lokup s.content who p name).2 = .error e →
      s'.content = (srv.lokup s.content who p name).1 →
      Lokups opts srv who P s p name mode s' (.error e)

/-- **`Lokup`** never faults, and returns what the server says of the
directory. -/
theorem Inv.lokup (hk : Keeps opts srv M P) (hi : s.Inv P) (who : User) (p : LookupStat)
    (name : Slice) (mode : LokupMode) (hmode : M mode) :
    (lokup opts srv who s p name mode).1.Inv P ∧
      Grows P s (lokup opts srv who s p name mode).1 ∧
      Lokups opts srv who P s p name mode (lokup opts srv who s p name mode).1
        (lokup opts srv who s p name mode).2 := by
  rw [Client.lokup]
  split
  · rename_i hok
    obtain ⟨t, d, found, hlokup, hlooked⟩ := Leases.Inv.lokup (P := fun d => P d p.dirId)
      (hi.leases (partOf opts p.dirId name)) who name mode (s.clock 0) (s.clock 1)
      (fun _ _ _ => hk.lokup) (fun rep h => hk.found hmode hok h)
    dsimp only
    rw [hlokup]
    cases hlooked with
    | @ok _ l lease hinv hstays hl hkey hm hd =>
      have hgrow : ∀ {id k mode rep}, P s.content id k mode rep → P d id k mode rep := by
        intro id k mode rep h
        cases hd with
        | inl hd => rw [hd]; exact h
        | inr hd => rw [hd]; exact hk.lokup h
      simp only [hl]
      refine ⟨hi.replace hgrow ?_ (fun k' hk' => refs_push_ne _ _ hk') ?_, hgrow,
        .ok hok (List.mem_cons_self ..) rfl ?_ hd⟩
      · exact refs_push_self ⟨p.dirId, selectServer opts.xx opts.srvs p.dirId name, l, mode,
          lease.rep⟩ s.held ▸ hinv
      · intro r hr
        cases List.mem_cons.mp hr with
        | inl h =>
          subst h
          exact .inr ⟨rfl, lease, hl, hm, rfl⟩
        | inr h => exact hi.others hstays r h
      · have hrep := (hinv.ok hl).rep
        rw [hkey, hm] at hrep
        exact hrep
    | mismatch hinv hstays hother hne =>
      exact ⟨hi.replace (fun h => h) hinv (fun _ _ => rfl) (hi.others hstays), fun h => h,
        .mismatch (hk.lokup hother) hne⟩
    | failed hinv hstays he =>
      exact ⟨hi.replace (fun h => hk.lokup h) hinv (fun _ _ => rfl) (hi.others hstays),
        fun h => hk.lokup h, .failed hok he rfl⟩
  · rename_i hok
    exact ⟨hi, fun h => h, .refused (Bool.eq_false_iff.mpr hok) rfl⟩

/-- A reference is given back. -/
theorem Inv.giveBack (hi : s.Inv P) {f : Leases → Option Leases}
    (hf : r ∈ s.held → ∃ t, f (s.parts r.part) = some t ∧
      Leases.Inv (P s.content r.dir) t (refs (s.held.erase r) r.part) ∧
      Leases.Stays (s.parts r.part) t (refs (s.held.erase r) r.part)) :
    (s.giveBack r f).Inv P := by
  rw [Client.giveBack]
  split
  · rename_i hr
    obtain ⟨t, hft, hinv, hstays⟩ := hf hr
    rw [hft]
    refine hi.replace (fun h => h) hinv (fun k' hk' => ?_) fun q hq => ?_
    · rw [refs_erase hr, refs_push_ne _ _ hk']
    · by_cases hk : q.part = r.part
      · refine .inr ⟨hk, hi.stays hstays (List.mem_of_mem_erase hq) hk ?_⟩
        rw [← hk]
        exact refs_pos hq
      · exact .inl ⟨hk, List.mem_of_mem_erase hq⟩
  · exact hi

theorem giveBack_content (s : Client δ) (r : Ref) (f : Leases → Option Leases) :
    (s.giveBack r f).content = s.content := by
  rw [giveBack]
  split
  · split
    · rfl
    · rfl
  · rfl

theorem release_content (s : Client δ) (h : Handle) : (s.release h).content = s.content := by
  cases h with
  | none => rfl
  | some r =>
    rw [release]
    split
    · exact giveBack_content ..
    · rfl

theorem refs_erase_self (hr : r ∈ held) :
    refs (held.erase r) r.part r.lease + 1 = refs held r.part r.lease := by
  rw [refs_erase hr, refs_push_self, Leases.more_self]

theorem refs_erase_of_ne (hr : r ∈ held) {l : Nat} (hl : l ≠ r.lease) :
    refs (held.erase r) r.part l = refs held r.part l := by
  rw [refs_erase hr, refs_push_self, Leases.more_of_ne _ hl]

theorem Inv.release (hi : s.Inv P) (h : Handle) : (s.release h).Inv P := by
  cases h with
  | none => exact hi
  | some r =>
    rw [Client.release]
    split
    · rename_i hmode
      refine hi.giveBack fun hr => ?_
      obtain ⟨lease, hl, hm, -⟩ := hi.held r hr
      obtain ⟨t, ds, hrel, hinv, hmoved, -⟩ := (hi.leases r.part).releaseLease hl (hm.trans hmode)
        (refs_erase_self hr) fun q hq => refs_erase_of_ne hr hq
      exact ⟨t, by rw [hrel]; rfl, hinv, hmoved.stays⟩
    · exact hi

theorem Inv.destroy (hi : s.Inv P) (r : Ref) : (s.destroy r).Inv P := by
  rw [Client.destroy]
  cases hmode : r.mode with
  | kRegular => exact hi
  | kBatchedCreats =>
    refine hi.giveBack fun hr => ?_
    obtain ⟨lease, hl, hm, -⟩ := hi.held r hr
    obtain ⟨t, last, ds, hrel, hinv, hmoved, -⟩ := (hi.leases r.part).destroyBat hl
      (hm.trans hmode) (refs_erase_self hr) fun q hq => refs_erase_of_ne hr hq
    exact ⟨t, by rw [hrel]; rfl, hinv, hmoved.stays⟩
  | kBulkIn =>
    refine hi.giveBack fun hr => ?_
    obtain ⟨lease, hl, hm, -⟩ := hi.held r hr
    obtain ⟨t, last, ds, hrel, hinv, hmoved, -⟩ := (hi.leases r.part).destroyBulk hl
      (hm.trans hmode) (refs_erase_self hr) fun q hq => refs_erase_of_ne hr hq
    exact ⟨t, by rw [hrel]; rfl, hinv, hmoved.stays⟩

theorem Inv.deletePartition (hi : s.Inv P) (k : DirId × Nat) :
    (s.deletePartition opts k).Inv P := by
  rw [Client.deletePartition]
  split
  · rename_i hall
    have hne : ∀ r ∈ s.held, r.part ≠ k := by
      intro r hr
      simpa using List.all_eq_true.mp hall r hr
    have hzero : refs s.held k = fun _ => 0 := by
      funext l
      refine List.countP_eq_zero.mpr fun r hr h => hne r hr ?_
      exact (of_decide_eq_true h).1
    refine hi.replace (fun h => h) ?_ (fun _ _ => rfl) fun r hr => .inl ⟨hne r hr, hr⟩
    rw [hzero]
    exact Leases.Inv.empty _ _
  · exact hi

/-- The server's content changes, and what is known of the directories is not
lost. -/
theorem Inv.content (hi : s.Inv P) {d : δ}
    (hgrow : ∀ {id k mode rep}, P s.content id k mode rep → P d id k mode rep) :
    ({ s with content := d } : Client δ).Inv P where
  leases k := (hi.leases k).mono fun _ _ _ => hgrow
  held := hi.held

theorem Inv.request (hi : s.Inv P) {ok : Bool} {msg : String} {stat : Stat}
    {f : δ → δ × Status × Stat}
    (hgrow : ∀ {id k mode rep}, P s.content id k mode rep → P (f s.content).1 id k mode rep) :
    (request ok msg s stat f).1.Inv P := by
  rw [Client.request]
  split
  · exact hi.content hgrow
  · exact hi

/-- A request that succeeds was allowed. -/
theorem request_ok {ok : Bool} {msg : String} {stat : Stat} {f : δ → δ × Status × Stat}
    (h : (request ok msg s stat f).2.1 = .ok) : ok = true := by
  cases ok with
  | true => rfl
  | false => cases h

end Client

end FilesystemCli

end DeltaFs
