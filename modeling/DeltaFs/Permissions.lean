import DeltaFs.Client
import DeltaFs.Requests

/-!
# Permissions along a path

A client checks the "x" permission on a directory when something is looked up in
it, and the "w" permission when something is created in it. The leases it
checks them on are shared by its users. `path_permissions` says that an
operation that gets through a path was allowed to by the lease of every
directory on it, and that the server had issued each of these leases for that
directory.

The log of the server is part of the content, so "the server had issued this lease" is a
statement about a state. It is an invariant of the client (`Issued`), whatever the server
answers; the permission checks of a walk are then read off the code.
-/

namespace DeltaFs

namespace FilesystemCli

open Client Rpc

/-- A stat the server has returned: of the directory `name` in `dir`. -/
structure Issue where
  dir : DirId
  name : Slice
  rep : LookupStat

/-- A server with a record of the stats it has issued. -/
def Server.logged {δ : Type} (srv : Server δ) : Server (δ × List Issue) where
  lokup d who p name :=
    let (content, found) := srv.lokup d.1 who p name
    match found with
    | .ok rep => ((content, ⟨p.dirId, name, rep⟩ :: d.2), .ok rep)
    | .error e => ((content, d.2), .error e)
  mkfle d who p name mode stat :=
    let (content, r) := srv.mkfle d.1 who p name mode stat
    ((content, d.2), r)
  mkdir d who p name mode stat :=
    let (content, r) := srv.mkdir d.1 who p name mode stat
    ((content, d.2), r)
  lstat d who p name stat :=
    let (content, r) := srv.lstat d.1 who p name stat
    ((content, d.2), r)

/-- An absolute pathname. -/
structure AbsolutePath where
  bytes : Slice
  noNul : 0 ∉ bytes
  absolute : bytes.head? = some slash

/-- What happens to a client, and to its server. -/
inductive Action (δ : Type) where
  /-- an operation on a path; the handle of a batch or a bulk insertion is kept -/
  | path (who : User) (op : PathOp) (start : At) (pathname : AbsolutePath)
  /-- a lookup by itself; the lease is kept -/
  | lokup (who : User) (p : LookupStat) (name : Slice) (mode : LokupMode)
  /-- a lease is released -/
  | release (r : Ref)
  /-- the handle of a batch or a bulk insertion is destroyed -/
  | destroy (r : Ref)
  /-- an idle partition is dropped -/
  | deletePartition (k : DirId × Nat)
  /-- others work on the server -/
  | server (f : δ → δ)

variable {δ : Type} (opts : Options) (srv : Server δ)

/-- What an action makes of a client. -/
def Action.run (s : Client (δ × List Issue)) : Action δ → Client (δ × List Issue)
  | .path who op start pathname =>
    (op.run (pathClient opts srv.logged who) s start (cstr pathname.bytes)).getD s
  | .lokup who p name mode => (Client.lokup opts srv.logged who s p name mode).1
  | .release r => s.release (some r)
  | .destroy r => s.destroy r
  | .deletePartition k => s.deletePartition opts k
  | .server f => { s with content := (f s.content.1, s.content.2) }

/-- A client after a history of actions. -/
def history (content : δ) (clock : Nat → UInt64) (acts : List (Action δ)) :
    Client (δ × List Issue) :=
  acts.foldl (Action.run opts srv) (Client.start opts (content, []) clock)

/-- The server has issued `rep` for `name` in `id`. -/
def Issued (d : δ × List Issue) (id : DirId) (name : Slice) (_ : LokupMode) (rep : LookupStat) :
    Prop :=
  ⟨id, name, rep⟩ ∈ d.2

/-- `Chain issued u p names p'`: from the directory with the lease `p` the names
lead to that with the lease `p'`, the user may look into each directory on the
way but the last, and the leases were issued for these directories. -/
inductive Chain (issued : List Issue) (skipPermChecks : Bool) (u : User) :
    LookupStat → List Slice → LookupStat → Prop where
  /-- no name -/
  | nil {p : LookupStat} : Chain issued skipPermChecks u p [] p
  /-- the directory `c` in `p` -/
  | cons {p p₁ p' : LookupStat} {c : Slice} {cs : List Slice} :
      isLookupOk skipPermChecks p u = true → ⟨p.dirId, c, p₁⟩ ∈ issued →
      Chain issued skipPermChecks u p₁ cs p' → Chain issued skipPermChecks u p (c :: cs) p'

variable {opts srv}

/-- Nothing a server does takes an issue back. -/
theorem keeps_issued : Keeps opts srv.logged (fun _ => True) Issued where
  lokup {d who p name id k mode rep} h := by
    simp only [Issued, Server.logged] at h ⊢
    cases (srv.lokup d.1 who p name).2 with
    | ok rep' => exact List.mem_cons_of_mem _ h
    | error e => exact h
  found {d who p name mode rep} _ _ h := by
    simp only [Issued, Server.logged] at h ⊢
    cases hf : (srv.lokup d.1 who p name).2 with
    | ok rep' =>
      rw [hf] at h
      cases h
      exact List.mem_cons_self ..
    | error e =>
      rw [hf] at h
      cases h
  mkfle h := h
  mkdir h := h
  lstat h := h

section PathOps

variable {γ : Type} {srv' : Server γ} {M : LokupMode → Prop}
  {P : γ → DirId → Slice → LokupMode → LookupStat → Prop} (hk : Keeps opts srv' M P)

include hk

/-- An operation on a path keeps the invariant if its last part does. -/
theorem withParent_inv {α : Type} (hreg : M .kRegular) (u : User) {s : Client γ} (h : s.Inv P)
    (start : At) (pathname : AbsolutePath) (ret : α)
    {f : Client γ → Handle → Slice → Bool → Client γ × Status × α}
    (hf : ∀ s l tgt tailing, s.Inv P → (f s l tgt tailing).1.Inv P) {s' : Client γ}
    (hx : ((pathClient opts srv' u).withParent s start (cstr pathname.bytes) ret f).map Prod.fst =
      some s') : s'.Inv P := by
  obtain ⟨x, hx', rfl⟩ := Option.map_eq_some_iff.mp hx
  exact PathClient.withParent_keeps (I := Client.Inv P)
    (fun s p name hs => (hs.lokup hk u p name .kRegular hreg).1) (fun s l hs => hs.release l)
    pathname.noNul pathname.absolute h start ret hf hx'

/-- **Operations on paths** keep the invariant. They change the client only by the
requests and lookups they are made of, and by letting go of leases. -/
theorem pathOp_inv (hreg : M .kRegular) {op : PathOp} (hop : ∀ mode, op = .initHandle mode → M mode)
    (u : User) {s s' : Client γ} (h : s.Inv P) (start : At) (pathname : AbsolutePath)
    (hx : op.run (pathClient opts srv' u) s start (cstr pathname.bytes) = some s') :
    s'.Inv P := by
  cases op with
  | mkfle mode =>
    refine withParent_inv hk hreg u h start pathname _ (fun s l tgt tailing hs => ?_) hx
    split
    · exact hs.request hk.mkfle
    · exact hs
  | mkdir mode =>
    refine withParent_inv hk hreg u h start pathname _ (fun s l tgt tailing hs => ?_) hx
    split
    · exact hs.request hk.mkdir
    · exact hs
  | lstat =>
    refine withParent_inv hk hreg u h start pathname _ (fun s l tgt tailing hs => ?_) hx
    split
    · have hinv : ((pathClient opts srv' u).lstat1 s ((pathClient opts srv' u).rep l) tgt
          noStat).1.Inv P := hs.request hk.lstat
      dsimp only
      split
      · exact hinv
      · exact hinv
    · exact hs
  | atdir =>
    refine withParent_inv hk hreg u h start pathname _ (fun s l tgt tailing hs => ?_) hx
    split
    · exact hs
    · exact hs
  | initHandle mode =>
    refine withParent_inv hk hreg u h start pathname _ (fun s l tgt tailing hs => ?_) hx
    split
    · have hinv : ((pathClient opts srv' u).lokup s ((pathClient opts srv' u).rep l) tgt
          mode).1.Inv P := (hs.lokup hk u _ tgt mode (hop mode rfl)).1
      cases hfound : (pathClient opts srv' u).lokup s ((pathClient opts srv' u).rep l) tgt mode with
      | mk s' found =>
        rw [hfound] at hinv
        cases found with
        | ok lease => exact hinv
        | error e => exact hinv
    · exact hs

end PathOps

/-- **The invariant** holds after every action: every lease of the client was issued by
its server, for the directory that it is a lease of. -/
theorem Action.run_inv {s : Client (δ × List Issue)} (h : s.Inv Issued) (act : Action δ) :
    (act.run opts srv s).Inv Issued := by
  cases act with
  | path who op start pathname =>
    rw [Action.run]
    cases hx : op.run (pathClient opts srv.logged who) s start (cstr pathname.bytes) with
    | none => exact h
    | some s' => exact pathOp_inv keeps_issued trivial (fun _ _ => trivial) who h start pathname hx
  | lokup who p name mode => exact (h.lokup keeps_issued who p name mode trivial).1
  | release r => exact h.release (some r)
  | destroy r => exact h.destroy r
  | deletePartition k => exact h.deletePartition k
  | server f => exact h.content fun hk => hk

theorem history_inv (content : δ) (clock : Nat → UInt64) (acts : List (Action δ)) :
    (history opts srv content clock acts).Inv Issued := by
  have hfold : ∀ s : Client (δ × List Issue), s.Inv Issued →
      (acts.foldl (Action.run opts srv) s).Inv Issued := by
    induction acts with
    | nil => exact fun s h => h
    | cons act acts ih => exact fun s h => ih _ (act.run_inv h)
  exact hfold _ (Inv.start _ _)

/-! ## Paths

What a walk has checked is a chain of leases from the root, or from the handle the path starts
at, in which each allows the lookup of the next. Leases may be old, so the chain speaks of stats
the server has issued at some time, for any user: this is the guarantee a cache of leases can
give. -/

theorem Chain.mono {issued issued' : List Issue} {b : Bool} {u : User} {p p' : LookupStat}
    {names : List Slice} (h : Chain issued b u p names p') (hsub : ∀ i ∈ issued, i ∈ issued') :
    Chain issued' b u p names p' := by
  induction h with
  | nil => exact .nil
  | cons hok hin _ ih => exact .cons hok (hsub _ hin) ih

/-- What a client has issued is not lost by what it does. -/
theorem Grows.issued {s s' : Client (δ × List Issue)} (h : Grows Issued s s') :
    ∀ i ∈ s.content.2, i ∈ s'.content.2 := by
  rintro ⟨id, name, rep⟩ hin
  exact @h id name .kRegular rep hin

/-- **A walk** is allowed by the lease of every directory something was looked
up in. -/
theorem walk_chain {u : User} {s s' : Client (δ × List Issue)} {l l' : Handle}
    {names : List Slice} (hw : Walk (pathClient opts srv.logged u).toLeaseClient s l names s' l')
    (hs : s.Inv Issued) :
    s'.Inv Issued ∧ (∀ i ∈ s.content.2, i ∈ s'.content.2) ∧
      Chain s'.content.2 opts.skipPermChecks u ((pathClient opts srv.logged u).rep l) names
        ((pathClient opts srv.logged u).rep l') := by
  induction hw with
  | nil => exact ⟨hs, fun _ h => h, .nil⟩
  | @cons s s₁ s' l tmp l' c cs hlokup _ ih =>
    obtain ⟨hinv, hgrow, hspec⟩ := hs.lokup keeps_issued u ((pathClient opts srv.logged u).rep l) c
      .kRegular trivial
    have hlokup : Client.lokup opts srv.logged u s ((pathClient opts srv.logged u).rep l) c
      .kRegular = (s₁, .ok tmp) := hlokup
    rw [hlokup] at hinv hgrow hspec
    obtain ⟨hinv', hsub, hchain⟩ := ih (hinv.release l)
    have hcontent : ((pathClient opts srv.logged u).release s₁ l).content = s₁.content :=
      release_content s₁ l
    rw [hcontent] at hsub
    cases hspec with
    | ok hok _ _ hissued _ =>
      exact ⟨hinv', fun i hi => hsub i (Grows.issued (@hgrow) i hi), .cons hok (hsub _ hissued) hchain⟩

/-- What an operation that succeeds has checked, if its last part succeeds only
after a check `ok` of the final parent. -/
theorem withParent_chain {α : Type} {u : User} {s s' : Client (δ × List Issue)} (h : s.Inv Issued)
    (pathname : AbsolutePath) {ret a : α}
    {f : Client (δ × List Issue) → Handle → Slice → Bool →
      Client (δ × List Issue) × Status × α} {ok : LookupStat → Prop}
    (hf : ∀ s l tailing, (f s l ((components pathname.bytes).getLastD []) tailing).2.1 = .ok →
      ok ((pathClient opts srv.logged u).rep l))
    (hlog : ∀ s l tgt tailing, (f s l tgt tailing).1.content.2 = s.content.2)
    (hx : (pathClient opts srv.logged u).withParent s none (cstr pathname.bytes) ret f =
      some (s', .ok, a)) :
    ∃ p, Chain s'.content.2 opts.skipPermChecks u rtlokupstat (components pathname.bytes).dropLast
        p ∧ ok p := by
  obtain ⟨s₁, l, tailing, hwalk, hst, rfl⟩ :=
    (pathClient opts srv.logged u).withParent_ok pathname.noNul pathname.absolute hx
  obtain ⟨-, -, hchain⟩ := walk_chain hwalk h
  refine ⟨_, hchain.mono fun i hi => ?_, hf s₁ l tailing hst⟩
  show i ∈ (Client.release (f s₁ l ((components pathname.bytes).getLastD []) tailing).1 l).content.2
  rw [release_content, hlog]
  exact hi

theorem request_log {ok : Bool} {msg : String} {s : Client (δ × List Issue)} {stat : Stat}
    {f : δ × List Issue → (δ × List Issue) × Status × Stat} (hf : ∀ d, (f d).1.2 = d.2) :
    (request ok msg s stat f).1.content.2 = s.content.2 := by
  rw [request]
  split
  · exact hf _
  · rfl

/-- A path with a component has a last one. -/
theorem getLastD_ne_nil {path : Slice} (h : components path ≠ []) :
    (components path).getLastD [] ≠ [] := by
  rw [List.getLastD_eq_getLast?, List.getLast?_eq_getLast_of_ne_nil h]
  exact Words.ne_nil_of_mem_words (List.getLast_mem h)

/-- **Who gets through a path** was let through by every directory on it. After
any history of a client that checks permissions, an `Lstat` that succeeds needs
the "x" permission on every directory up to the final parent, and a `Mkfle` or
a `Mkdir` that succeeds needs it above the final parent and the "w" permission
there, each by a lease issued for the directory, whoever it was issued to.

A lease in the cache does not remember for whom it was fetched. That does no harm because
the client checks the permission at each use, against what the lease says of the directory;
and that was `Issued` by the server, which is the invariant of the history. -/
theorem path_permissions (opts : Options) (hon : opts.skipPermChecks = false) (srv : Server δ)
    (content : δ) (clock : Nat → UInt64) (acts : List (Action δ)) (u : User)
    (pathname : AbsolutePath) :
    (∀ stat s' st, (pathClient opts srv.logged u).lstat (history opts srv content clock acts) none
        (cstr pathname.bytes) stat = some (s', .ok, st) → components pathname.bytes ≠ [] →
      ∃ p, Chain s'.content.2 false u rtlokupstat (components pathname.bytes).dropLast p ∧
        isLookupOk false p u = true) ∧
    (∀ mode stat s' st, (pathClient opts srv.logged u).mkfle (history opts srv content clock acts)
        none (cstr pathname.bytes) mode stat = some (s', .ok, st) →
      ∃ p, Chain s'.content.2 false u rtlokupstat (components pathname.bytes).dropLast p ∧
        isDirWriteOk false p u = true) ∧
    (∀ mode stat s' st, (pathClient opts srv.logged u).mkdir (history opts srv content clock acts)
        none (cstr pathname.bytes) mode stat = some (s', .ok, st) →
      ∃ p, Chain s'.content.2 false u rtlokupstat (components pathname.bytes).dropLast p ∧
        isDirWriteOk false p u = true) := by
  have hinv : (history opts srv content clock acts).Inv Issued := history_inv content clock acts
  rw [← hon]
  refine ⟨fun stat s' st hx hne => ?_, fun mode stat s' st hx => ?_, fun mode stat s' st hx => ?_⟩
  · refine withParent_chain hinv pathname (fun s l tailing hst => ?_) (fun s l tgt tailing => ?_) hx
    · rw [if_pos (getLastD_ne_nil hne)] at hst
      dsimp only at hst
      split at hst
      · cases hst
      · exact request_ok hst
    · split
      · have hlog : ((pathClient opts srv.logged u).lstat1 s
            ((pathClient opts srv.logged u).rep l) tgt stat).1.content.2 = s.content.2 :=
          request_log fun _ => rfl
        dsimp only
        split
        · exact hlog
        · exact hlog
      · rfl
  · refine withParent_chain hinv pathname (fun s l tailing hst => ?_) (fun s l tgt tailing => ?_) hx
    · split at hst
      · exact request_ok hst
      · cases hst
    · split
      · exact request_log fun _ => rfl
      · rfl
  · refine withParent_chain hinv pathname (fun s l tailing hst => ?_) (fun s l tgt tailing => ?_) hx
    · split at hst
      · exact request_ok hst
      · cases hst
    · split
      · exact request_log fun _ => rfl
      · rfl

/-- A server with one directory, that creates whatever it is asked to. -/
def oneDir : Server Unit where
  lokup _ _ _ _ := ((), .ok ⟨0, 1, 0, 0o777, 1, 1, -1⟩)
  mkfle _ _ _ _ _ stat := ((), .ok, stat)
  mkdir _ _ _ _ _ stat := ((), .ok, stat)
  lstat _ _ _ _ stat := ((), .ok, stat)

/-- Options with the checks on, and one server. -/
def checking : Options := ⟨false, 4, ⟨fun _ _ => 0, fun _ _ => 0⟩, 1⟩

/-- `/a/f`. -/
def fileInDir : AbsolutePath := ⟨str "/a/f", by decide, by decide⟩

/-- A user creates a file beneath a directory another user has looked up. -/
theorem path_permissions_mkfle :
    ∃ s' st p, (pathClient checking oneDir.logged ⟨2, 2⟩).mkfle (history checking oneDir ()
        (fun _ => 0) [.lokup ⟨1, 1⟩ rtlokupstat (str "a") .kRegular]) none (cstr fileInDir.bytes) 0
        noStat = some (s', .ok, st) ∧
      Chain s'.content.2 false ⟨2, 2⟩ rtlokupstat (components fileInDir.bytes).dropLast p ∧
      isDirWriteOk false p ⟨2, 2⟩ = true := by
  have hrun : ((pathClient checking oneDir.logged ⟨2, 2⟩).mkfle (history checking oneDir ()
      (fun _ => 0) [.lokup ⟨1, 1⟩ rtlokupstat (str "a") .kRegular]) none (cstr fileInDir.bytes) 0
      noStat).map (fun x => x.2.1) = some .ok := by decide +kernel
  obtain ⟨⟨s', st, stat⟩, hx, hst⟩ := Option.map_eq_some_iff.mp hrun
  have hst : st = .ok := hst
  subst hst
  obtain ⟨p, hchain, hok⟩ := (path_permissions checking rfl oneDir () (fun _ => 0)
    [.lokup ⟨1, 1⟩ rtlokupstat (str "a") .kRegular] ⟨2, 2⟩ fileInDir).2.1 0 noStat s' stat hx
  exact ⟨s', stat, p, hx, hchain, hok⟩

end FilesystemCli

end DeltaFs
