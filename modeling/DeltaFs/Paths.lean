import DeltaFs.Resolv

/-!
# Operations on paths

`Mkfle`, `Mkdir`, `Lstat`, `Atdir`, `BatchInit` and `BulkInit` of a
`FilesystemCli`: each resolves its pathname and goes on beneath the parent
directory found there, with a case of its own for a path that has no last
component. `withParent_eq` says what they do in terms of the components of the
path.

Everything about an operation is said by two schemes, one for results (`withParent_eq`) and
one for references that are taken and given back (`withParent_balances`). The client is a
parameter, so that the same operations serve for leases, for counts and for what is sent.
-/

namespace DeltaFs

/-- The code of a status. -/
def Status.code : Status → Option ErrCode
  | .ok => none
  | .err c _ => some c

/-- What the operations on paths use of the client besides its leases. The
requests take what the caller's `Stat` holds and return what it holds after. -/
structure PathClient (σ Lease : Type) extends LeaseClient σ Lease where
  /-- `Mkfle1` -/
  mkfle1 : σ → LookupStat → Slice → UInt32 → Stat → σ × Status × Stat
  /-- `Mkdir1` -/
  mkdir1 : σ → LookupStat → Slice → UInt32 → Stat → σ × Status × Stat
  /-- `Lstat1` -/
  lstat1 : σ → LookupStat → Slice → Stat → σ × Status × Stat
  /-- `rtstat_` -/
  rtstat : Stat

/-- `const AT*`: the parent and the name of a relative root, or NULL. -/
abbrev At : Type := Option (LookupStat × Slice)

namespace PathClient

variable {σ Lease α : Type} (cli : PathClient σ Lease)

/-- What the operations share: resolve the path, go on with `f` if that
succeeds, and release the parent directory. -/
def withParent (s : σ) (at? : At) (mem : Slice) (ret : α)
    (f : σ → Lease → Slice → Bool → σ × Status × α) : Option (σ × Status × α) :=
  match resolu cli.toLeaseClient s at? mem with
  | none => none
  | some (s, r) =>
    match r.parentDir with
    | none => some (s, r.status, ret)
    | some parentDir =>
      if r.status.isOk then
        let (s, status, a) := f s parentDir (r.lastComponent.bytes mem) r.hasTailingSlashes
        some (cli.release s parentDir, status, a)
      else some (cli.release s parentDir, r.status, ret)

/-- `Mkfle`. -/
def mkfle (s : σ) (at? : At) (mem : Slice) (mode : UInt32) (stat : Stat) :
    Option (σ × Status × Stat) :=
  cli.withParent s at? mem stat fun s parentDir tgt hasTailingSlashes =>
    if tgt ≠ [] ∧ hasTailingSlashes = false then cli.mkfle1 s (cli.rep parentDir) tgt mode stat
    else (s, .err .fileExpected (str "Path is dir"), stat)

/-- `Mkdir`. -/
def mkdir (s : σ) (at? : At) (mem : Slice) (mode : UInt32) (stat : Stat) :
    Option (σ × Status × Stat) :=
  cli.withParent s at? mem stat fun s parentDir tgt _ =>
    if tgt ≠ [] then cli.mkdir1 s (cli.rep parentDir) tgt mode stat
    else (s, .err .alreadyExists [], stat)

/-- `Lstat`. -/
def lstat (s : σ) (at? : At) (mem : Slice) (stat : Stat) : Option (σ × Status × Stat) :=
  cli.withParent s at? mem stat fun s parentDir tgt hasTailingSlashes =>
    if tgt ≠ [] then
      let (s, status, stat) := cli.lstat1 s (cli.rep parentDir) tgt stat
      -- the mode is looked at even when the request has failed
      if hasTailingSlashes ∧ isDir stat.fileMode = false then
        (s, .err .dirExpected (str "Not a dir"), stat)
      else (s, status, stat)
    else (s, .ok, cli.rtstat)

/-- `Atdir`; returns no handle on errors. -/
def atdir (s : σ) (at? : At) (mem : Slice) : Option (σ × Status × Option At) :=
  cli.withParent s at? mem none fun s parentDir tgt _ =>
    if tgt ≠ [] then (s, .ok, some (some (cli.rep parentDir, tgt))) else (s, .ok, some none)

/-- `BatchInit` and `BulkInit`, for their lookup modes. -/
def initHandle (mode : LokupMode) (s : σ) (at? : At) (mem : Slice) :
    Option (σ × Status × Option Lease) :=
  cli.withParent s at? mem none fun s parentDir tgt _ =>
    if tgt ≠ [] then
      match cli.lokup s (cli.rep parentDir) tgt mode with
      | (s, .ok dirLease) => (s, .ok, some dirLease)
      | (s, .error e) => (s, .err e.1 e.2, none)
    else (s, .err .notSupported [], none)

/-! ## In terms of components

The pathname is scanned by `Resolu` with pointers; what it comes to is a function of the
components alone. Here each operation is given as such a function (`beneath`), and
`withParent_eq` says that the code computes it. Only the message of an error depends on how the
path was written, and `Agree` leaves it out. -/

/-- The relative root of a resolution. -/
def start (s : σ) : At → σ × Except (ErrCode × Slice) Lease
  | none => (s, .ok cli.rtlease)
  | some (parentOfRoot, name) => cli.lokup s parentOfRoot name .kRegular

/-- The reference of `withParent`, `cs` being the components of the path. -/
def beneath (s : σ) (at? : At) (cs : List Slice) (tailing : Bool) (ret : α)
    (f : σ → Lease → Slice → Bool → σ × Status × α) : σ × Status × α :=
  match cli.start s at? with
  | (s, .error e) => (s, .err e.1 e.2, ret)
  | (s, .ok rr) =>
    let r := resolveComponents cli.toLeaseClient s rr cs
    match r.2.status with
    | .ok =>
      let x := f r.1 r.2.parentDir (cs.getLastD []) tailing
      (cli.release x.1 r.2.parentDir, x.2.1, x.2.2)
    | .err c msg => (cli.release r.1 r.2.parentDir, .err c msg, ret)

/-- Two outcomes that differ at most in the message of their status. -/
def Agree (x y : σ × Status × α) : Prop :=
  x.1 = y.1 ∧ x.2.1.code = y.2.1.code ∧ x.2.2 = y.2.2

theorem Agree.rfl {x : σ × Status × α} : Agree x x := ⟨.refl _, .refl _, .refl _⟩

/-- `Resolu`, beneath a known root. -/
theorem resoluFrom_agree {path : Slice} (h0 : 0 ∉ path) (hs : path.head? = some slash) (s : σ)
    (rr : Lease) :
    ∃ r, resoluFrom cli.toLeaseClient s rr (cstr path) =
        some ((resolveComponents cli.toLeaseClient s rr (components path)).1, r) ∧
      r.parentDir = some (resolveComponents cli.toLeaseClient s rr (components path)).2.parentDir ∧
      r.status.code =
        (resolveComponents cli.toLeaseClient s rr (components path)).2.status.code ∧
      (r.status = .ok →
        r.lastComponent.bytes (cstr path) = (components path).getLastD [] ∧
        (r.hasTailingSlashes = true ↔ TailingSlashes path)) := by
  obtain ⟨r, hr, hout, hloc⟩ := resolv_eq cli.toLeaseClient h0 hs s rr
  obtain ⟨s', r', hfrom, hlast⟩ := resoluFrom_eq cli.toLeaseClient h0 hs s rr
  have hcode : (resoluStatus (cstr path) r).code = r.status.code := by
    cases resoluStatus_located hloc with
    | inl h => rw [h]
    | inr h =>
      obtain ⟨code, msg, msg', done, hst, h, -⟩ := h
      rw [h, hst]
      rfl
  have hparent : r.parentDir =
      (resolveComponents cli.toLeaseClient s rr (components path)).2.parentDir :=
    congrArg WalkResult.parentDir hout
  have hstatus : r.status =
      (resolveComponents cli.toLeaseClient s rr (components path)).2.status :=
    congrArg WalkResult.status hout
  refine ⟨r', ?_⟩
  simp only [resoluFrom, hr, Option.bind_eq_bind, Option.bind_some] at hfrom
  rw [← hparent, ← hstatus, ← hcode]
  split_ifs at hfrom with hok
  · cases hb : (cstr path)[r.lastComponent.data + r.lastComponent.size]? with
    | none => rw [hb] at hfrom; cases hfrom
    | some b =>
      rw [hb] at hfrom
      obtain ⟨rfl, rfl⟩ := Prod.mk.inj (Option.some.inj hfrom)
      refine ⟨?_, rfl, rfl, hlast⟩
      simp only [resoluFrom, hr, Option.bind_eq_bind, Option.bind_some, hok, if_true, hb]
  · obtain ⟨rfl, rfl⟩ := Prod.mk.inj (Option.some.inj hfrom)
    refine ⟨?_, rfl, rfl, hlast⟩
    simp only [resoluFrom, hr, Option.bind_eq_bind, Option.bind_some, if_neg hok]

/-- The parent directory `Resolu` ends at, and the state it leaves. -/
def resolved (s : σ) (at? : At) (cs : List Slice) : Option (σ × Lease) :=
  match cli.start s at? with
  | (_, .error _) => none
  | (s, .ok rr) =>
    let r := resolveComponents cli.toLeaseClient s rr cs
    if r.2.status.isOk then some (r.1, r.2.parentDir) else none

/-- `Resolu` beneath its relative root. -/
theorem resolu_start {s s₁ : σ} {at? : At} {rr : Lease} (mem : Slice)
    (h : cli.start s at? = (s₁, .ok rr)) :
    resolu cli.toLeaseClient s at? mem = resoluFrom cli.toLeaseClient s₁ rr mem := by
  cases at? with
  | none =>
    obtain ⟨rfl, hok⟩ := Prod.mk.inj h
    cases hok
    rfl
  | some a =>
    have hlokup : cli.lokup s a.1 a.2 .kRegular = (s₁, .ok rr) := h
    rw [resolu, hlokup]

/-- An operation on a path that does not resolve. -/
theorem withParent_unresolved {path : Slice} (h0 : 0 ∉ path) (hs : path.head? = some slash)
    {s : σ} {at? : At} (h : cli.resolved s at? (components path) = none) :
    ∃ s' c msg msg',
      (∀ (ret : α) f, cli.withParent s at? (cstr path) ret f = some (s', .err c msg, ret)) ∧
      ∀ (ret : α) tailing f,
        cli.beneath s at? (components path) tailing ret f = (s', .err c msg', ret) := by
  cases hstart : cli.start s at? with
  | mk s₁ found =>
    cases found with
    | error e =>
      cases at? with
      | none => cases hstart
      | some a =>
        have hlokup : cli.lokup s a.1 a.2 .kRegular = (s₁, .error e) := hstart
        refine ⟨s₁, e.1, e.2, e.2, fun ret f => ?_, fun ret tailing f => ?_⟩
        · rw [withParent, resolu, hlokup]
        · rw [beneath, hstart]
    | ok rr =>
      obtain ⟨r, hr, hparent, hcode, -⟩ := cli.resoluFrom_agree h0 hs s₁ rr
      cases hst : (resolveComponents cli.toLeaseClient s₁ rr (components path)).2.status with
      | ok =>
        rw [resolved, hstart] at h
        simp only [hst, Status.isOk_ok, if_true] at h
        cases h
      | err c msg =>
        rw [hst] at hcode
        cases hrst : r.status with
        | ok => rw [hrst] at hcode; cases hcode
        | err c' msg' =>
          rw [hrst] at hcode
          obtain rfl : c' = c := Option.some.inj hcode
          let walk := resolveComponents cli.toLeaseClient s₁ rr (components path)
          refine ⟨cli.release walk.1 walk.2.parentDir, c', msg', msg, fun ret f => ?_,
            fun ret tailing f => ?_⟩
          · simp only [withParent, cli.resolu_start _ hstart, hr, hparent, hrst, Status.isOk_err,
              Bool.false_eq_true, if_false]
            rfl
          · simp only [beneath, hstart, hst]
            rfl

/-- An operation on a path that resolves goes on beneath the parent directory. -/
theorem withParent_resolved {path : Slice} (h0 : 0 ∉ path) (hs : path.head? = some slash)
    {s s₁ : σ} {at? : At} {l : Lease}
    (h : cli.resolved s at? (components path) = some (s₁, l)) :
    ∃ tailing : Bool, (tailing = true ↔ TailingSlashes path) ∧
      (∀ (ret : α) f, cli.withParent s at? (cstr path) ret f =
        some (cli.release (f s₁ l ((components path).getLastD []) tailing).1 l,
          (f s₁ l ((components path).getLastD []) tailing).2)) ∧
      ∀ (ret : α) tailing f, cli.beneath s at? (components path) tailing ret f =
        (cli.release (f s₁ l ((components path).getLastD []) tailing).1 l,
          (f s₁ l ((components path).getLastD []) tailing).2) := by
  cases hstart : cli.start s at? with
  | mk s₂ found =>
    rw [resolved, hstart] at h
    cases found with
    | error e => cases h
    | ok rr =>
      obtain ⟨r, hr, hparent, hcode, hlast⟩ := cli.resoluFrom_agree h0 hs s₂ rr
      cases hst : (resolveComponents cli.toLeaseClient s₂ rr (components path)).2.status with
      | err c msg =>
        simp only [hst, Status.isOk_err, Bool.false_eq_true, if_false] at h
        cases h
      | ok =>
        simp only [hst, Status.isOk_ok, if_true] at h
        obtain ⟨rfl, rfl⟩ := Prod.mk.inj (Option.some.inj h)
        have hok : r.status = .ok := by
          rw [hst] at hcode
          cases hrst : r.status with
          | ok => rfl
          | err c msg => rw [hrst] at hcode; cases hcode
        obtain ⟨hbytes, htail⟩ := hlast hok
        refine ⟨r.hasTailingSlashes, htail, fun ret f => ?_, fun ret tailing f => ?_⟩
        · simp only [withParent, cli.resolu_start _ hstart, hr, hparent, hok, Status.isOk_ok,
            if_true, hbytes]
        · simp only [beneath, hstart, hst]

/-- **An operation on a path** does what its reference does on the components
of the path, up to the message of an error. -/
theorem withParent_eq {path : Slice} (h0 : 0 ∉ path) (hs : path.head? = some slash) (s : σ)
    (at? : At) (ret : α) (f : σ → Lease → Slice → Bool → σ × Status × α) :
    ∃ x tailing, cli.withParent s at? (cstr path) ret f = some x ∧
      (tailing = true ↔ TailingSlashes path) ∧
      Agree x (cli.beneath s at? (components path) tailing ret f) := by
  classical
  cases h : cli.resolved s at? (components path) with
  | none =>
    obtain ⟨s', c, msg, msg', hx, hy⟩ := cli.withParent_unresolved h0 hs h
    refine ⟨_, decide (TailingSlashes path), hx ret f, decide_eq_true_iff, ?_⟩
    rw [hy]
    exact ⟨.refl _, .refl _, .refl _⟩
  | some found =>
    obtain ⟨tailing, htail, hx, hy⟩ := cli.withParent_resolved h0 hs h
    refine ⟨_, tailing, hx ret f, htail, ?_⟩
    rw [hy]
    exact Agree.rfl

/-! ## What all operations keep

An operation on a path is a walk, a last part, and the release of the directory the walk has
ended at. So an invariant is kept by all operations if lookups, releases and the last parts keep
it; nothing else of the client needs to be known. -/

section Keeps

variable {cli} {I : σ → Prop}
  (hlokup : ∀ s p name, I s → I (cli.lokup s p name .kRegular).1)
  (hrelease : ∀ s l, I s → I (cli.release s l))

include hlokup hrelease

theorem resolveComponents_keeps {s : σ} (h : I s) (l : Lease) (cs : List Slice) :
    I (resolveComponents cli.toLeaseClient s l cs).1 := by
  induction s, l, cs using resolveComponents.induct cli.toLeaseClient with
  | case1 s l => exact h
  | case2 s l c => exact h
  | case3 s l c c' cs s₁ tmp hfound ih =>
    have h₁ := hlokup s (cli.rep l) c h
    rw [hfound] at h₁
    rw [resolveComponents, hfound]
    exact ih (hrelease s₁ l h₁)
  | case4 s l c c' cs s₁ e hfound =>
    have h₁ := hlokup s (cli.rep l) c h
    rw [hfound] at h₁
    rw [resolveComponents, hfound]
    exact h₁

/-- An invariant of the lookups and releases, and of the part of an operation
beneath the parent directory, is one of the operation. -/
theorem withParent_keeps {path : Slice} (h0 : 0 ∉ path) (hs : path.head? = some slash) {s : σ}
    (h : I s) (at? : At) (ret : α) {f : σ → Lease → Slice → Bool → σ × Status × α}
    (hf : ∀ s l tgt tailing, I s → I (f s l tgt tailing).1) {x : σ × Status × α}
    (hx : cli.withParent s at? (cstr path) ret f = some x) : I x.1 := by
  obtain ⟨y, tailing, hy, -, hagree, -⟩ := cli.withParent_eq h0 hs s at? ret f
  rw [hx] at hy
  cases hy
  rw [hagree, beneath]
  have hstart : I (cli.start s at?).1 := by
    cases at? with
    | none => exact h
    | some a => exact hlokup s a.1 a.2 h
  cases hst : cli.start s at? with
  | mk s₁ found =>
    rw [hst] at hstart
    cases found with
    | error e => exact hstart
    | ok rr =>
      have hwalk := resolveComponents_keeps hlokup hrelease hstart rr (components path)
      simp only
      cases (resolveComponents cli.toLeaseClient s₁ rr (components path)).2.status with
      | ok => exact hrelease _ _ (hf _ _ _ _ hwalk)
      | err c msg => exact hrelease _ _ hwalk

end Keeps

/-! ## What all operations give back

Each lookup hands out a lease that must be released, on every path through the code, errors
included. A walk holds one lease at a time, and the operation ends with none, but for the one it
returns. -/

/-- `I s X` says what the leases `X` are that somebody holds in `s`. The root's
may be held at any time; a lookup hands out one more, of which `R` tells the
mode; and regular leases can be released. -/
structure Balances (fs : LeaseClient σ Lease) (R : LokupMode → Lease → Prop)
    (I : σ → List Lease → Prop) : Prop where
  regular : R .kRegular fs.rtlease
  root : ∀ {s X}, I s X → I s (fs.rtlease :: X)
  swap : ∀ {s l l' X}, I s (l :: l' :: X) → I s (l' :: l :: X)
  found : ∀ {s s' p name mode l X}, I s X → fs.lokup s p name mode = (s', .ok l) →
    R mode l ∧ I s' (l :: X)
  failed : ∀ {s s' p name mode e X}, I s X → fs.lokup s p name mode = (s', .error e) → I s' X
  release : ∀ {s l X}, R .kRegular l → I s (l :: X) → I (fs.release s l) X

section Balances

variable {cli} {R : LokupMode → Lease → Prop} {I : σ → List Lease → Prop} {X : List Lease}

/-- A walk holds one lease at a time. -/
theorem Balances.walks (hb : Balances cli.toLeaseClient R I) {s : σ} {l : Lease}
    (hl : R .kRegular l) (h : I s (l :: X)) (cs : List Slice) :
    R .kRegular (resolveComponents cli.toLeaseClient s l cs).2.parentDir ∧
      I (resolveComponents cli.toLeaseClient s l cs).1
        ((resolveComponents cli.toLeaseClient s l cs).2.parentDir :: X) := by
  induction s, l, cs using resolveComponents.induct cli.toLeaseClient with
  | case1 s l => exact ⟨hl, h⟩
  | case2 s l c => exact ⟨hl, h⟩
  | case3 s l c c' cs s₁ tmp hfound ih =>
    obtain ⟨htmp, h₁⟩ := hb.found h hfound
    rw [resolveComponents, hfound]
    exact ih htmp (hb.release hl (hb.swap h₁))
  | case4 s l c c' cs s₁ e hfound =>
    rw [resolveComponents, hfound]
    exact ⟨hl, hb.failed h hfound⟩

/-- **An operation on a path** gives back every lease it was handed, except for
one it may return: `J s a X` says what is held when `a` has been returned. -/
theorem withParent_balances (hb : Balances cli.toLeaseClient R I) {J : σ → α → List Lease → Prop}
    {path : Slice} (h0 : 0 ∉ path) (hs : path.head? = some slash) {s : σ} (h : I s X) (at? : At)
    (ret : α) {f : σ → Lease → Slice → Bool → σ × Status × α}
    (hret : ∀ {s X}, I s X → J s ret X)
    (hrelease : ∀ {s l a X}, R .kRegular l → J s a (l :: X) → J (cli.release s l) a X)
    (hf : ∀ s l tgt tailing, I s (l :: X) →
      J (f s l tgt tailing).1 (f s l tgt tailing).2.2 (l :: X)) :
    ∃ x, cli.withParent s at? (cstr path) ret f = some x ∧ J x.1 x.2.2 X := by
  obtain ⟨x, tailing, hx, -, hagree, -, hval⟩ := cli.withParent_eq h0 hs s at? ret f
  refine ⟨x, hx, ?_⟩
  rw [hagree, hval, beneath]
  cases hst : cli.start s at? with
  | mk s₁ found =>
    cases found with
    | error e =>
      cases at? with
      | none => cases hst
      | some a => exact hret (hb.failed h hst)
    | ok rr =>
      have hrr : R .kRegular rr ∧ I s₁ (rr :: X) := by
        cases at? with
        | none =>
          obtain ⟨rfl, hok⟩ := Prod.mk.inj hst
          cases hok
          exact ⟨hb.regular, hb.root h⟩
        | some a => exact hb.found h hst
      obtain ⟨hreg, hwalk⟩ := hb.walks hrr.1 hrr.2 (components path)
      simp only
      cases (resolveComponents cli.toLeaseClient s₁ rr (components path)).2.status with
      | ok => exact hrelease hreg (hf _ _ _ _ hwalk)
      | err c msg => exact hret (hb.release hreg hwalk)

end Balances

/-- An operation that succeeds has walked all names but the last, and goes on
beneath the directory found there. -/
theorem withParent_ok {path : Slice} (h0 : 0 ∉ path) (hs : path.head? = some slash) {s : σ}
    {ret : α} {f : σ → Lease → Slice → Bool → σ × Status × α} {s' : σ} {a : α}
    (hx : cli.withParent s none (cstr path) ret f = some (s', .ok, a)) :
    ∃ s₁ parentDir tailing, Walk cli.toLeaseClient s cli.rtlease (components path).dropLast s₁
        parentDir ∧
      (f s₁ parentDir ((components path).getLastD []) tailing).2.1 = .ok ∧
      s' = cli.release (f s₁ parentDir ((components path).getLastD []) tailing).1 parentDir := by
  obtain ⟨y, tailing, hy, -, hstate, hcode, -⟩ := cli.withParent_eq h0 hs s none ret f
  rw [hx] at hy
  cases hy
  rw [beneath, start] at hcode hstate
  simp only at hcode hstate
  have hends := resolveComponents_ends cli.toLeaseClient s cli.rtlease (components path)
  cases hr : resolveComponents cli.toLeaseClient s cli.rtlease (components path) with
  | mk s₁ r =>
    rw [hr] at hends hcode hstate
    cases hends with
    | failed => cases hcode
    | @ok parentDir hwalk =>
      refine ⟨s₁, parentDir, tailing, hwalk, ?_, hstate⟩
      simp only at hcode
      cases hst : (f s₁ parentDir ((components path).getLastD []) tailing).2.1 with
      | ok => rfl
      | err c msg => rw [hst] at hcode; cases hcode

end PathClient

end DeltaFs
