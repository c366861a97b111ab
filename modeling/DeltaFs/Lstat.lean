import DeltaFs.Relative

/-!
# The status of `Lstat`

`FilesystemCli::Lstat` resolves a path, asks for the stat of its target, and
looks at the mode of the caller's `Stat` when the path has tailing slashes: at
what the request has written, or at what was there before. `lstat_settled_iff`
says for which paths the status is that of the first failure, whatever the
caller's `Stat` holds, and OK is for directories alone when the path ends with a
slash.

The requests go to a filesystem of the client's own or to a server, and the
reads of its dbs may fail.
-/

namespace DeltaFs

/-! ## Paths

For any client that resolves paths: when the status an `Lstat` returns is that of the first
thing that has failed. The caller's `Stat` is looked at even if nothing has been written to
it. -/

namespace PathClient

variable {σ Lease : Type} (cli : PathClient σ Lease)

/-- The reference of `Lstat`: the resolution and the request for the target, and
nothing after them. -/
def lookup (s : σ) (at? : At) (cs : List Slice) (stat : Stat) : σ × Status × Stat :=
  cli.beneath s at? cs false stat fun s parentDir tgt _ =>
    if tgt ≠ [] then cli.lstat1 s (cli.rep parentDir) tgt stat else (s, .ok, cli.rtstat)

/-- What a caller of `Lstat` relies on. -/
structure Settled (s : σ) (at? : At) (path : Slice) : Prop where
  returns : ∀ stat, ∃ x, cli.lstat s at? (cstr path) stat = some x
  /-- the status does not depend on what the caller's `Stat` holds -/
  independent : ∀ {stat stat' x x'}, cli.lstat s at? (cstr path) stat = some x →
    cli.lstat s at? (cstr path) stat' = some x' → x.2.1 = x'.2.1
  /-- a failure of the resolution or of the request is what is returned -/
  failure : ∀ {stat x c}, cli.lstat s at? (cstr path) stat = some x →
    (cli.lookup s at? (components path) stat).2.1.code = some c → x.2.1.code = some c
  /-- what is found at a path that ends with a slash is a directory -/
  directory : ∀ {stat x}, cli.lstat s at? (cstr path) stat = some x → x.2.1 = .ok →
    path.getLast? = some slash → isDir x.2.2.fileMode = true

/-- How a request for a stat ends, whatever the caller's `Stat` holds, and
whether its status passes a check of the mode: with a record of some mode, with
an error that leaves the mode alone, or with one that sets it. -/
inductive Answers (f : Stat → σ × Status × Stat) : Bool → Prop where
  | found {mode : UInt32} :
      (∀ stat, (f stat).2.1 = .ok ∧ (f stat).2.2.fileMode = mode) → Answers f true
  | failed {c : ErrCode} {msg : Slice} : c ≠ .dirExpected →
      (∀ stat, (f stat).2.1 = .err c msg ∧ (f stat).2.2.fileMode = stat.fileMode) →
      Answers f false
  | torn {c : ErrCode} {msg : Slice} {mode : UInt32} : c ≠ .dirExpected →
      (∀ stat, (f stat).2.1 = .err c msg ∧ (f stat).2.2.fileMode = mode) →
      Answers f (isDir mode)

theorem Answers.of_failed {f : Stat → σ × Status × Stat} {c : ErrCode} {msg : Slice}
    (hc : c ≠ .dirExpected) (hf : ∀ stat, (f stat).2 = (.err c msg, stat)) : Answers f false := by
  have hmode : ∀ stat, (f stat).2.1 = .err c msg ∧ (f stat).2.2.fileMode = stat.fileMode := by
    intro stat
    rw [hf]
    exact ⟨rfl, rfl⟩
  exact .failed hc hmode

variable {cli} {s s₁ : σ} {at? : At} {path : Slice} {l : Lease} {passes : Bool}

/-- An `Lstat` that always fails, with the error of its reference. -/
theorem settled_of_error {c : ErrCode} {msg : Slice}
    (hrun : ∀ stat, ∃ x, cli.lstat s at? (cstr path) stat = some x ∧ x.2.1 = .err c msg ∧
      (cli.lookup s at? (components path) stat).2.1.code = some c) :
    cli.Settled s at? path := by
  have hout : ∀ {stat x}, cli.lstat s at? (cstr path) stat = some x → x.2.1 = .err c msg := by
    intro stat x hx
    obtain ⟨y, hy, hst, -⟩ := hrun stat
    obtain rfl := Option.some.inj (hx.symm.trans hy)
    exact hst
  constructor
  · intro stat
    obtain ⟨x, hx, -⟩ := hrun stat
    exact ⟨x, hx⟩
  · intro stat stat' x x' hx hx'
    rw [hout hx, hout hx']
  · intro stat x c' hx hc'
    obtain ⟨-, -, -, hlookup⟩ := hrun stat
    rw [hout hx, ← hc', hlookup]
    rfl
  · intro stat x hx hok
    rw [hout hx] at hok
    cases hok

/-- A path that does not resolve. -/
theorem settled_of_unresolved (h0 : 0 ∉ path) (hs : path.head? = some slash)
    (h : cli.resolved s at? (components path) = none) : cli.Settled s at? path := by
  obtain ⟨s', c, msg, msg', hx, hy⟩ := cli.withParent_unresolved (α := Stat) h0 hs h
  refine settled_of_error fun stat => ⟨_, hx stat _, rfl, ?_⟩
  rw [lookup, hy]
  rfl

/-- What `Lstat` makes of the outcome of its request. -/
def checkMode (tailing : Bool) (r : Status × Stat) : Status × Stat :=
  if tailing = true ∧ isDir r.2.fileMode = false then
    (.err .dirExpected (str "Not a dir"), r.2)
  else r

/-- `Lstat` beneath the parent directory. -/
theorem lstat_resolved (h0 : 0 ∉ path) (hs : path.head? = some slash)
    (h : cli.resolved s at? (components path) = some (s₁, l)) (hne : components path ≠ [])
    (stat : Stat) :
    ∃ tailing : Bool, (tailing = true ↔ path.getLast? = some slash) ∧
      ∃ x, cli.lstat s at? (cstr path) stat = some x ∧
        x.2 = checkMode tailing
          (cli.lstat1 s₁ (cli.rep l) ((components path).getLastD []) stat).2 ∧
        (cli.lookup s at? (components path) stat).2 =
          (cli.lstat1 s₁ (cli.rep l) ((components path).getLastD []) stat).2 := by
  obtain ⟨tailing, htail, hx, hy⟩ := cli.withParent_resolved (α := Stat) h0 hs h
  rw [tailingSlashes_iff hs] at htail
  refine ⟨tailing, htail.trans ⟨fun h => h.2, fun h => ⟨hne, h⟩⟩, _, hx stat _, ?_, ?_⟩
  · rw [checkMode]
    simp only [if_pos (FilesystemCli.getLastD_ne_nil hne)]
    split
    · rfl
    · rfl
  · rw [lookup, hy]
    simp only [if_pos (FilesystemCli.getLastD_ne_nil hne)]

/-- A path of slashes only is the root, whose stat is no directory's. -/
theorem not_settled_root (h0 : 0 ∉ path) (hs : path.head? = some slash)
    (h : cli.resolved s at? (components path) = some (s₁, l)) (hnil : components path = [])
    (hroot : isDir cli.rtstat.fileMode = false) : ¬cli.Settled s at? path := by
  intro hset
  obtain ⟨tailing, -, hx, -⟩ := cli.withParent_resolved (α := Stat) h0 hs h
  have hlast : path.getLast? = some slash := by
    cases hl : path.getLast? with
    | none => rw [List.getLast?_eq_none_iff.mp hl] at hs; cases hs
    | some b =>
      have hb : b = slash := by
        by_contra hb
        exact Words.words_ne_nil_of_mem (List.mem_of_getLast? hl) hb hnil
      rw [hb]
  have hrun : cli.lstat s at? (cstr path) Rpc.noStat =
      some (cli.release s₁ l, .ok, cli.rtstat) := by
    rw [lstat, hx, hnil]
    rfl
  exact Bool.false_ne_true (hroot.symm.trans (hset.directory hrun rfl hlast))

/-- A record is found: only a record that is not a directory's is refused. -/
theorem settled_of_found (h0 : 0 ∉ path) (hs : path.head? = some slash)
    (h : cli.resolved s at? (components path) = some (s₁, l)) (hne : components path ≠ [])
    {mode : UInt32} (hfound : ∀ stat,
      (cli.lstat1 s₁ (cli.rep l) ((components path).getLastD []) stat).2.1 = .ok ∧
      (cli.lstat1 s₁ (cli.rep l) ((components path).getLastD []) stat).2.2.fileMode = mode) :
    cli.Settled s at? path := by
  have hrun := lstat_resolved h0 hs h hne
  generalize cli.lstat1 s₁ (cli.rep l) ((components path).getLastD []) = f at hfound hrun
  have hout : ∀ {stat x}, cli.lstat s at? (cstr path) stat = some x →
      (path.getLast? = some slash ∧ isDir mode = false →
        x.2.1 = .err .dirExpected (str "Not a dir")) ∧
      (¬(path.getLast? = some slash ∧ isDir mode = false) →
        x.2.1 = .ok ∧ x.2.2.fileMode = mode) := by
    intro stat x hx
    obtain ⟨tailing, htail, y, hy, hxy, -⟩ := hrun stat
    obtain rfl := Option.some.inj (hx.symm.trans hy)
    rw [hxy, checkMode, (hfound stat).2]
    refine ⟨fun h => ?_, fun h => ?_⟩
    · rw [if_pos ⟨htail.mpr h.1, h.2⟩]
    · rw [if_neg fun hcheck => h ⟨htail.mp hcheck.1, hcheck.2⟩]
      exact hfound stat
  constructor
  · intro stat
    obtain ⟨-, -, x, hx, -⟩ := hrun stat
    exact ⟨x, hx⟩
  · intro stat stat' x x' hx hx'
    by_cases hcheck : path.getLast? = some slash ∧ isDir mode = false
    · rw [(hout hx).1 hcheck, (hout hx').1 hcheck]
    · rw [((hout hx).2 hcheck).1, ((hout hx').2 hcheck).1]
  · intro stat x c hx hc
    obtain ⟨-, -, -, -, -, hlookup⟩ := hrun stat
    rw [hlookup, (hfound stat).1] at hc
    cases hc
  · intro stat x hx hok hlast
    cases hdir : isDir mode with
    | false =>
      rw [(hout hx).1 ⟨hlast, hdir⟩] at hok
      cases hok
    | true =>
      rw [((hout hx).2 fun h => Bool.false_ne_true (h.2.symm.trans hdir)).2]
      exact hdir

/-- The request fails, and the check of the mode passes. -/
theorem settled_of_passed (h0 : 0 ∉ path) (hs : path.head? = some slash)
    (h : cli.resolved s at? (components path) = some (s₁, l)) (hne : components path ≠ [])
    {c : ErrCode} {msg : Slice} (hfailed : ∀ stat,
      (cli.lstat1 s₁ (cli.rep l) ((components path).getLastD []) stat).2.1 = .err c msg)
    (hpass : path.getLast? = some slash → ∀ stat,
      isDir (cli.lstat1 s₁ (cli.rep l) ((components path).getLastD []) stat).2.2.fileMode = true) :
    cli.Settled s at? path := by
  have herr : ∀ stat, ∃ x, cli.lstat s at? (cstr path) stat = some x ∧
      x.2.1 = .err c msg ∧ (cli.lookup s at? (components path) stat).2.1.code = some c := by
    intro stat
    obtain ⟨tailing, htail, x, hx, hxy, hlookup⟩ := lstat_resolved h0 hs h hne stat
    refine ⟨x, hx, ?_, ?_⟩
    · rw [hxy, checkMode, if_neg, hfailed]
      rintro ⟨htailing, hmode⟩
      exact Bool.false_ne_true (hmode.symm.trans (hpass (htail.mp htailing) stat))
    · rw [hlookup, hfailed]
      rfl
  exact settled_of_error herr

/-- The request fails, and so does the check of the mode. -/
theorem not_settled_of_checked (h0 : 0 ∉ path) (hs : path.head? = some slash)
    (h : cli.resolved s at? (components path) = some (s₁, l)) (hne : components path ≠ [])
    {c : ErrCode} {msg : Slice} {stat : Stat} (hc : c ≠ .dirExpected)
    (hfailed : (cli.lstat1 s₁ (cli.rep l) ((components path).getLastD []) stat).2.1 = .err c msg)
    (hlast : path.getLast? = some slash)
    (hmode : isDir
      (cli.lstat1 s₁ (cli.rep l) ((components path).getLastD []) stat).2.2.fileMode = false) :
    ¬cli.Settled s at? path := by
  intro hset
  obtain ⟨tailing, htail, x, hx, hxy, hlookup⟩ := lstat_resolved h0 hs h hne stat
  have hcode := hset.failure hx (by rw [hlookup, hfailed]; rfl)
  -- the error is overwritten
  rw [hxy, checkMode, if_pos ⟨htail.mpr hlast, hmode⟩] at hcode
  exact hc (Option.some.inj hcode).symm

/-- **A path with a name** is settled if it does not end with a slash, or the
status of the request passes the check of the mode. -/
theorem settled_named_iff (h0 : 0 ∉ path) (hs : path.head? = some slash)
    (h : cli.resolved s at? (components path) = some (s₁, l)) (hne : components path ≠ [])
    (hans : Answers (cli.lstat1 s₁ (cli.rep l) ((components path).getLastD [])) passes) :
    cli.Settled s at? path ↔ (path.getLast? = some slash → passes = true) := by
  cases hans with
  | found hfound => exact iff_of_true (settled_of_found h0 hs h hne hfound) fun _ => rfl
  | failed hc hfailed =>
    have herr := fun stat => (hfailed stat).1
    by_cases hlast : path.getLast? = some slash
    · -- a `Stat` of zeros is no directory's
      have hzero : isDir Rpc.noStat.fileMode = false := by decide
      have hmode := (congrArg isDir (hfailed Rpc.noStat).2).trans hzero
      exact iff_of_false (not_settled_of_checked h0 hs h hne hc (herr Rpc.noStat) hlast hmode)
        fun h => Bool.false_ne_true (h hlast)
    · exact iff_of_true (settled_of_passed h0 hs h hne herr fun h => absurd h hlast)
        fun h => absurd h hlast
  | @torn c msg mode hc htorn =>
    have herr := fun stat => (htorn stat).1
    by_cases hpass : path.getLast? = some slash → isDir mode = true
    · exact iff_of_true (settled_of_passed h0 hs h hne herr fun hlast stat =>
        (congrArg isDir (htorn stat).2).trans (hpass hlast)) hpass
    · rw [Classical.not_imp, Bool.not_eq_true] at hpass
      have hmode := (congrArg isDir (htorn Rpc.noStat).2).trans hpass.2
      refine iff_of_false (not_settled_of_checked h0 hs h hne hc (herr Rpc.noStat) hpass.1 hmode) ?_
      exact fun h => Bool.false_ne_true (hpass.2.symm.trans (h hpass.1))

/-- **When `Lstat` is settled**, for requests whose status passes as `Passes`
says. -/
theorem settled_iff (h0 : 0 ∉ path) (hs : path.head? = some slash)
    (hroot : isDir cli.rtstat.fileMode = false) {Passes : σ → Lease → Prop}
    (hans : ∀ s₁ l, cli.resolved s at? (components path) = some (s₁, l) →
      components path ≠ [] → ∃ passes,
        Answers (cli.lstat1 s₁ (cli.rep l) ((components path).getLastD [])) passes ∧
        (passes = true ↔ Passes s₁ l)) :
    cli.Settled s at? path ↔ ∀ s₁ l, cli.resolved s at? (components path) = some (s₁, l) →
      components path ≠ [] ∧ (path.getLast? = some slash → Passes s₁ l) := by
  cases h : cli.resolved s at? (components path) with
  | none => exact iff_of_true (settled_of_unresolved h0 hs h) fun _ _ h => by cases h
  | some found =>
    obtain ⟨s₁, l⟩ := found
    by_cases hne : components path = []
    · exact iff_of_false (not_settled_root h0 hs h hne hroot) fun h => (h s₁ l rfl).1 hne
    · obtain ⟨passes, hpasses, hiff⟩ := hans s₁ l h hne
      rw [settled_named_iff h0 hs h hne hpasses, hiff]
      constructor
      · rintro hfound s₂ l₂ heq
        obtain ⟨rfl, rfl⟩ := Prod.mk.inj (Option.some.inj heq)
        exact ⟨hne, hfound⟩
      · intro h
        exact (h s₁ l rfl).2

end PathClient

/-! ## Reads of the chain

A read may fail at any db, or come to a record that cannot be decoded, and still write a part
of the stat. What matters of it is whether the mode has been written. -/

/-- The mode `Stat::DecodeFrom` sets, if it comes to it. -/
def Stat.decodeMode (input : Slice) : Option UInt32 := do
  let (_, input) ← getVarint64 input
  let ((_, _, mode), _) ← decodeInode input
  some mode

theorem decodePart_fileMode (stat : Stat) (input : Slice) :
    (stat.decodePart input).fileMode = (Stat.decodeMode input).getD stat.fileMode := by
  rw [Stat.decodePart, Stat.decodeMode]
  cases getVarint64 input with
  | none => rfl
  | some r =>
    obtain ⟨dno, input⟩ := r
    simp only [Option.bind_eq_bind, Option.bind_some]
    cases Stat.decodeInode input with
    | none => rfl
    | some r =>
      obtain ⟨⟨ino, size, mode⟩, input⟩ := r
      simp only [Option.bind_some, Option.getD_some]
      cases getVarint32 input with
      | none => rfl
      | some r => rfl

/-- The record can be decoded. -/
def Decodable (value : Slice) : Prop := (Stat.decodeFrom value).isSome = true

/-- The record can be decoded, or holds the mode of a directory at least. -/
def HoldsDir (value : Slice) : Prop :=
  Decodable value ∨ ∃ mode, Stat.decodeMode value = some mode ∧ isDir mode = true

/-- The record a read of the chain comes to: that of the first db with one, if no
db fails up to there. -/
def firstRead (id : DirId) (name : Slice) (faults : Nat → Option Slice) : Nat → List Db → Option Slice
  | _, [] => none
  | i, db :: dbs =>
    match faults i with
    | some _ => none
    | none =>
      match db (entryKey id name) with
      | none => firstRead id name faults (i + 1) dbs
      | some value => some value

/-- How a read ends that comes to a record, or to none, whatever the caller's
`Stat` holds. -/
inductive ReadEnds (f : Stat → Status × Stat) : Option Slice → Prop where
  | found {value rest : Slice} {st : Stat} : Stat.decodeFrom value = some (st, rest) →
      (∀ stat, f stat = (.ok, st)) → ReadEnds f (some value)
  | torn {value : Slice} : Stat.decodeFrom value = none →
      (∀ stat, f stat = (.err .corruption [], stat.decodePart value)) → ReadEnds f (some value)
  | failed {c : ErrCode} {msg : Slice} : c ≠ .dirExpected →
      (∀ stat, f stat = (.err c msg, stat)) → ReadEnds f none

/-- **A read of the chain**, entered on the rest of it. -/
theorem getFirst_ends (id : DirId) (name : Slice) (faults : Nat → Option Slice) (dbs : List Db) :
    ∀ (i : Nat) (s : Status), (dbs = [] → s = .err .notFound []) →
      ReadEnds (fun stat => getFirst id name faults i dbs (s, stat))
        (firstRead id name faults i dbs) := by
  induction dbs with
  | nil =>
    intro i s hs
    rw [hs rfl]
    exact .failed (by decide) fun _ => rfl
  | cons db dbs ih =>
    intro i s _
    cases hfault : faults i with
    | some msg =>
      simp only [getFirst, firstRead, Db.get, hfault, Status.isNotFound]
      exact .failed (by decide) fun _ => rfl
    | none =>
      cases hdb : db (entryKey id name) with
      | none =>
        simp only [getFirst, firstRead, Db.get, hfault, hdb, Status.isNotFound, if_true]
        exact ih (i + 1) _ fun _ => rfl
      | some value =>
        simp only [getFirst, firstRead, Db.get, hfault, hdb]
        cases hdec : Stat.decodeFrom value with
        | none => exact .torn hdec fun _ => rfl
        | some r => exact .found hdec fun _ => rfl

/-- A request that does what a read does returns OK if the read comes to a record
that can be decoded, and its status passes a check of the mode if it comes to one
that holds the mode of a directory. -/
theorem ReadEnds.answers {σ : Type} {g : Stat → σ × Status × Stat} {f : Stat → Status × Stat}
    {r : Option Slice} (h : ReadEnds f r) (hg : ∀ stat, (g stat).2 = f stat) :
    ∃ passes, PathClient.Answers g passes ∧ (passes = true ↔ ∃ value, r = some value ∧ HoldsDir value) ∧
      ((g Rpc.noStat).2.1.isOk = true ↔ ∃ value, r = some value ∧ Decodable value) := by
  cases h with
  | @found value rest st hdec hf =>
    have hvalue : Decodable value := by rw [Decodable, hdec]; rfl
    have hfound : ∀ stat, (g stat).2.1 = .ok ∧ (g stat).2.2.fileMode = st.fileMode := by
      intro stat
      rw [hg, hf]
      exact ⟨rfl, rfl⟩
    refine ⟨true, .found hfound, iff_of_true rfl ⟨value, rfl, .inl hvalue⟩, ?_⟩
    rw [(hfound Rpc.noStat).1]
    exact iff_of_true rfl ⟨value, rfl, hvalue⟩
  | @torn value hdec hf =>
    have hvalue : ¬Decodable value := by
      rw [Decodable, hdec]
      exact Bool.false_ne_true
    have htorn : ∀ stat, (g stat).2.1 = .err .corruption [] ∧
        (g stat).2.2.fileMode = (Stat.decodeMode value).getD stat.fileMode := by
      intro stat
      rw [hg, hf]
      exact ⟨rfl, decodePart_fileMode stat value⟩
    simp only [Option.some.injEq, exists_eq_left', HoldsDir, hvalue, false_or,
      (htorn Rpc.noStat).1, Status.isOk_err, iff_false]
    -- the mode is set if the record reaches that far
    cases hmode : Stat.decodeMode value with
    | none =>
      rw [hmode] at htorn
      refine ⟨false, .failed (by decide) htorn, iff_of_false Bool.false_ne_true ?_,
        Bool.false_ne_true⟩
      rintro ⟨mode, hnone, -⟩
      cases hnone
    | some mode =>
      rw [hmode] at htorn
      refine ⟨isDir mode, .torn (by decide) htorn, ?_, Bool.false_ne_true⟩
      simp only [Option.some.injEq, exists_eq_left']
  | @failed c msg hc hf =>
    have hnone : ∀ P : Slice → Prop, ¬∃ value, (none : Option Slice) = some value ∧ P value := by
      rintro P ⟨value, hvalue, -⟩
      cases hvalue
    refine ⟨false, .of_failed hc fun stat => (hg stat).trans (hf stat),
      iff_of_false Bool.false_ne_true (hnone _), ?_⟩
    rw [hg, hf]
    exact iff_of_false Bool.false_ne_true (hnone _)

/-! ## Filesystems and servers

A `Filesystem` whose reads may fail, as what a client talks to. Where an `Lstat` comes to is
settled by its checks and by the first read that answers; after that only the decoding of the
record decides. Everything else that a client has between itself and this server is dealt with
in the sections after this one. -/

namespace Filesystem

open FilesystemCli

variable (fs : Filesystem) (ts : UInt64) (faults : Call → Nat → Option Slice)

/-- `Lstat` and `Lokup`, when the reads of a request fail as `faults` says. -/
def serveReadIn (c : Call) (name : Slice) (stat : Stat) (d : Content) : Content × Op :=
  fs.alone ts (Op.new c stat)
    (fun op => (d, (fs.read (d.state fs) op name { calmAt ts with faults := faults c }).1)) d

/-- The filesystem as the server of a client, when the reads of its requests
fail as `faults` says. -/
def failing : Server Content :=
  { fs.server ts with
    lokup := fun d who p name =>
      let (d, op) := fs.serveReadIn ts faults ⟨who, p, .lokup name⟩ name lokupStat d
      match statusOf op, op.look with
      | .ok, some look => (d, .ok look)
      | .ok, none => (d, .error (.assertionFailed, []))
      | .err c msg, _ => (d, .error (c, msg))
    lstat := fun d who p name stat =>
      let (d, op) := fs.serveReadIn ts faults ⟨who, p, .lstat name⟩ name stat d
      (d, statusOf op, op.stat) }

/-- An `Lstat` of a name comes to a record that is `P`: the checks pass, and the
reads do not fail before. -/
def ComesTo (P : Slice → Prop) (d : Content) (who : User) (p : LookupStat) (name : Slice) : Prop :=
  fs.refusal ⟨who, p, .lstat name⟩ ts = none ∧
    fs.isDirPartitionOk (fs.index p.dirId) name = true ∧
    ∃ value, firstRead p.dirId name (faults ⟨who, p, .lstat name⟩) 0 (d.db :: fs.readonlyDbs) =
      some value ∧ P value

variable {fs ts faults}

theorem failing_lokup_content (d : Content) (who : User) (p : LookupStat) (name : Slice) :
    ((fs.failing ts faults).lokup d who p name).1 = d := by
  have hread : (fs.serveReadIn ts faults ⟨who, p, .lokup name⟩ name lokupStat d).1 = d := by
    rw [serveReadIn, alone]
    split
    · rfl
    · split
      · rfl
      · rfl
  simp only [failing]
  split
  · exact hread
  · exact hread
  · exact hread

/-- An `Lstat` whose checks pass is a read. -/
theorem failing_lstat {d : Content} {who : User} {p : LookupStat} {name : Slice}
    (hrefusal : fs.refusal ⟨who, p, .lstat name⟩ ts = none)
    (hpart : fs.isDirPartitionOk (fs.index p.dirId) name = true) (stat : Stat) :
    ((fs.failing ts faults).lstat d who p name stat).2 =
      getFirst p.dirId name (faults ⟨who, p, .lstat name⟩) 0 (d.db :: fs.readonlyDbs)
        (.ok, stat) := by
  simp only [failing, serveReadIn, alone, Op.new, hrefusal, isPartitionOk, Call.name?,
    Call.dirId, hpart, if_true, Filesystem.read, dbGet, dbs_state, statusOf]

/-- One whose checks do not pass fails, and leaves the caller's `Stat` alone. -/
theorem failing_lstat_refused {d : Content} {who : User} {p : LookupStat} {name : Slice}
    (h : fs.refusal ⟨who, p, .lstat name⟩ ts = none →
      fs.isDirPartitionOk (fs.index p.dirId) name = false) :
    ∃ c msg, c ≠ .dirExpected ∧
      ∀ stat, ((fs.failing ts faults).lstat d who p name stat).2 = (.err c msg, stat) := by
  cases hrefusal : fs.refusal ⟨who, p, .lstat name⟩ ts with
  | some st =>
    simp only [failing, serveReadIn, alone, Op.new, hrefusal]
    obtain ⟨msg, rfl | rfl⟩ := refusal_code hrefusal
    · exact ⟨_, _, by decide, fun _ => rfl⟩
    · exact ⟨_, _, by decide, fun _ => rfl⟩
  | none =>
    simp only [failing, serveReadIn, alone, Op.new, hrefusal, isPartitionOk, Call.name?,
      Call.dirId, h hrefusal, Bool.false_eq_true, if_false]
    exact ⟨_, _, by decide, fun _ => rfl⟩

/-- **An `Lstat` of a filesystem** returns OK if it comes to a record that can be
decoded, and its status passes a check of the mode if it comes to one that holds
the mode of a directory. -/
theorem failing_answers (d : Content) (who : User) (p : LookupStat) (name : Slice) :
    ∃ passes, PathClient.Answers ((fs.failing ts faults).lstat d who p name) passes ∧
      (passes = true ↔ fs.ComesTo ts faults HoldsDir d who p name) ∧
      (((fs.failing ts faults).lstat d who p name Rpc.noStat).2.1.isOk = true ↔
        fs.ComesTo ts faults Decodable d who p name) := by
  by_cases hchecks : fs.refusal ⟨who, p, .lstat name⟩ ts = none ∧
      fs.isDirPartitionOk (fs.index p.dirId) name = true
  swap
  · obtain ⟨c, msg, hc, hlstat⟩ : ∃ c msg, c ≠ .dirExpected ∧
        ∀ stat, ((fs.failing ts faults).lstat d who p name stat).2 = (.err c msg, stat) :=
      failing_lstat_refused fun hrefusal =>
        Bool.eq_false_iff.mpr fun hpart => hchecks ⟨hrefusal, hpart⟩
    refine ⟨false, .of_failed hc hlstat, ?_, ?_⟩
    · exact iff_of_false Bool.false_ne_true fun h => hchecks ⟨h.1, h.2.1⟩
    · rw [hlstat]
      exact iff_of_false Bool.false_ne_true fun h => hchecks ⟨h.1, h.2.1⟩
  have hcomes : ∀ P, fs.ComesTo ts faults P d who p name ↔
      ∃ value, firstRead p.dirId name (faults ⟨who, p, .lstat name⟩) 0 (d.db :: fs.readonlyDbs) =
        some value ∧ P value :=
    fun P => ⟨fun h => h.2.2, fun h => ⟨hchecks.1, hchecks.2, h⟩⟩
  have hread := getFirst_ends p.dirId name (faults ⟨who, p, .lstat name⟩) (d.db :: fs.readonlyDbs)
    0 .ok fun h => by cases h
  rw [hcomes, hcomes]
  exact hread.answers fun stat => failing_lstat hchecks.1 hchecks.2 stat

end Filesystem

/-! ## Over the wire

A request that fits its buffer gets the answer of the server; a failure comes without a stat,
so the caller's is what it was. -/

namespace FilesystemCli

variable {δ : Type}

/-- `fs_->Lokup`, as `LokupOperation` calls it. -/
def Server.lokupMethod (srv : Server δ) (c : Call) : StateM δ Rpc.Output := fun d =>
  match srv.lokup d c.who c.parent (Rpc.bytes c.req) with
  | (d, .ok look) => (⟨.ok, look, Rpc.noStat, 0⟩, d)
  | (d, .error e) => (⟨.err e.1 e.2, Rpc.zeroLook, Rpc.noStat, 0⟩, d)

/-- `fs_->Lstat`, as `LstatOperation` calls it, with a `Stat` of its own. -/
def Server.lstatMethod (srv : Server δ) (c : Call) : StateM δ Rpc.Output := fun d =>
  match srv.lstat d c.who c.parent (Rpc.bytes c.req) Rpc.noStat with
  | (d, st, stat) => (⟨st, Rpc.zeroLook, stat, 0⟩, d)

/-- A server whose lookups and stats travel: the requests of `LokupCli` and
`LstatCli` go to `LokupOperation` and `LstatOperation`. A request that does not
fit its buffer fails an assertion. -/
def Server.remote (srv : Server δ) : Server δ :=
  { srv with
    lokup := fun d who p name =>
      match Rpc.lokupCli (Rpc.lokupOperation srv.lokupMethod) p name who Rpc.zeroLook d with
      | (.ok (.ok, look), d) => (d, .ok look)
      | (.ok (.err c msg, _), d) => (d, .error (c, msg))
      | (_, d) => (d, .error (.assertionFailed, []))
    lstat := fun d who p name stat =>
      match Rpc.lstatCli (Rpc.lstatOperation srv.lstatMethod) p name who stat d with
      | (.ok (st, stat), d) => (d, st, stat)
      | (_, d) => (d, .err .assertionFailed [], stat) }

theorem Server.lokupMethod_state (srv : Server δ) (c : Call) (d : δ) :
    (srv.lokupMethod c d).2 = (srv.lokup d c.who c.parent (Rpc.bytes c.req)).1 := by
  rw [lokupMethod]
  split
  · rename_i heq
    rw [heq]
  · rename_i heq
    rw [heq]

/-- `LokupCli` over a server that is not changed by lookups. -/
theorem Server.remote_lokup_content {srv : Server δ}
    (hsrv : ∀ d who p name, (srv.lokup d who p name).1 = d) (d : δ) (who : User) (p : LookupStat)
    (name : Slice) : (srv.remote.lokup d who p name).1 = d := by
  have hcli : (Rpc.lokupCli (Rpc.lokupOperation srv.lokupMethod) p name who Rpc.zeroLook d).2 =
      d := by
    rw [Rpc.lokupCli]
    by_cases hfits : (Rpc.lokupRequest p name who).length ≤ Rpc.bufSize
    · have hlen : name.length < 2 ^ 32 :=
        ((Rpc.length_bytes_le ⟨who, p, .lokup name⟩).trans hfits).trans_lt (by decide)
      have hlook : ∀ o : Rpc.Output,
          Rpc.getLookupStat (Rpc.encodeLookupStat o.look) = .ok (o.look, []) :=
        fun o => Rpc.getLookupStat_encode' o.look
      rw [Rpc.lokupOperation,
        Rpc.checkedCall_serve hfits (Rpc.decodeLokup_request hlen p who) hlook]
      exact (lokupMethod_state srv ⟨who, p, .lokup name⟩ d).trans (hsrv d who p name)
    · rw [Rpc.checkedCall, if_neg hfits]
      rfl
  simp only [remote]
  generalize Rpc.lokupCli (Rpc.lokupOperation srv.lokupMethod) p name who Rpc.zeroLook d = r at hcli
  split
  · exact hcli
  · exact hcli
  · exact hcli

/-- **An `Lstat` that travels** sets the mode only if the one at the server
returns OK. -/
theorem Server.remote_answers {srv : Server δ} {d : δ} {who : User} {p : LookupStat} {name : Slice}
    {passes : Bool} (hname : name.length ≤ Rpc.room (.lstat name))
    (h : PathClient.Answers (srv.lstat d who p name) passes) :
    PathClient.Answers (srv.remote.lstat d who p name)
      (srv.lstat d who p name Rpc.noStat).2.1.isOk := by
  have hfits : (Rpc.lstatRequest p name who).length ≤ Rpc.bufSize :=
    (Rpc.fits_iff (c := ⟨who, p, .lstat name⟩) rfl).mpr hname rfl
  have hlen : name.length < 2 ^ 32 := hname.trans_lt (show 146 < 2 ^ 32 by decide)
  have hrun : ∀ stat, (srv.remote.lstat d who p name stat).2 =
      (Rpc.received (srv.lstat d who p name Rpc.noStat).2.1,
        if (srv.lstat d who p name Rpc.noStat).2.1.isOk then
          Rpc.mergeStat stat (srv.lstat d who p name Rpc.noStat).2.2
        else stat) := by
    intro stat
    have hstat : ∀ o : Rpc.Output, Rpc.getStat stat (Rpc.encodeStat o.stat) =
        .ok (Rpc.mergeStat stat o.stat, []) := fun o => Rpc.getStat_encode' stat o.stat
    simp only [remote, Rpc.lstatCli, Rpc.lstatOperation]
    rw [Rpc.checkedCall_serve hfits (Rpc.decodeLstat_request hlen p who) hstat]
    rfl
  have herr : ∀ {c msg}, c ≠ .dirExpected →
      (srv.lstat d who p name Rpc.noStat).2.1 = .err c msg →
      PathClient.Answers (srv.remote.lstat d who p name)
        (srv.lstat d who p name Rpc.noStat).2.1.isOk := by
    intro c msg hc hfailed
    -- the message stays behind
    have hremote : ∀ stat, (srv.remote.lstat d who p name stat).2 = (.err c [], stat) := by
      intro stat
      rw [hrun, hfailed]
      rfl
    rw [hfailed]
    exact .of_failed hc hremote
  cases h with
  | @found mode hfound =>
    obtain ⟨hok, hmode⟩ := hfound Rpc.noStat
    have hremote : ∀ stat, (srv.remote.lstat d who p name stat).2.1 = .ok ∧
        (srv.remote.lstat d who p name stat).2.2.fileMode = mode := by
      intro stat
      rw [hrun, hok]
      exact ⟨rfl, hmode⟩
    rw [hok]
    exact .found hremote
  | failed hc hfailed => exact herr hc (hfailed Rpc.noStat).1
  | torn hc htorn => exact herr hc (htorn Rpc.noStat).1

/-! ## The client

Local or remote is a `Route`. Both answer an `Lstat` in the sense of the first section, and
so does a client that looks directories up by leases. -/

variable {opts : Options} {srv : Server δ}

theorem Leases.lokup_state {t t' : Leases} {who : User} {name : Slice} {mode : LokupMode}
    {now₁ now₂ : UInt64} {d d' : δ} {fetched : δ × Except (ErrCode × Slice) LookupStat}
    {r : Except (ErrCode × Slice) Nat}
    (h : t.lokup who name mode now₁ now₂ d fetched = some (t', d', r)) :
    d' = d ∨ d' = fetched.1 := by
  obtain ⟨⟨t₁, o⟩, -, h⟩ := Option.bind_eq_some_iff.mp h
  cases o with
  | some l =>
    obtain ⟨r', -, h⟩ := Option.bind_eq_some_iff.mp h
    cases h
    exact .inl rfl
  | none =>
    simp only at h
    cases hf : fetched.2 with
    | error e =>
      rw [hf] at h
      cases h
      exact .inr rfl
    | ok rep =>
      rw [hf] at h
      obtain ⟨r', -, h⟩ := Option.bind_eq_some_iff.mp h
      obtain ⟨r'', -, h⟩ := Option.bind_eq_some_iff.mp h
      cases h
      exact .inr rfl

/-- A client's lookups change the server as its lookups do. -/
theorem Client.lokup_keeps_content (hsrv : ∀ d who p name, (srv.lokup d who p name).1 = d) (who : User)
    (s : Client δ) (p : LookupStat) (name : Slice) (mode : LokupMode) :
    (Client.lokup opts srv who s p name mode).1.content = s.content := by
  rw [Client.lokup]
  split
  · dsimp only
    split
    · rfl
    · rename_i t content found hlokup
      have hcontent : content = s.content := by
        cases Leases.lokup_state hlokup with
        | inl h => exact h
        | inr h => exact h.trans (hsrv ..)
      split
      · exact hcontent
      · split
        · exact hcontent
        · exact hcontent
  · rfl

/-- A resolution leaves the filesystem alone. -/
theorem resolved_content (hsrv : ∀ d who p name, (srv.lokup d who p name).1 = d) {who : User}
    {s s₁ : Client δ} {at? : At} {cs : List Slice} {l : Handle}
    (h : (Client.pathClient opts srv who).resolved s at? cs = some (s₁, l)) :
    s₁.content = s.content := by
  have hlokup : ∀ s' p name, s'.content = s.content →
      ((Client.pathClient opts srv who).lokup s' p name .kRegular).1.content = s.content :=
    fun s' p name hs' => (Client.lokup_keeps_content hsrv who s' p name .kRegular).trans hs'
  have hrelease : ∀ s' l, s'.content = s.content →
      ((Client.pathClient opts srv who).release s' l).content = s.content :=
    fun s' l hs' => (Client.release_content s' l).trans hs'
  rw [PathClient.resolved] at h
  have hstart : ((Client.pathClient opts srv who).start s at?).1.content = s.content := by
    cases at? with
    | none => rfl
    | some a => exact hlokup s a.1 a.2 rfl
  cases hst : (Client.pathClient opts srv who).start s at? with
  | mk s₂ found =>
    rw [hst] at h hstart
    cases found with
    | error e => cases h
    | ok rr =>
      have hwalk := PathClient.resolveComponents_keeps hlokup hrelease hstart rr cs
      simp only at h
      split at h
      · cases h
        exact hwalk
      · cases h

/-- A request that is sent is answered as the server answers it. -/
theorem Client.request_answers {f : δ → Stat → δ × Status × Stat} {s : Client δ}
    {passes : Bool} (msg : String) (h : PathClient.Answers (f s.content) passes) :
    PathClient.Answers (fun stat => Client.request true msg s stat fun d => f d stat) passes := by
  cases h with
  | found h => exact .found h
  | failed hc h => exact .failed hc h
  | torn hc h => exact .torn hc h

/-- Where the requests of a client go: to `fs_`, or over `rpc_`. -/
inductive Route where
  | fs
  | rpc

/-- The server at the end of the route. -/
def Route.server (srv : Server δ) : Route → Server δ
  | .fs => srv
  | .rpc => srv.remote

/-- What a record has to be for the status of an `Lstat` to pass a check of the
mode. A failure over `rpc_` does not set it. -/
def Route.Passes (value : Slice) : Route → Prop
  | .fs => HoldsDir value
  | .rpc => Decodable value

/-- The names of a path, and that of its relative root, fit the requests that
carry them. -/
def NamesFit (at? : At) (path : Slice) : Prop :=
  ∀ name, (name ∈ components path ∨ ∃ p, at? = some (p, name)) →
    name.length ≤ Rpc.room (.lstat name)

section Filesystem

open Filesystem

variable (fs : Filesystem) (ts : UInt64) (faults : Call → Nat → Option Slice) (opts : Options)

/-- The operations of the user `who` on a filesystem. -/
abbrev Route.client (route : Route) (who : User) : PathClient (Client Content) Handle :=
  Client.pathClient opts (route.server (fs.failing ts faults)) who

/-- The status of an `Lstat1` passes a check of the mode: the client lets the user
look the name up, and the filesystem comes to a record that passes. -/
def Route.Sound (route : Route) (who : User) (d : Content) (p : LookupStat) (name : Slice) : Prop :=
  isLookupOk opts.skipPermChecks p who = true ∧
    fs.ComesTo ts faults (fun value => route.Passes value) d who p name

variable {fs ts faults opts}

theorem Route.lokup_keeps_content (route : Route) (d : Content) (who : User) (p : LookupStat)
    (name : Slice) : ((route.server (fs.failing ts faults)).lokup d who p name).1 = d := by
  cases route with
  | fs =>
    rw [server]
    exact failing_lokup_content d who p name
  | rpc =>
    rw [server]
    exact Server.remote_lokup_content failing_lokup_content d who p name

/-- **`Lstat1`**, on either route. -/
theorem Route.lstat1_answers (route : Route) (who : User) (s : Client Content) (l : Handle)
    {name : Slice} (hname : route = .rpc → name.length ≤ Rpc.room (.lstat name)) :
    ∃ passes, PathClient.Answers ((route.client fs ts faults opts who).lstat1 s
        ((route.client fs ts faults opts who).rep l) name) passes ∧
      (passes = true ↔ route.Sound fs ts faults opts who s.content
        ((route.client fs ts faults opts who).rep l) name) := by
  generalize (route.client fs ts faults opts who).rep l = p
  simp only [Client.pathClient]
  cases hok : isLookupOk opts.skipPermChecks p who with
  | false =>
    refine ⟨false, .of_failed (by decide) fun _ => rfl, iff_of_false Bool.false_ne_true fun h => ?_⟩
    exact Bool.false_ne_true (hok.symm.trans h.1)
  | true =>
    obtain ⟨passes, hanswers, hdir, hdec⟩ : ∃ passes,
        PathClient.Answers ((fs.failing ts faults).lstat s.content who p name) passes ∧
          (passes = true ↔ fs.ComesTo ts faults HoldsDir s.content who p name) ∧
          (((fs.failing ts faults).lstat s.content who p name Rpc.noStat).2.1.isOk = true ↔
            fs.ComesTo ts faults Decodable s.content who p name) :=
      failing_answers s.content who p name
    have hserver : ∃ b, PathClient.Answers
        ((route.server (fs.failing ts faults)).lstat s.content who p name) b ∧
        (b = true ↔ fs.ComesTo ts faults (fun value => route.Passes value) s.content who p name) := by
      cases route with
      | fs =>
        rw [server]
        exact ⟨passes, hanswers, hdir⟩
      | rpc =>
        rw [server]
        exact ⟨_, Server.remote_answers (hname rfl) hanswers, hdec⟩
    obtain ⟨b, hb, hiff⟩ := hserver
    exact ⟨b, Client.request_answers _ hb, hiff.trans ⟨fun h => ⟨hok, h⟩, fun h => h.2⟩⟩

/-- **When the status of `Lstat` is settled**: a path that resolves has to have
a name, and if it ends with a slash the status of the request has to pass the
check of the mode. For a path of slashes only `Lstat` returns OK and a mode that
is not a directory's; when the request fails and the path ends with a slash, the
error stays if the caller's `Stat` happens to hold the mode of a directory, and
turns into `DirExpected` if not. -/
theorem lstat_settled_iff (route : Route) (who : User) (s : Client Content) (at? : At)
    (pathname : AbsolutePath) (hfit : route = .rpc → NamesFit at? pathname.bytes) :
    (route.client fs ts faults opts who).Settled s at? pathname.bytes ↔
      ∀ s₁ l, (route.client fs ts faults opts who).resolved s at? (components pathname.bytes) =
          some (s₁, l) →
        components pathname.bytes ≠ [] ∧
        (pathname.bytes.getLast? = some slash →
          route.Sound fs ts faults opts who s.content
            ((route.client fs ts faults opts who).rep l)
            ((components pathname.bytes).getLastD [])) := by
  have hroot : isDir Client.rtstat.fileMode = false := by decide
  refine PathClient.settled_iff pathname.noNul pathname.absolute hroot fun s₁ l h hne => ?_
  have hmem : (components pathname.bytes).getLastD [] ∈ components pathname.bytes := by
    rw [List.getLastD_eq_getLast?, List.getLast?_eq_getLast_of_ne_nil hne]
    exact List.getLast_mem hne
  rw [← resolved_content route.lokup_keeps_content h]
  exact route.lstat1_answers who s₁ l fun hrpc => hfit hrpc _ (.inl hmem)

/-! ### Two directories, one of them missing

The pathname ends with a slash, so the mode of the caller's `Stat` is looked at even if the
`Lstat` has failed, and with zeros in it the error is replaced by another one. With a directory
in it the error would have stayed. -/

/-- Dbs that do not fail. -/
def noFaults : Call → Nat → Option Slice := fun _ _ => none

/-- `/a/`. -/
def slashA : AbsolutePath := ⟨str "/a/", by decide, by decide⟩

/-- `/b/`. -/
def slashB : AbsolutePath := ⟨str "/b/", by decide, by decide⟩

/-- The names of `/a/` are short. -/
theorem namesFit_slashA : NamesFit none slashA.bytes := by
  intro name h
  have hcomp : components slashA.bytes = [str "a"] := by decide
  rw [hcomp] at h
  obtain h | ⟨p, h⟩ := h
  · rw [List.mem_singleton.mp h]
    decide
  · cases h

/-- The directory `a`, over the wire. -/
theorem lstat_settled_slashA :
    (Route.rpc.client ownFs 0 noFaults checking someone).Settled
        (Client.start checking withDir fun _ => 0) none slashA.bytes ↔
      ∀ s₁ l, (Route.rpc.client ownFs 0 noFaults checking someone).resolved
          (Client.start checking withDir fun _ => 0) none (components slashA.bytes) =
          some (s₁, l) →
        components slashA.bytes ≠ [] ∧
        (slashA.bytes.getLast? = some slash →
          Route.rpc.Sound ownFs 0 noFaults checking someone withDir
            ((Route.rpc.client ownFs 0 noFaults checking someone).rep l)
            ((components slashA.bytes).getLastD [])) :=
  lstat_settled_iff .rpc someone (Client.start checking withDir fun _ => 0) none slashA
    fun _ => namesFit_slashA

/-- **The error is overwritten**: `Lstat` of `/b/` with a `Stat` of zeros returns
`DirExpected` though there is no `b`, and `Lstat` of `/` returns OK and a mode
that is not a directory's. -/
theorem lstat_unsettled :
    ¬(Route.fs.client ownFs 0 noFaults checking someone).Settled
        (Client.start checking withDir fun _ => 0) none slashB.bytes ∧
      ¬(Route.fs.client ownFs 0 noFaults checking someone).Settled
        (Client.start checking withDir fun _ => 0) none rootPath.bytes := by
  have hslashB : ((Route.fs.client ownFs 0 noFaults checking someone).lstat
      (Client.start checking withDir fun _ => 0) none (cstr slashB.bytes) Rpc.noStat).map
        (fun x => x.2.1.code) = some (some .dirExpected) := by decide +kernel
  have hmissing : ((Route.fs.client ownFs 0 noFaults checking someone).lookup
      (Client.start checking withDir fun _ => 0) none (components slashB.bytes)
        Rpc.noStat).2.1.code = some .notFound := by decide +kernel
  have hrootPath : ((Route.fs.client ownFs 0 noFaults checking someone).lstat
      (Client.start checking withDir fun _ => 0) none (cstr rootPath.bytes) Rpc.noStat).map
        (fun x => (x.2.1, isDir x.2.2.fileMode)) = some (.ok, false) := by decide +kernel
  refine ⟨fun h => ?_, fun h => ?_⟩
  · obtain ⟨x, hx, hcode⟩ := Option.map_eq_some_iff.mp hslashB
    have hfailure := h.failure hx hmissing
    rw [hcode] at hfailure
    cases hfailure
  · obtain ⟨x, hx, hout⟩ := Option.map_eq_some_iff.mp hrootPath
    obtain ⟨hok, hmode⟩ := Prod.mk.inj hout
    exact Bool.false_ne_true (hmode.symm.trans (h.directory hx hok (by decide)))

end Filesystem

end FilesystemCli

end DeltaFs
