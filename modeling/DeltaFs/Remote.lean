import DeltaFs.Rpc

/-!
# What survives the wire

A client over a transport that delivers calls the method with its own arguments
and gets its status back (`call_transparent`); the stat of a reply carries five of
nine fields (`stat_delivered_iff`).

A method that returns a stat does so through a pointer, and what is behind the
pointer is not the same on both ways. A filesystem of the client's own is handed
the caller's stat; a server hands its method a stat on the stack that nobody has
initialised, and sends what it finds there afterwards. So a method takes what its
output parameter holds, and may leave it as it is: an `Lstat` of a filesystem
without any db returns OK and does.
-/

namespace DeltaFs

namespace Rpc

variable {m : Type → Type} [Monad m] {σ : Type}

/-! ## Calls are transparent

The request is encoded by the client and decoded by the server, and both are known to fit
together if the request fits its buffer. What is left is the way back, where the text of an
error and four fields of a stat are not carried. -/

/-- What a reply carries of the output of a method. -/
def Carried (req : Request) (o r : Output) : Prop :=
  match req with
  | .lokup _ => r.look = o.look
  | .mkfls _ _ _ => r.n = o.n
  | .bukin _ => True
  | _ => r.stat.dnodeNo = o.stat.dnodeNo ∧ r.stat.inodeNo = o.stat.inodeNo ∧
      r.stat.fileMode = o.stat.fileMode ∧ r.stat.userId = o.stat.userId ∧
      r.stat.groupId = o.stat.groupId

theorem carried_delivered {req : Request} {o : Output} (ho : o.status = .ok) (ret : Output) :
    Carried req o (delivered req ret o) := by
  cases req <;> simp [Carried, delivered, ho, mergeStat]

theorem delivered_status (req : Request) (ret o : Output) :
    (delivered req ret o).status = received o.status := by
  cases ho : o.status with
  | ok => cases req <;> simp [delivered, ho, received]
  | err c msg => simp [delivered, ho, received]

theorem received_code (st : Status) :
    (received st).isOk = st.isOk ∧ (received st).errCode = st.errCode := by
  cases st <;> exact ⟨rfl, rfl⟩

/-- A name array is shorter than its length prefix can say. -/
def Short : Request → Prop
  | .mkfls namearr _ _ => namearr.length < 2 ^ 32
  | _ => True

theorem short_bytes {c : Call} (hfits : Fits c) (hshort : Short c.req) :
    (bytes c.req).length < 2 ^ 32 := by
  cases hb : isBuffered c.req with
  | true =>
    have h := (length_bytes_le c).trans (hfits hb)
    exact h.trans_lt (by decide)
  | false =>
    cases hr : c.req with
    | mkfls namearr mode n =>
      rw [hr] at hshort
      exact hshort
    | lokup name => rw [hr] at hb; cases hb
    | mkdir name mode => rw [hr] at hb; cases hb
    | mkfle name mode => rw [hr] at hb; cases hb
    | bukin dir => rw [hr] at hb; cases hb
    | lstat name => rw [hr] at hb; cases hb

/-- **Calls are transparent**: over a transport that delivers to the operation
of a server, a client whose request fits its buffer makes the server call the
method once, with exactly its arguments; it returns OK when the method does,
the code of its error otherwise, and what the reply carries of its output. -/
theorem call_transparent [LawfulMonad m] (fs : Call → m Output) (c : Call) (ret : Output)
    (hfits : Fits c) (hshort : Short c.req) :
    ∃ f : Output → Output,
      client (operation fs c.req) c ret = (fun o => Read.ok (f o)) <$> fs c ∧
      ∀ o, (f o).status.isOk = o.status.isOk ∧ (f o).status.errCode = o.status.errCode ∧
        (o.status = .ok → Carried c.req o (f o)) := by
  refine ⟨delivered c.req ret, client_operation fs hfits (short_bytes hfits hshort) ret, fun o => ?_⟩
  rw [delivered_status]
  obtain ⟨hok, hcode⟩ := received_code o.status
  exact ⟨hok, hcode, fun ho => carried_delivered ho ret⟩

/-- The stats of nothing. -/
def zeroLook : LookupStat := ⟨0, 0, 0, 0, 0, 0, 0⟩
@[inherit_doc zeroLook] def noStat : Stat := ⟨0, 0, 0, 0, 0, 0, 0, 0, 0⟩
@[inherit_doc zeroLook] def noOutput : Output := ⟨.ok, zeroLook, noStat, 0⟩

/-- A `FilesystemIf` that logs its calls, and returns `o`. -/
def logged (o : Output) (c : Call) : StateM (List Call) Output := fun log => (o, log ++ [c])

/-- A directory made by a remote call. -/
theorem call_transparent_mkdir :
    ∃ f : Output → Output,
      client (operation (logged noOutput) (.mkdir (str "d") 7)) ⟨⟨1, 2⟩, zeroLook, .mkdir (str "d") 7⟩
        noOutput = (fun o => Read.ok (f o)) <$>
          logged noOutput ⟨⟨1, 2⟩, zeroLook, .mkdir (str "d") 7⟩ ∧
      ∀ o, (f o).status.isOk = o.status.isOk ∧ (f o).status.errCode = o.status.errCode ∧
        (o.status = .ok → Carried (.mkdir (str "d") 7) o (f o)) :=
  call_transparent (logged noOutput) ⟨⟨1, 2⟩, zeroLook, .mkdir (str "d") 7⟩ noOutput
    (fun _ => by decide) trivial

/-- The length of 2 ^ 32 bytes is written as zero, and what follows it are
the bytes themselves. -/
theorem decodeMkfls_wraps {tail : Slice} (h : (List.replicate 16 0 ++ tail).length = 2 ^ 32)
    (parent : LookupStat) (n mode : UInt32) (me : User) :
    decodeMkfls (mkflsRequest parent (List.replicate 16 0 ++ tail) n mode me) =
      .ok ⟨⟨0, 0⟩, parent, .mkfls [] 0 0⟩ := by
  have hwrap : putLengthPrefixedSlice [] (List.replicate 16 0 ++ tail) =
      putLengthPrefixedSlice [] [] ++ (List.replicate 16 0 ++ tail) := by
    rw [putLengthPrefixedSlice, h]
    rfl
  have hzero : (List.replicate 16 0 : Slice) =
      encodeUser ⟨0, 0⟩ ++ (encodeFixed32 0 ++ encodeFixed32 0) := by decide
  have hreq : mkflsRequest parent (List.replicate 16 0 ++ tail) n mode me =
      encodeHead kMkfls parent [] ⟨0, 0⟩ ++ (encodeFixed32 0 ++ (encodeFixed32 0 ++
        (tail ++ (encodeUser me ++ (encodeFixed32 n ++ encodeFixed32 mode))))) := by
    rw [mkflsRequest_eq, encodeHead, hwrap, hzero, encodeHead]
    simp only [List.append_assoc]
  rw [hreq, decodeMkfls, getHead_encodeHead (by decide)]
  simp only [ok_bind, getFixed32_encode]

/-- **A name array of 2 ^ 32 bytes** fits the string it is written to, but the
server calls the method with an empty one. -/
theorem mkfls_wraps :
    ∃ c : Call, Fits c ∧
      (client (operation (logged noOutput) c.req) c noOutput []).2 =
        [⟨⟨0, 0⟩, zeroLook, .mkfls [] 0 0⟩] ∧
      (client (operation (logged noOutput) c.req) c noOutput []).2 ≠ [c] := by
  obtain ⟨tail, htail⟩ : ∃ tail : Slice, (List.replicate 16 0 ++ tail).length = 2 ^ 32 :=
    ⟨List.replicate (2 ^ 32 - 16) 0, by simp only [List.length_append, List.length_replicate]; omega⟩
  have hcall : (client (operation (logged noOutput) (.mkfls (List.replicate 16 0 ++ tail) 0 0))
      ⟨⟨0, 0⟩, zeroLook, .mkfls (List.replicate 16 0 ++ tail) 0 0⟩ noOutput []).2 =
        [⟨⟨0, 0⟩, zeroLook, .mkfls [] 0 0⟩] := by
    have hcall := finishCall_serve (decodeMkfls_wraps htail zeroLook 0 0 ⟨0, 0⟩)
      (fun o => getFixed32_encode' o.n) (logged noOutput) noOutput.n
    exact congrArg (fun x : StateM (List Call) (Read Output) => (x []).2)
      (client_of_map hcall fun r => r >>= fun x => .ok { noOutput with status := x.1, n := x.2 })
  refine ⟨⟨⟨0, 0⟩, zeroLook, .mkfls (List.replicate 16 0 ++ tail) 0 0⟩, fun h => ?_, hcall, ?_⟩
  · cases h
  · rw [hcall]
    intro heq
    have hreq := congrArg (fun l : List Call => l.map fun c => (bytes c.req).length) heq
    simp only [List.map_cons, List.map_nil, bytes, htail] at hreq
    cases hreq

/-! ## Stats

With a filesystem of its own a client hands its caller's `Stat` to the method, which may or may
not write it. With a server the method writes a stat of the server's, and the reply is merged
into the caller's. For a method that fills in its stat the two agree exactly if the request fits
its buffer and the caller's stat held the four fields already. -/

/-- What a client sends its requests to: a filesystem of its own, a server, or
nothing. -/
inductive Backend (m : Type → Type) where
  /-- `fs_`: its methods are called with what the caller's stat holds -/
  | fs (fs : Call → Stat → m Output)
  /-- `rpc_` -/
  | rpc (stub : Slice → m (Read (Status × Slice)))
  | none

/-- `Nofs`. -/
def nofs : Status := .err .assertionFailed (str "No filesystem backend")

/-- What `Mkfle2`, `Mkdir2` and `Lstat2` share, for a permission check `ok` and
the message of its failure. -/
def request2 (ok : Bool) (msg : String) (b : Backend m)
    (cli : (Slice → m (Read (Status × Slice))) → m (Read (Status × Stat))) (c : Call)
    (stat : Stat) : m (Read (Status × Stat)) :=
  if ok = false then pure (.ok (.err .accessDenied (str msg), stat))
  else
    match b with
    | .fs fs => do
      let o ← fs c stat
      pure (.ok (o.status, o.stat))
    | .rpc stub => cli stub
    | .none => pure (.ok (nofs, stat))

/-- `Mkfle2`. -/
def mkfle2 (skipPermChecks : Bool) (b : Backend m) (who : User) (p : LookupStat) (name : Slice)
    (mode : UInt32) (stat : Stat) : m (Read (Status × Stat)) :=
  request2 (isDirWriteOk skipPermChecks p who) "No write perm" b
    (fun stub => mkfleCli stub p name mode who stat) ⟨who, p, .mkfle name mode⟩ stat

/-- `Mkdir2`. -/
def mkdir2 (skipPermChecks : Bool) (b : Backend m) (who : User) (p : LookupStat) (name : Slice)
    (mode : UInt32) (stat : Stat) : m (Read (Status × Stat)) :=
  request2 (isDirWriteOk skipPermChecks p who) "No write perm" b
    (fun stub => mkdirCli stub p name mode who stat) ⟨who, p, .mkdir name mode⟩ stat

/-- `Lstat2`. -/
def lstat2 (skipPermChecks : Bool) (b : Backend m) (who : User) (p : LookupStat) (name : Slice)
    (stat : Stat) : m (Read (Status × Stat)) :=
  request2 (isLookupOk skipPermChecks p who) "No x perm" b
    (fun stub => lstatCli stub p name who stat) ⟨who, p, .lstat name⟩ stat

/-- The requests that return a stat. -/
inductive StatRequest where
  | mkfle (name : Slice) (mode : UInt32)
  | mkdir (name : Slice) (mode : UInt32)
  | lstat (name : Slice)

/-- The request. -/
def StatRequest.toRequest : StatRequest → Request
  | .mkfle name mode => .mkfle name mode
  | .mkdir name mode => .mkdir name mode
  | .lstat name => .lstat name

/-- `Mkfle2`, `Mkdir2` or `Lstat2`. -/
def statCall (skipPermChecks : Bool) (b : Backend m) (who : User) (p : LookupStat)
    (r : StatRequest) (stat : Stat) : m (Read (Status × Stat)) :=
  match r with
  | .mkfle name mode => mkfle2 skipPermChecks b who p name mode stat
  | .mkdir name mode => mkdir2 skipPermChecks b who p name mode stat
  | .lstat name => lstat2 skipPermChecks b who p name stat

/-- The request of a call, as the server reads it. -/
def StatRequest.toCall (who : User) (p : LookupStat) (r : StatRequest) : Call :=
  ⟨who, p, r.toRequest⟩

/-- A method that has returned `o` answers with the stat `here`, as far as a reply
carries it. -/
structure Answers (o : Output) (here : Stat) : Prop where
  status : o.status = .ok
  dnodeNo : o.stat.dnodeNo = here.dnodeNo
  inodeNo : o.stat.inodeNo = here.inodeNo
  fileMode : o.stat.fileMode = here.fileMode
  userId : o.stat.userId = here.userId
  groupId : o.stat.groupId = here.groupId

/-- A stat holds what a reply does not carry. -/
structure Held (stat here : Stat) : Prop where
  fileSize : stat.fileSize = here.fileSize
  modifyTime : stat.modifyTime = here.modifyTime
  changeTime : stat.changeTime = here.changeTime
  zerothServer : stat.zerothServer = here.zerothServer

/-- A method fills in its stat: what the stat held before makes no difference. -/
def Fills (fs : Call → Stat → StateM σ Output) (c : Call) (s : σ) : Prop :=
  ∀ a b : Stat, fs c a s = fs c b s

/-- The stat of a reply, on top of the caller's. -/
theorem mergeStat_eq_iff (stat st here : Stat) :
    mergeStat stat st = here ↔ (st.dnodeNo = here.dnodeNo ∧ st.inodeNo = here.inodeNo ∧
      st.fileMode = here.fileMode ∧ st.userId = here.userId ∧ st.groupId = here.groupId) ∧
        Held stat here := by
  obtain ⟨dno, ino, size, mode, zsrv, uid, gid, mtime, ctime⟩ := here
  simp only [mergeStat, Stat.mk.injEq]
  constructor
  · rintro ⟨h₁, h₂, h₃, h₄, h₅, h₆, h₇, h₈, h₉⟩
    exact ⟨⟨h₁, h₂, h₄, h₆, h₇⟩, ⟨h₃, h₈, h₉, h₅⟩⟩
  · rintro ⟨⟨h₁, h₂, h₄, h₆, h₇⟩, ⟨h₃, h₈, h₉, h₅⟩⟩
    exact ⟨h₁, h₂, h₃, h₄, h₅, h₆, h₇, h₈, h₉⟩

/-- A call that succeeds on a filesystem of the client's own. -/
theorem request2_fs {fs : Call → Stat → StateM σ Output} {ok : Bool} {msg : String}
    (cli : (Slice → StateM σ (Read (Status × Slice))) → StateM σ (Read (Status × Stat))) {c : Call}
    {stat st : Stat} {s : σ} (h : (request2 ok msg (.fs fs) cli c stat s).1 = .ok (.ok, st)) :
    ok = true ∧ (fs c stat s).1.status = .ok ∧ (fs c stat s).1.stat = st := by
  cases ok with
  | false =>
    have hdenied : Status.err .accessDenied (str msg) = .ok :=
      congrArg Prod.fst (Read.ok.inj h)
    cases hdenied
  | true =>
    have hpair : ((fs c stat s).1.status, (fs c stat s).1.stat) = (Status.ok, st) := Read.ok.inj h
    obtain ⟨hst, hstat⟩ := Prod.mk.inj hpair
    exact ⟨rfl, hst, hstat⟩

/-- **A call over a server** succeeds with a stat when the request fits its buffer,
the method answers with it, and the caller held the rest. -/
theorem checkedCall_stat {fs : Call → StateM σ Output} {decode : Slice → Read Call}
    {request : Slice} {c : Call} {stat here : Stat} {s : σ} (hdec : request.length ≤ bufSize →
      decode request = .ok c) :
    (checkedCall (serve decode (fun o => encodeStat o.stat) fs) request (getStat stat) stat
      s).1 = .ok (.ok, here) ↔
      request.length ≤ bufSize ∧ Answers (fs c s).1 here ∧ Held stat here := by
  by_cases hfits : request.length ≤ bufSize
  swap
  · rw [checkedCall, if_neg hfits]
    exact iff_of_false (fun h => by cases h) fun h => hfits h.1
  have hget : ∀ o : Output, getStat stat (encodeStat o.stat) =
      .ok (mergeStat stat o.stat, []) := fun o => getStat_encode' stat o.stat
  rw [checkedCall_serve hfits (hdec hfits) hget]
  -- the client returns the status and the merged stat of the method's output
  have hpair : ((fun o => Read.ok (received o.status, if o.status.isOk then mergeStat stat o.stat
      else stat)) <$> fs c : StateM σ (Read (Status × Stat))) s =
      (.ok (received (fs c s).1.status, if (fs c s).1.status.isOk then
        mergeStat stat (fs c s).1.stat else stat), (fs c s).2) := rfl
  rw [hpair]
  constructor
  · intro h
    obtain ⟨hst, hstat⟩ := Prod.mk.inj (Read.ok.inj h)
    cases hs : (fs c s).1.status with
    | err code msg =>
      rw [hs] at hst
      cases hst
    | ok =>
      rw [hs, Status.isOk_ok, if_pos rfl] at hstat
      obtain ⟨⟨h₁, h₂, h₃, h₄, h₅⟩, hheld⟩ := (mergeStat_eq_iff ..).mp hstat
      exact ⟨hfits, ⟨hs, h₁, h₂, h₃, h₄, h₅⟩, hheld⟩
  · rintro ⟨-, ⟨hs, h₁, h₂, h₃, h₄, h₅⟩, hheld⟩
    rw [hs, Status.isOk_ok, if_pos rfl, (mergeStat_eq_iff ..).mpr ⟨⟨h₁, h₂, h₃, h₄, h₅⟩, hheld⟩]
    rfl

/-- **When a server delivers the stat** a filesystem of the client's own delivers.
Whatever the method does, and whatever the server's own stat held (`junk`), three
things decide: the request fits the buffer it is written to, what the method
leaves in the server's stat has the five fields a reply carries, and the caller's
stat already held the size, the times and the zeroth server. The second is no
condition for a method that fills in its stat. -/
theorem stat_delivered_iff {skipPermChecks : Bool} {fs : Call → Stat → StateM σ Output} {who : User}
    {p : LookupStat} {r : StatRequest} {stat here : Stat} {s : σ} (junk : Stat)
    (hlocal : (statCall skipPermChecks (.fs fs) who p r stat s).1 = .ok (.ok, here)) :
    ((statCall skipPermChecks (.rpc (operation (fun c => fs c junk) r.toRequest)) who p r stat s).1 =
        .ok (.ok, here) ↔
      Fits (r.toCall who p) ∧ Answers (fs (r.toCall who p) junk s).1 here ∧ Held stat here) ∧
    (Fills fs (r.toCall who p) s →
      ((statCall skipPermChecks (.rpc (operation (fun c => fs c junk) r.toRequest)) who p r stat
          s).1 = .ok (.ok, here) ↔
        Fits (r.toCall who p) ∧ Held stat here)) := by
  have hlen : ∀ {c : Call}, (encode c).length ≤ bufSize → (bytes c.req).length < 2 ^ 32 :=
    fun h => ((length_bytes_le _).trans h).trans_lt (by decide)
  have hfits : Fits (r.toCall who p) ↔ (encode (r.toCall who p)).length ≤ bufSize := by
    cases r with
    | mkfle name mode => exact ⟨fun h => h rfl, fun h _ => h⟩
    | mkdir name mode => exact ⟨fun h => h rfl, fun h _ => h⟩
    | lstat name => exact ⟨fun h => h rfl, fun h _ => h⟩
  -- the local call has passed the permission check and the method
  have hone : (fs (r.toCall who p) stat s).1.status = .ok ∧ (fs (r.toCall who p) stat s).1.stat = here ∧
      ((statCall skipPermChecks (.rpc (operation (fun c => fs c junk) r.toRequest)) who p r stat
          s).1 = .ok (.ok, here) ↔
        Fits (r.toCall who p) ∧ Answers (fs (r.toCall who p) junk s).1 here ∧ Held stat here) := by
    rw [hfits]
    cases r with
    | mkfle name mode =>
      rw [statCall, mkfle2] at hlocal
      obtain ⟨hperm, hok, hstat⟩ := request2_fs _ hlocal
      refine ⟨hok, hstat, ?_⟩
      rw [statCall, mkfle2, request2, hperm, if_neg (by decide)]
      exact checkedCall_stat fun h => decodeMkfle_request
        (hlen (c := ⟨who, p, .mkfle name mode⟩) h) p mode who
    | mkdir name mode =>
      rw [statCall, mkdir2] at hlocal
      obtain ⟨hperm, hok, hstat⟩ := request2_fs _ hlocal
      refine ⟨hok, hstat, ?_⟩
      rw [statCall, mkdir2, request2, hperm, if_neg (by decide)]
      exact checkedCall_stat fun h => decodeMkdir_request
        (hlen (c := ⟨who, p, .mkdir name mode⟩) h) p mode who
    | lstat name =>
      rw [statCall, lstat2] at hlocal
      obtain ⟨hperm, hok, hstat⟩ := request2_fs _ hlocal
      refine ⟨hok, hstat, ?_⟩
      rw [statCall, lstat2, request2, hperm, if_neg (by decide)]
      exact checkedCall_stat fun h => decodeLstat_request
        (hlen (c := ⟨who, p, .lstat name⟩) h) p who
  obtain ⟨hok, hstat, hiff⟩ := hone
  refine ⟨hiff, fun hfills => ?_⟩
  have hanswers : Answers (fs (r.toCall who p) junk s).1 here := by
    rw [hfills junk stat]
    exact ⟨hok, by rw [hstat], by rw [hstat], by rw [hstat], by rw [hstat], by rw [hstat]⟩
  rw [hiff]
  exact ⟨fun h => ⟨h.1, h.2.2⟩, fun h => ⟨h.1, hanswers, h.2⟩⟩

/-- A filesystem whose only record is `st`. -/
def single (st : Stat) : Call → Stat → StateM Unit Output := fun _ _ => pure ⟨.ok, zeroLook, st, 0⟩

/-- The file of the tests: two bytes, made at 10 and changed at 20. -/
def twoBytes : Stat := ⟨0, 5, 2, 0o100644, 3, 1, 1, 20, 10⟩

/-- A caller whose stat held all of the record but its inode number gets the
record from a server whose own stat was zero. -/
theorem stat_delivered_iff_same :
    (statCall false (.rpc (operation (fun c => single twoBytes c noStat) (.lstat (str "f")))) ⟨0, 0⟩
      zeroLook (.lstat (str "f")) { twoBytes with inodeNo := 9 } ()).1 = .ok (.ok, twoBytes) := by
  have hlocal : (statCall false (.fs (single twoBytes)) ⟨0, 0⟩ zeroLook (.lstat (str "f"))
      { twoBytes with inodeNo := 9 } ()).1 = .ok (.ok, twoBytes) := by decide +kernel
  refine (stat_delivered_iff noStat hlocal).1.mpr ⟨fun _ => by decide, ?_, ?_⟩
  · exact ⟨rfl, rfl, rfl, rfl, rfl, rfl⟩
  · exact ⟨rfl, rfl, rfl, rfl⟩

/-- **A caller whose stat was zero** gets a size of zero from a server, and the
size of the file from a filesystem of its own. -/
theorem stat_lost :
    (statCall false (.fs (single twoBytes)) ⟨0, 0⟩ zeroLook (.lstat (str "f")) noStat ()).1 =
      .ok (.ok, twoBytes) ∧
    ∃ there, (statCall false (.rpc (operation (fun c => single twoBytes c noStat)
      (.lstat (str "f")))) ⟨0, 0⟩ zeroLook (.lstat (str "f")) noStat ()).1 = .ok (.ok, there) ∧
        there ≠ twoBytes :=
  ⟨by decide +kernel, ⟨0, 5, 0, 0o100644, 0, 1, 1, 0, 0⟩, by decide +kernel, by decide⟩

end Rpc

end DeltaFs
