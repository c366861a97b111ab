import DeltaFs.Requests
import DeltaFs.Servers

/-!
# How a client reaches its servers

A client that has a `Filesystem` of its own calls its methods; any other has a stub for
each server, and what it asks for travels: the request in a buffer of 200 bytes, the
reply with five of the nine fields of a stat and no text of an error. `Access` is which of
the two a site has, and `Access.server` what its clients see of the servers then.

Both ways end in the same methods (`Cluster.asServer`), so everything said of these holds
over stubs too, up to what a reply leaves out: `Access.reply` names that, and
`server_lokup`, `server_mkfle`, `server_mkdir` and `server_lstat` say that it is all. A
request that does not fit its buffer stops the client at an assertion. The contents are
then `none`, nothing that follows has a meaning, and results are about requests that fit
(`Access.fits`).
-/

namespace DeltaFs

open FilesystemCli

namespace Filesystem

/-- The methods of a filesystem as a stub or a client calls them, where `stat` is what
their output parameter holds before. `Mkfls` and `Bukin` are those of handles; operations
on paths do not call them, and they have no result here. -/
def method (fs : Filesystem) (ts : UInt64) (c : Call) (stat : Stat) : StateT Content Option Rpc.Output :=
  fun d =>
    match c.req with
    | .lokup name =>
      let r := (fs.server ts).lokup d c.who c.parent name
      match r.2 with
      | .ok look => some (⟨.ok, look, stat, 0⟩, r.1)
      | .error e => some (⟨.err e.1 e.2, Rpc.zeroLook, stat, 0⟩, r.1)
    | .mkfle name mode =>
      let r := (fs.server ts).mkfle d c.who c.parent name mode stat
      some (⟨r.2.1, Rpc.zeroLook, r.2.2, 0⟩, r.1)
    | .mkdir name mode =>
      let r := (fs.server ts).mkdir d c.who c.parent name mode stat
      some (⟨r.2.1, Rpc.zeroLook, r.2.2, 0⟩, r.1)
    | .lstat name =>
      let r := (fs.server ts).lstat d c.who c.parent name stat
      some (⟨r.2.1, Rpc.zeroLook, r.2.2, 0⟩, r.1)
    | .mkfls .. => none
    | .bukin _ => none

end Filesystem

namespace Site

open Cluster (Contents)

/-- What the clients of a site have been set up with. -/
inductive Access (cl : Cluster) where
  /-- `fs_`: the only server is in their process -/
  | fs (one : cl.n = 1)
  /-- `rpc_`: a stub for each server -/
  | rpc

namespace Access

variable {cl : Cluster} (a : Access cl) (ts : UInt64) (junk : Stat)

/-- What the output parameter of a method holds before: the caller's stat, or one on the
stack of the server, that nobody has initialised. -/
def given (stat : Stat) : Stat :=
  match a with
  | .fs _ => stat
  | .rpc => junk

/-- A request fits the buffer it is written to, if it is written to one. -/
def fits (req : Request) : Bool :=
  match a with
  | .fs _ => true
  | .rpc => (Rpc.bytes req).length ≤ Rpc.room req

/-- What the output parameters of a call hold once a method has returned `o`. -/
def heard (req : Request) (ret o : Rpc.Output) : Rpc.Output :=
  match a with
  | .fs _ => o
  | .rpc => Rpc.delivered req ret o

/-- A request to the server of a name. No result: an assertion has failed. -/
def call (c : Call) (name : Slice) (stat : Stat) (d : Contents) : Option (Contents × Rpc.Output) :=
  let i := selectServer cl.xx cl.n c.dirId name
  let fs := (cl.servers i).method ts
  match a with
  | .fs _ => (fs c stat (d i)).map fun r => (Function.update d i r.2, r.1)
  | .rpc =>
    match Rpc.client (Rpc.operation (fun c => fs c junk) c.req) c ⟨.ok, Rpc.zeroLook, stat, 0⟩ (d i) with
    | some (.ok o, d') => some (Function.update d i d', o)
    | _ => none

/-- A request that returns a stat. -/
def request (c : Call) (name : Slice) (stat : Stat) (d : Option Contents) :
    Option Contents × Status × Stat :=
  match d.bind (a.call ts junk c name stat) with
  | none => (none, .err .assertionFailed [], stat)
  | some (d, o) => (some d, o.status, o.stat)

/-- **The servers, as a client of the site sees them**: `none` once it has stopped. -/
def server : FilesystemCli.Server (Option Contents) where
  lokup d who p name :=
    match d.bind (a.call ts junk ⟨who, p, .lokup name⟩ name Rpc.noStat) with
    | none => (none, .error (.assertionFailed, []))
    | some (d, o) =>
      match o.status with
      | .ok => (some d, .ok o.look)
      | .err e msg => (some d, .error (e, msg))
  mkfle d who p name mode stat := a.request ts junk ⟨who, p, .mkfle name mode⟩ name stat d
  mkdir d who p name mode stat := a.request ts junk ⟨who, p, .mkdir name mode⟩ name stat d
  lstat d who p name stat := a.request ts junk ⟨who, p, .lstat name⟩ name stat d

/-! ## What a reply leaves out

A stub hears of a method less than the method returns. Of an error only the code travels, and of
a stat five fields; the other four are then what the caller's `Stat` held before. A lookup stat
travels whole. `reply` says this once for all methods, so that what is proved of the servers'
results carries over to what their clients see of them. -/

/-- The text of an error. -/
def text (msg : Slice) : Slice :=
  match a with
  | .fs _ => msg
  | .rpc => []

/-- A status. -/
def said : Status → Status
  | .ok => .ok
  | .err e msg => .err e (a.text msg)

/-- The caller's stat, when the method has left `st` in its own. -/
def carried (stat st : Stat) : Stat :=
  match a with
  | .fs _ => st
  | .rpc => Rpc.mergeStat stat st

/-- And when it has failed: nothing is written then. -/
def left (stat st : Stat) : Stat :=
  match a with
  | .fs _ => st
  | .rpc => stat

/-- What a client gets of a result of the servers. -/
def reply (stat : Stat) (r : Contents × Status × Stat) : Option Contents × Status × Stat :=
  (some r.1, a.said r.2.1, if r.2.1.isOk then a.carried stat r.2.2 else a.left stat r.2.2)

variable {a ts junk}

theorem said_code (st : Status) : (a.said st).code = st.code := by cases st <;> rfl

/-! ## Requests

Each of the four requests on one name is `call` with the method's own arguments and the server
its name is routed to. So one lemma says what a request does (`call_eq`), and one what the
requests that return a stat have in common (`request_eq`); the lemma of each method is a case of
these. A request that does not fit its buffer fails an assertion of `Message`, and that is the
only way for a client to stop here. -/

variable {c : Call} {name : Slice} {stat : Stat} {d : Contents}

theorem map_run {σ α β : Type} (f : α → β) (x : StateT σ Option α) (s : σ) :
    (f <$> x) s = (x s).map fun r => (f r.1, r.2) := by
  show (x s).bind (fun r => some (f r.1, r.2)) = _
  cases x s with
  | none => rfl
  | some r => rfl

/-- A request that does not fit its buffer. -/
theorem client_of_not_fits {m : Type → Type} [Monad m] [LawfulMonad m]
    (rpc : Slice → m (Read (Status × Slice))) (ret : Rpc.Output) (hno : ¬Rpc.Fits c) :
    Rpc.client rpc c ret = pure .fault := by
  obtain ⟨who, parent, req⟩ := c
  have hbuf : Rpc.isBuffered req = true := by
    by_contra h
    exact hno fun h' => absurd h' h
  have hcall : ∀ {α : Type} (get : Slice → Read (α × Slice)) (r : α),
      Rpc.checkedCall rpc (Rpc.encode ⟨who, parent, req⟩) get r = pure .fault :=
    fun _ _ => if_neg fun h => hno fun _ => h
  cases req with
  | mkfls namearr mode n => cases hbuf
  | lokup name | mkdir name mode | mkfle name mode | bukin dir | lstat name =>
    refine (congrArg (· >>= _) (hcall _ _)).trans ?_
    rw [pure_bind]
    rfl

/-- **A request** is a call of the method, and a stub tells of it what a reply carries. A
request that does not fit is not sent: the client has stopped, and there is no result. -/
theorem call_eq (hbuf : Rpc.isBuffered c.req = true) :
    a.call ts junk c name stat d =
      if a.fits c.req then
        ((cl.servers (selectServer cl.xx cl.n c.dirId name)).method ts c (a.given junk stat)
            (d (selectServer cl.xx cl.n c.dirId name))).map fun r =>
          (Function.update d (selectServer cl.xx cl.n c.dirId name) r.2,
            a.heard c.req ⟨.ok, Rpc.zeroLook, stat, 0⟩ r.1)
      else none := by
  cases a with
  | fs one => rfl
  | rpc =>
    rw [call]
    by_cases hfits : (Rpc.bytes c.req).length ≤ Rpc.room c.req
    · have hroom : Rpc.Fits c := (Rpc.fits_iff hbuf).mpr hfits
      have hlen : (Rpc.bytes c.req).length < 2 ^ 32 :=
        ((Rpc.length_bytes_le c).trans (hroom hbuf)).trans_lt (by decide)
      have hyes : fits (.rpc : Access cl) c.req = true := decide_eq_true hfits
      rw [if_pos hyes]
      simp only [Rpc.client_operation _ hroom hlen]
      rw [map_run, given]
      cases (cl.servers (selectServer cl.xx cl.n c.dirId name)).method ts c junk
        (d (selectServer cl.xx cl.n c.dirId name)) with
      | none => rfl
      | some r => rfl
    · have hno : ¬Rpc.Fits c := fun h => hfits ((Rpc.fits_iff hbuf).mp h)
      have hnot : ¬fits (.rpc : Access cl) c.req = true := fun h => hfits (of_decide_eq_true h)
      rw [if_neg hnot]
      simp only [client_of_not_fits _ _ hno]
      rfl

/-- What the requests that return a stat have in common. -/
theorem request_eq {f : Filesystem → Filesystem.Content → Filesystem.Content × Status × Stat}
    (hbuf : Rpc.isBuffered c.req = true) (hstat : ∀ ret o, Rpc.delivered c.req ret o =
      if o.status.isOk then { ret with status := .ok, stat := Rpc.mergeStat ret.stat o.stat }
      else { ret with status := Rpc.received o.status })
    (hmethod : ∀ (fs : Filesystem) d, fs.method ts c (a.given junk stat) d =
      some (⟨(f fs d).2.1, Rpc.zeroLook, (f fs d).2.2, 0⟩, (f fs d).1)) :
    a.request ts junk c name stat (some d) =
      if a.fits c.req then a.reply stat (cl.route d c.dirId name f)
      else (none, .err .assertionFailed [], stat) := by
  rw [request, Option.bind_some, call_eq hbuf]
  by_cases hfits : a.fits c.req = true
  · rw [if_pos hfits, if_pos hfits, hmethod, Option.map_some, reply, Cluster.route]
    dsimp only
    generalize f (cl.servers (selectServer cl.xx cl.n c.dirId name))
      (d (selectServer cl.xx cl.n c.dirId name)) = r
    obtain ⟨d', st, st'⟩ := r
    cases a with
    | fs one => cases st <;> rfl
    | rpc =>
      simp only [heard, hstat]
      cases st <;> rfl
  · rw [if_neg hfits, if_neg hfits]

variable {who : User} {p : LookupStat} {mode : UInt32}

/-- **`Mkfle`** of the server of the name. -/
theorem server_mkfle : (a.server ts junk).mkfle (some d) who p name mode stat =
    if a.fits (.mkfle name mode) then
      a.reply stat ((cl.asServer ts).mkfle d who p name mode (a.given junk stat))
    else (none, .err .assertionFailed [], stat) :=
  request_eq (c := ⟨who, p, .mkfle name mode⟩)
    (f := fun fs d => (fs.server ts).mkfle d who p name mode (a.given junk stat)) rfl (fun _ _ => rfl)
    fun _ _ => rfl

/-- **`Mkdir`** of the server of the name. -/
theorem server_mkdir : (a.server ts junk).mkdir (some d) who p name mode stat =
    if a.fits (.mkdir name mode) then
      a.reply stat ((cl.asServer ts).mkdir d who p name mode (a.given junk stat))
    else (none, .err .assertionFailed [], stat) :=
  request_eq (c := ⟨who, p, .mkdir name mode⟩)
    (f := fun fs d => (fs.server ts).mkdir d who p name mode (a.given junk stat)) rfl (fun _ _ => rfl)
    fun _ _ => rfl

/-- **`Lstat`** of the server of the name. -/
theorem server_lstat : (a.server ts junk).lstat (some d) who p name stat =
    if a.fits (.lstat name) then
      a.reply stat ((cl.asServer ts).lstat d who p name (a.given junk stat))
    else (none, .err .assertionFailed [], stat) :=
  request_eq (c := ⟨who, p, .lstat name⟩)
    (f := fun fs d => (fs.server ts).lstat d who p name (a.given junk stat)) rfl (fun _ _ => rfl)
    fun _ _ => rfl

/-- **`Lokup`** of the server of the name: all of its result travels, but the text of an
error. -/
theorem server_lokup : (a.server ts junk).lokup (some d) who p name =
    if a.fits (.lokup name) then
      (some ((cl.asServer ts).lokup d who p name).1,
        ((cl.asServer ts).lokup d who p name).2.mapError fun e => (e.1, a.text e.2))
    else (none, .error (.assertionFailed, [])) := by
  obtain ⟨c, hc⟩ : ∃ c : Call, c = ⟨who, p, .lokup name⟩ := ⟨_, rfl⟩
  have hreq : c.req = .lokup name := by rw [hc]
  have hbuf : Rpc.isBuffered c.req = true := by rw [hreq]; rfl
  have hroute : (cl.asServer ts).lokup d who p name =
    cl.route d c.dirId name fun fs d => (fs.server ts).lokup d who p name := by rw [hc]; rfl
  have hmethod : ∀ (fs : Filesystem) d', fs.method ts c (a.given junk Rpc.noStat) d' =
      match ((fs.server ts).lokup d' who p name).2 with
      | .ok look => some (⟨.ok, look, a.given junk Rpc.noStat, 0⟩, ((fs.server ts).lokup d' who p name).1)
      | .error e => some (⟨.err e.1 e.2, Rpc.zeroLook, a.given junk Rpc.noStat, 0⟩,
          ((fs.server ts).lokup d' who p name).1) := by
    intro fs d'
    rw [hc]
    rfl
  rw [server]
  dsimp only
  rw [← hc, Option.bind_some, call_eq hbuf, hreq, hroute, Cluster.route]
  by_cases hfits : a.fits (.lokup name) = true
  · rw [if_pos hfits, if_pos hfits, hmethod]
    dsimp only
    generalize ((cl.servers (selectServer cl.xx cl.n c.dirId name)).server ts).lokup
      (d (selectServer cl.xx cl.n c.dirId name)) who p name = r
    obtain ⟨d', found⟩ := r
    cases found with
    | ok look => cases a <;> rfl
    | error e => cases a <;> rfl
  · rw [if_neg hfits, if_neg hfits]

/-! ## What leases know

A client looks a directory up once and follows its lease later, when the servers have moved on.
What keeps a lease right is that entries are only added: a directory that was there is still
there, with the same stat. A stopped client makes no more requests, so nothing need be said of
what it knows. -/

/-- What a regular lease knows, unless the client has stopped. -/
def Leased (cl : Cluster) (d : Option Contents) (id : DirId) (name : Slice) (mode : LokupMode)
    (rep : LookupStat) : Prop :=
  ∀ d', d = some d' → cl.Leased d' id name mode rep

theorem leased_some {id : DirId} {mode : LokupMode} {rep : LookupStat} :
    Leased cl (some d) id name mode rep ↔ cl.Leased d id name mode rep :=
  ⟨fun h => h d rfl, fun h _ hd' => Option.some.inj hd' ▸ h⟩

/-- **The requests keep what leases know**, fit or not. A request that does not fit leaves a
client that has stopped, of which nothing is said; one that fits does to the contents what
the method does. -/
theorem keeps_leased (hset : cl.SetUp) (opts : FilesystemCli.Options) :
    FilesystemCli.Client.Keeps opts (a.server ts junk) (fun mode => mode = .kRegular) (Leased cl) := by
  have hkeeps : FilesystemCli.Client.Keeps opts (cl.asServer ts) (fun mode => mode = .kRegular)
      cl.Leased := Cluster.keeps_leased hset opts
  have hstop : ∀ {id name mode rep}, Leased cl none id name mode rep := fun _ h => by cases h
  constructor
  · intro d who p name id k mode rep h
    cases d with
    | none => exact hstop
    | some d =>
      rw [server_lokup]
      split
      · exact leased_some.mpr (hkeeps.lokup (leased_some.mp h))
      · exact hstop
  · intro d who p name mode rep hmode hok h
    cases d with
    | none => exact hstop
    | some d =>
      rw [server_lokup] at h ⊢
      split at h
      · rename_i hfits
        rw [if_pos hfits]
        refine leased_some.mpr (hkeeps.found hmode hok ?_)
        cases hfound : ((cl.asServer ts).lokup d who p name).2 with
        | ok look =>
          rw [hfound] at h
          exact h
        | error e =>
          rw [hfound] at h
          cases h
      · cases h
  · intro d who p name m stat id k mode rep h
    cases d with
    | none => exact hstop
    | some d =>
      rw [server_mkfle]
      split
      · exact leased_some.mpr (hkeeps.mkfle (leased_some.mp h))
      · exact hstop
  · intro d who p name m stat id k mode rep h
    cases d with
    | none => exact hstop
    | some d =>
      rw [server_mkdir]
      split
      · exact leased_some.mpr (hkeeps.mkdir (leased_some.mp h))
      · exact hstop
  · intro d who p name stat id k mode rep h
    cases d with
    | none => exact hstop
    | some d =>
      rw [server_lstat]
      split
      · exact leased_some.mpr (hkeeps.lstat (leased_some.mp h))
      · exact hstop

end Access

end Site

end DeltaFs
