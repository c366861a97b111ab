import DeltaFs.Compactor
import DeltaFs.Placement

/-!
# Clients and servers agree on where an entry is

A cluster of `n` servers and any number of clients. A client, a server and the
compactor each make the index of a directory on their own: from a lookup stat,
from a directory id, and from the first bytes of a key. They select the same
server for every name. So a request goes to the server that answers for its
name, no matter in which order requests are sent, delivered and served.

For the runs, each kind of party has an invariant of its own: what a client has under way
is on its way to the server it has selected, and what a server works on has come to the
right one. A step of one party leaves the others as they are (`run_inv`).
-/

namespace DeltaFs

open Linearization TransitionSystem FilesystemCli

/-- A server's place in a cluster of `n` servers. -/
structure IsServer (xx : XXHash) (n : Nat) (fs : Filesystem) (i : Nat) : Prop where
  xx : fs.xx = xx
  vsrvs : fs.options.vsrvs = n
  nsrvs : fs.options.nsrvs = n
  srvid : fs.options.srvid = (i : Int)

/-- A cluster, with the number of servers `DirIndex` can handle. -/
structure Cluster where
  xx : XXHash
  n : Nat
  pos : 0 < n
  le : n ≤ 65536
  servers : Nat → Filesystem
  server : ∀ i < n, IsServer xx n (servers i) i
  /-- `skip_perm_checks` of each client -/
  skipPermChecks : Nat → Bool

namespace Cluster

/-- A request on its way, with what the output parameter holds. -/
structure Message where
  dst : Nat
  call : Call
  stat : Stat

/-- Where a client's thread has got to. -/
inductive ActPc where
  /-- before `AcquireDir` -/
  | entered
  /-- before `Fetch1` -/
  | fetching
  /-- before the request is sent -/
  | ready
  /-- before giving the directory back -/
  | sent
  | done

/-- An operation of a client, with the locals of its thread. -/
structure Act where
  call : Call
  pc : ActPc
  /-- the control block it references -/
  dir : Option Nat
  /-- `i`, the index of the partition that holds the name -/
  index : Option Nat

/-- A client: its directories, and all operations in the order of their
invocation. -/
structure Client where
  dirs : Dirs
  acts : List Act

/-- The state of a cluster. -/
structure State where
  servers : Nat → Filesystem.State
  clients : Nat → Client
  /-- requests in flight -/
  net : List Message

/-- What a step is. -/
inductive Label where
  /-- client `j` starts an operation -/
  | start (j : Nat) (c : Call)
  /-- the next section of operation `k` of client `j` -/
  | client (j k : Nat) (stat : Stat)
  /-- request `m` in flight arrives -/
  | deliver (m : Nat)
  /-- the next section of operation `k` of server `i` -/
  | server (i k : Nat) (e : Filesystem.Env)

variable (cl : Cluster)

/-- The permission check of a client: `IsLookupOk`, or `IsDirWriteOk`. -/
def isPermOk (j : Nat) (c : Call) : Bool :=
  if c.isLookup then isLookupOk (cl.skipPermChecks j) c.parent c.who
  else isDirWriteOk (cl.skipPermChecks j) c.parent c.who

/-- The entry points of a client hand on single, non-empty names. -/
def isNamed (c : Call) : Bool :=
  match c.name? with
  | none => false
  | some name => name ≠ []

/-- The next section of an operation of client `j`: `AcquireDir`, `Fetch1`, the
request, and `Release(Dir*)`. A request that goes through a partition's block
goes to the index the block was acquired for. -/
def advance (j : Nat) (c : Client) (k : Nat) (stat : Stat) : Option (Client × List Message) :=
  match c.acts[k]? with
  | none => none
  | some a =>
    match a.pc with
    | .entered =>
      (c.dirs.acquireDir a.call.dirId).map fun r =>
        (⟨r.1, c.acts.set k { a with dir := some r.2, pc := .fetching }⟩, [])
    | .fetching =>
      match a.dir, a.call.name? with
      | some p, some name =>
        (c.dirs.fetch cl.xx cl.n p name).map fun r =>
          (⟨r.1, c.acts.set k { a with index := r.2, pc := .ready }⟩, [])
      | _, _ => none
    | .ready =>
      match a.index with
      | none => none
      | some i =>
        let acts := c.acts.set k { a with pc := .sent }
        if cl.isPermOk j a.call then some (⟨c.dirs, acts⟩, [⟨i, a.call, stat⟩])
        else some (⟨c.dirs, acts⟩, [])
    | .sent =>
      match a.dir with
      | none => none
      | some p =>
        (c.dirs.release p).map fun t =>
          (⟨t, c.acts.set k { a with dir := none, pc := .done }⟩, [])
    | .done => none

/-- Server `i` takes a step. -/
def stepServer (s : State) (i : Nat) (l : Filesystem.Label) :
    Option (State × List (Nat × FsEvent)) :=
  ((cl.servers i).step (s.servers i) l).map fun r =>
    ({ s with servers := Function.update s.servers i r.1 }, r.2.map fun ev => (i, ev))

/-- One step. -/
def step (s : State) : Label → Option (State × List (Nat × FsEvent))
  | .start j c =>
    if isNamed c then
      let acts := (s.clients j).acts ++ [⟨c, .entered, none, none⟩]
      some ({ s with
        clients := Function.update s.clients j { s.clients j with acts := acts } }, [])
    else none
  | .client j k stat =>
    (cl.advance j (s.clients j) k stat).map fun r =>
      ({ s with clients := Function.update s.clients j r.1, net := s.net ++ r.2 }, [])
  | .deliver m =>
    match s.net[m]? with
    | none => none
    | some msg => cl.stepServer { s with net := s.net.eraseIdx m } msg.dst (.call msg.call msg.stat)
  | .server i k e => cl.stepServer s i (.advance k e)

/-- A cluster whose servers have been opened on `dbs`. -/
def system (dbs : Nat → Db) : TransitionSystem State Label (Nat × FsEvent) where
  init s := (∀ i, s.servers i = (cl.servers i).start (some (dbs i))) ∧
    (∀ j, s.clients j = ⟨Dirs.empty, []⟩) ∧ s.net = []
  step := cl.step

/-- Requests about directories whose number fits a key. -/
def Label.Fits : Label → Prop
  | .start _ c => c.dirId.Fits
  | _ => True

instance : (l : Label) → Decidable l.Fits
  | .start _ c => inferInstanceAs (Decidable c.dirId.Fits)
  | .client _ _ _ => inferInstanceAs (Decidable True)
  | .deliver _ => inferInstanceAs (Decidable True)
  | .server _ _ _ => inferInstanceAs (Decidable True)

/-! ## The three indices agree

All three are built from the zeroth server of the directory and the number of servers. A client
learns the zeroth server from a lookup stat; a server and the compactor compute it from the id
of the directory. That these are the same number is all there is to show: what follows is one
function of it. -/

variable {cl} {i j k : Nat} {id : DirId} {name : Slice}

theorem selectServer_lt (cl : Cluster) (id : DirId) (name : Slice) :
    selectServer cl.xx cl.n id name < cl.n := DirIndex.selectServer_lt _ cl.xx name cl.pos

/-- A server answers for the names its clients select it for. -/
theorem serves_iff (hi : i < cl.n) :
    (cl.servers i).Serves id name ↔ i = selectServer cl.xx cl.n id name := by
  have hs := cl.server i hi
  rw [Filesystem.Serves, Filesystem.index, hs.xx, hs.vsrvs, hs.nsrvs, hs.srvid]
  exact Int.ofNat_inj

/-! ## Clients

An operation of a client takes its block, computes the index, and sends the request. What it
knows at each point (`Act.Ok`) is little: its block is that of its directory, and once it has an
index, this is the one the server will compute. -/

/-- What an operation of a client knows. -/
structure Act.Ok (cl : Cluster) (t : Dirs) (a : Act) : Prop where
  fits : a.call.dirId.Fits
  named : ∃ name, a.call.name? = some name ∧ name ≠ []
  /-- its block is that of its directory -/
  block : ∀ p, a.dir = some p → ∃ d, t.mem p = some d ∧ d.id = a.call.dirId
  free : a.pc = .entered → a.dir = none
  /-- its index is that of its name -/
  index : ∀ i name, a.index = some i → a.call.name? = some name →
    i = selectServer cl.xx cl.n a.call.dirId name

/-- The invariant of a client. -/
structure Client.Inv (cl : Cluster) (c : Client) : Prop where
  dirs : c.dirs.Inv cl.xx cl.n (holders Act.dir c.acts)
  acts : ∀ {k : Nat} {a : Act}, c.acts[k]? = some a → a.Ok cl c.dirs

variable {c c' : Client} {a a' : Act} {t : Dirs} {ms : List Message}

theorem Client.Inv.empty (cl : Cluster) : Client.Inv cl ⟨Dirs.empty, []⟩ where
  dirs := Dirs.Inv.empty cl.xx cl.n
  acts hk := by cases hk

/-- An operation starts. -/
theorem Client.Inv.push (hc : c.Inv cl) {call : Call} (hfits : call.dirId.Fits)
    (hnamed : isNamed call = true) :
    Client.Inv cl ⟨c.dirs, c.acts ++ [⟨call, .entered, none, none⟩]⟩ where
  dirs := by
    rw [holders_push _ rfl]
    exact hc.dirs
  acts {k a} hk := by
    rcases pool_push hk with ⟨-, rfl⟩ | hk
    · refine ⟨hfits, ?_, fun p hp => ?_, fun _ => rfl, fun i x hi _ => ?_⟩
      · rw [isNamed] at hnamed
        split at hnamed
        · cases hnamed
        · rename_i name hname
          exact ⟨name, hname, of_decide_eq_true hnamed⟩
      · cases hp
      · cases hi
    · exact hc.acts hk

/-- An operation moves, and the directories with it. -/
theorem Client.Inv.move (hc : c.Inv cl)
    (ht : t.Inv cl.xx cl.n (holders Act.dir (c.acts.set k a')))
    (hkeeps : Dirs.Keeps c.dirs t (holders Act.dir (c.acts.set k a'))) (ha' : a'.Ok cl t) :
    Client.Inv cl ⟨t, c.acts.set k a'⟩ where
  dirs := ht
  acts {j b} hj := by
    rcases pool_set hj with ⟨-, rfl⟩ | ⟨hjk, hold⟩
    · exact ha'
    · have hb := hc.acts hold
      refine ⟨hb.fits, hb.named, fun p hp => ?_, hb.free, hb.index⟩
      obtain ⟨d, hd, hid⟩ := hb.block p hp
      obtain ⟨d', hd', hid'⟩ := hkeeps hd (holders_pos hj hp)
      exact ⟨d', hd', hid'.trans hid⟩

theorem keeps_refl (t : Dirs) (ext : Nat → Nat) : Dirs.Keeps t t ext :=
  fun hp _ => ⟨_, hp, rfl⟩

/-- **A section of a client** keeps its invariant, and sends what it sends to
the server of the name. -/
theorem Client.Inv.advance (hc : c.Inv cl) {stat : Stat}
    (h : cl.advance j c k stat = some (c', ms)) :
    c'.Inv cl ∧ ∀ m ∈ ms, m.call.dirId.Fits ∧
      ∃ name, m.call.name? = some name ∧ m.dst = selectServer cl.xx cl.n m.call.dirId name := by
  rw [Cluster.advance] at h
  split at h
  · cases h
  rename_i a hk
  have ha := hc.acts hk
  split at h
  -- the directory is looked up in the client's cache: a reference more to its block
  case h_1 hpc =>
    obtain ⟨t', p, d, hacq, ht, hd, hid, hkeeps⟩ := hc.dirs.acquireDir a.call.dirId
    rw [hacq] at h
    cases h
    have hheld := holders_acquire (a := { a with dir := some p, pc := .fetching }) hk
      (ha.free hpc) (p := p) rfl
    rw [← hheld] at ht hkeeps
    refine ⟨hc.move ht hkeeps ⟨ha.fits, ha.named, ?_, ?_, ha.index⟩, ?_⟩
    · rintro q hq
      cases hq
      exact ⟨d, hd, hid⟩
    · intro hpc'
      cases hpc'
    · intro m hm
      cases hm
  -- the index is fetched: from here on the action knows a partition, and it is the
  -- one every index of this directory gives for the name
  case h_2 hpc =>
    split at h
    case h_2 => cases h
    rename_i p name hp hname
    obtain ⟨d, hd, hid⟩ := ha.block p hp
    obtain ⟨t', i, d', hfetch, ht, hd', hid', hkeeps, hsel⟩ := hc.dirs.fetch hd name
    rw [hfetch] at h
    cases h
    have hheld : holders Act.dir (c.acts.set k { a with index := i, pc := .ready }) =
        holders Act.dir c.acts := holders_set hk rfl
    rw [← hheld] at ht hkeeps
    refine ⟨hc.move ht hkeeps ⟨ha.fits, ha.named, ?_, ?_, ?_⟩, ?_⟩
    · rintro q hq
      obtain rfl := Option.some.inj (hp.symm.trans hq)
      exact ⟨d', hd', hid'.trans hid⟩
    · intro hpc'
      cases hpc'
    · intro i' name' hi' hname'
      obtain rfl := Option.some.inj (hname.symm.trans hname')
      obtain ⟨x, hx, hne⟩ := ha.named
      obtain rfl := Option.some.inj (hname.symm.trans hx)
      have hi : i = some i' := hi'
      rw [hsel hne] at hi
      rw [← hid]
      exact (Option.some.inj hi).symm
    · intro m hm
      cases hm
  -- the request goes out, to the server that partition is on
  case h_3 hpc =>
    split at h
    · cases h
    rename_i i hi
    have hheld : holders Act.dir (c.acts.set k { a with pc := .sent }) =
        holders Act.dir c.acts := holders_set hk rfl
    have hmoved : Client.Inv cl ⟨c.dirs, c.acts.set k { a with pc := .sent }⟩ := by
      refine hc.move ?_ (keeps_refl _ _) ⟨ha.fits, ha.named, ha.block, ?_, ha.index⟩
      · rw [hheld]
        exact hc.dirs
      · intro hpc'
        cases hpc'
    obtain ⟨name, hname, -⟩ := ha.named
    dsimp only at h
    split at h
    · cases h
      refine ⟨hmoved, fun m hm => ?_⟩
      rw [List.mem_singleton.mp hm]
      exact ⟨ha.fits, name, hname, ha.index i name hi hname⟩
    · cases h
      refine ⟨hmoved, fun m hm => ?_⟩
      cases hm
  -- the block is given back
  case h_4 hpc =>
    split at h
    · cases h
    rename_i p hp
    obtain ⟨t', hrel, ht, hkeeps⟩ := hc.dirs.release (holders_pos hk hp)
    rw [hrel] at h
    cases h
    have hheld := holders_release (a := { a with dir := none, pc := .done }) hk hp rfl
    rw [← hheld] at ht hkeeps
    refine ⟨hc.move ht hkeeps ⟨ha.fits, ha.named, ?_, fun _ => rfl, ha.index⟩, ?_⟩
    · intro q hq
      cases hq
    · intro m hm
      cases hm
  case h_5 => cases h

/-! ## Runs of a cluster

A step of the cluster is a step of one client, of one server, or of the network, which keeps
requests for any time and delivers them in any order. Requests on the way are routed, so each
server sees only routed ones, and its run is one of `Filesystem` under that condition. What has
been proved of single servers is used through this. -/

/-- The events of server `i`. -/
def eventsAt (i : Nat) (tr : List (Nat × FsEvent)) : List FsEvent :=
  tr.filterMap fun p => if p.1 = i then some p.2 else none

theorem mem_eventsAt {tr : List (Nat × FsEvent)} {ev : FsEvent} :
    ev ∈ eventsAt i tr ↔ (i, ev) ∈ tr := by
  rw [eventsAt, List.mem_filterMap]
  constructor
  · rintro ⟨⟨k, ev'⟩, hmem, heq⟩
    split at heq
    · rename_i hk
      obtain rfl : k = i := hk
      cases heq
      exact hmem
    · cases heq
  · intro hmem
    exact ⟨_, hmem, if_pos rfl⟩

theorem eventsAt_append (i : Nat) (tr evs : List (Nat × FsEvent)) :
    eventsAt i (tr ++ evs) = eventsAt i tr ++ eventsAt i evs := List.filterMap_append ..

theorem eventsAt_self (i : Nat) (evs : List FsEvent) :
    eventsAt i (evs.map fun ev => (i, ev)) = evs := by
  rw [eventsAt, List.filterMap_map]
  simp

theorem eventsAt_ne (h : i ≠ j) (evs : List FsEvent) :
    eventsAt i (evs.map fun ev => (j, ev)) = [] := by
  rw [eventsAt, List.filterMap_map]
  simp [h.symm]

/-- The invariant of a cluster: every server has seen only requests that were
routed to it. -/
structure Inv (cl : Cluster) (dbs : Nat → Db) (tr : List (Nat × FsEvent)) (s : State) : Prop where
  clients : ∀ j, (s.clients j).Inv cl
  net : ∀ m ∈ s.net, m.dst < cl.n ∧ (cl.servers m.dst).Routed m.call
  servers : ∀ i < cl.n, ((cl.servers i).system (some (dbs i))).Run
    (fun _ l => l.Routed (cl.servers i)) (eventsAt i tr) (s.servers i)

variable {dbs : Nat → Db} {tr evs : List (Nat × FsEvent)} {s s' : State}

/-- A request a client has sent is routed. -/
theorem routed_of_sent {m : Message} (hfits : m.call.dirId.Fits) {name : Slice}
    (hname : m.call.name? = some name)
    (hdst : m.dst = selectServer cl.xx cl.n m.call.dirId name) :
    m.dst < cl.n ∧ (cl.servers m.dst).Routed m.call := by
  have hlt : m.dst < cl.n := by
    rw [hdst]
    exact selectServer_lt ..
  have hplain : m.call.isBukin = false := by
    rw [Call.isBukin]
    split
    · rename_i hreq
      rw [Call.name?, hreq] at hname
      cases hname
    · rfl
  exact ⟨hlt, ⟨hfits, hplain⟩, name, hname, (serves_iff hlt).mpr hdst⟩

/-- A server takes a step. -/
theorem Inv.stepServer (hI : Inv cl dbs tr s) {l : Filesystem.Label}
    (hl : i < cl.n → l.Routed (cl.servers i)) (h : cl.stepServer s i l = some (s', evs)) :
    Inv cl dbs (tr ++ evs) s' := by
  obtain ⟨⟨σ, es⟩, hs, heq⟩ := Option.map_eq_some_iff.mp h
  cases heq
  refine ⟨hI.clients, hI.net, fun q hq => ?_⟩
  rw [eventsAt_append]
  by_cases hqi : q = i
  · subst hqi
    dsimp only
    rw [eventsAt_self, Function.update_self]
    exact .step (hI.servers q hq) (hl hq) hs
  · dsimp only
    rw [eventsAt_ne hqi, List.append_nil, Function.update_of_ne hqi]
    exact hI.servers q hq

/-- **Every run routes its requests.** A request carries the index of the server it is sent
to; delivery and service do not change it, and the server computes the same one. -/
theorem run_inv (hr : (cl.system dbs).Run (fun _ l => l.Fits) tr s) : Inv cl dbs tr s := by
  refine hr.invariant ?_ ?_
  · rintro s ⟨hservers, hclients, hnet⟩
    refine ⟨fun j => ?_, fun m hm => ?_, fun i _ => .init (hservers i)⟩
    · rw [hclients]
      exact Client.Inv.empty cl
    · rw [hnet] at hm
      cases hm
  · intro tr s l s' evs hr hI hl hs
    have hclients : ∀ {j c}, Client.Inv cl c →
        ∀ i, Client.Inv cl (Function.update s.clients j c i) := by
      intro j c hc i
      by_cases hij : i = j
      · rw [hij, Function.update_self]
        exact hc
      · rw [Function.update_of_ne hij]
        exact hI.clients i
    cases l with
    | start j c =>
      simp only [system, step] at hs
      split at hs
      · rename_i hnamed
        cases hs
        refine ⟨hclients ((hI.clients j).push hl hnamed), hI.net, ?_⟩
        rw [List.append_nil]
        exact hI.servers
      · cases hs
    | client j k stat =>
      obtain ⟨⟨c, ms⟩, hadv, heq⟩ := Option.map_eq_some_iff.mp hs
      cases heq
      obtain ⟨hc, hms⟩ := (hI.clients j).advance hadv
      refine ⟨hclients hc, fun m hm => ?_, ?_⟩
      · rcases List.mem_append.mp hm with hm | hm
        · exact hI.net m hm
        · obtain ⟨hfits, name, hname, hdst⟩ := hms m hm
          exact routed_of_sent hfits hname hdst
      · rw [List.append_nil]
        exact hI.servers
    | deliver m =>
      simp only [system, step] at hs
      split at hs
      · cases hs
      rename_i msg hmsg
      have hrouted := hI.net msg (List.mem_of_getElem? hmsg)
      have hI' : Inv cl dbs tr { s with net := s.net.eraseIdx m } :=
        ⟨hI.clients, fun m hm => hI.net m (List.mem_of_mem_eraseIdx hm), hI.servers⟩
      exact hI'.stepServer (l := .call msg.call msg.stat) (fun _ => hrouted.2) hs
    | server i k e => exact hI.stepServer (l := .advance k e) (fun _ => trivial) hs

/-- The partition check of a server passes exactly at the server a client
selects. -/
theorem isDirPartitionOk_iff (hi : i < cl.n)
    (hskip : (cl.servers i).options.skipPartitionChecks = false) :
    (cl.servers i).isDirPartitionOk ((cl.servers i).index id) name = true ↔
      i = selectServer cl.xx cl.n id name := by
  rw [← serves_iff hi, Filesystem.isDirPartitionOk, hskip]
  exact decide_eq_true_iff

/-- An entry is stored at a server. -/
def StoredAt (s : State) (i : Nat) (id : DirId) (name : Slice) : Prop :=
  ∃ db, (s.servers i).db = some db ∧ (db (entryKey id name)).isSome = true

/-- **Clients, servers and the compactor agree.** The index a client computes
for a name is one of the servers, its partition check passes at that server
only, and the compactor sends the entry to the same rank. In every run, no
request is refused for its partition, and every entry is stored on at most one
server, the one its clients select.

The three compute the index on their own, from the same hash and an index of the directory
that each of them makes itself: the client and the server from a lease or a request, the
compactor from the key of the record, out of which it has to read the directory first. -/
theorem routes_agree (cl : Cluster) :
    (∀ (p : LookupStat) (name : Slice), p.dirId.Fits → name ≠ [] →
      ∃ i < cl.n, (fetch1 cl.xx cl.n ⟨p.dirId, none, 1⟩ name).2 = some i ∧
        (∀ j < cl.n, (cl.servers j).options.skipPartitionChecks = false →
          ((cl.servers j).isDirPartitionOk ((cl.servers j).index p.dirId) name = true ↔ j = i)) ∧
        ∀ rs value, (entryKey p.dirId name, value) ∈ rs → ∀ r,
          (r, entryKey p.dirId name, value) ∈
            Compactor.mapReduce cl.xx cl.n (fun _ => none) rs ↔ r = i) ∧
      ∀ (dbs : Nat → Db) (tr : List (Nat × FsEvent)) (s : State),
        (∀ i < cl.n, (cl.servers i).Placed (dbs i)) →
        (cl.system dbs).Run (fun _ l => l.Fits) tr s →
          (∀ i < cl.n, ∀ k r, (i, .ret k r) ∈ tr →
            r.status ≠ .err .accessDenied (str "Wrong dir partition")) ∧
          ∀ id name, id.Fits → ∀ i < cl.n, StoredAt s i id name →
            i = selectServer cl.xx cl.n id name := by
  refine ⟨fun p name hfits hname => ?_, fun dbs tr s hplaced hrun => ?_⟩
  · refine ⟨_, selectServer_lt cl p.dirId name, ?_, fun j hj hskip => ?_, fun rs value hr r => ?_⟩
    · exact fetch1_index (fun g hg => by cases hg) hname
    · exact isDirPartitionOk_iff hj hskip
    · exact Compactor.mem_mapReduce hfits hr r
  · have hI := run_inv hrun
    refine ⟨fun i hi k r hret => ?_, fun id name hfits i hi hstored => ?_⟩
    · exact Filesystem.routed_not_refused (hI.servers i hi) (mem_eventsAt.mpr hret)
    · obtain ⟨db, hdb, hsome⟩ := hstored
      have hp := Filesystem.routed_placed (hplaced i hi) (hI.servers i hi) db hdb
      exact (serves_iff hi).mp (hp id name hfits hsome)

/-- Two servers. -/
def pair : Cluster where
  xx := Filesystem.sumHash
  n := 2
  pos := by decide
  le := by decide
  servers := Filesystem.pairServer
  server _ _ := ⟨rfl, rfl, rfl, rfl⟩
  skipPermChecks _ := false

/-- A cluster that has just been set up. -/
def fresh : State where
  servers i := (Filesystem.pairServer i).start (some fun _ => none)
  clients _ := ⟨Dirs.empty, []⟩
  net := []

/-- A client's `Mkfle` at the second server. -/
def mkfleAtSecond : List Label :=
  [.start 0 (Filesystem.rootCall 0 (.mkfle (str "ab") 0o660)),
    .client 0 0 Filesystem.zeroStat, .client 0 0 Filesystem.zeroStat,
    .client 0 0 Filesystem.zeroStat, .deliver 0] ++
    List.replicate 7 (.server 1 0 Filesystem.calm)

/-- The entry is stored at the second server, and there alone. -/
theorem routes_agree_mkfleAtSecond :
    ∃ tr s, (pair.system fun _ _ => none).Run (fun _ l => l.Fits) tr s ∧
      (1, .ret 0 ⟨.ok, Filesystem.firstStat, none, 0⟩) ∈ tr ∧ StoredAt s 1 ⟨0, 0⟩ (str "ab") ∧
      ∀ i < 2, StoredAt s i ⟨0, 0⟩ (str "ab") → i = selectServer Filesystem.sumHash 2 ⟨0, 0⟩ (str "ab") := by
  have htr : ((pair.system fun _ _ => none).exec (fun _ l => decide l.Fits) fresh
      mkfleAtSecond).map (fun p => (p.2, (p.1.servers 1).db.map fun db =>
        (db (entryKey ⟨0, 0⟩ (str "ab"))).isSome)) =
      some ([(1, .inv 0 (Filesystem.rootCall 0 (.mkfle (str "ab") 0o660))),
        (1, .pt 0 (.created ⟨0, 0⟩ (str "ab") Filesystem.firstStat)),
        (1, .ret 0 ⟨.ok, Filesystem.firstStat, none, 0⟩)], some true) := by decide +kernel
  obtain ⟨⟨s, tr⟩, hp, htr⟩ := Option.map_eq_some_iff.mp htr
  obtain ⟨htr, hdb⟩ := Prod.mk.inj htr
  have hinit : (pair.system fun _ _ => none).init fresh := ⟨fun _ => rfl, fun _ => rfl, rfl⟩
  have hrun := Run.exec (C := fun _ l => l.Fits) (fun _ _ hd => of_decide_eq_true hd)
    (.init hinit) hp
  obtain ⟨-, hstored⟩ := (routes_agree pair).2 (fun _ _ => none) _ _
    (fun i _ => Filesystem.Placed.empty _) hrun
  refine ⟨_, _, hrun, ?_, ?_, fun i hi h => hstored _ _ (by decide) i hi h⟩
  · dsimp only at htr
    rw [List.nil_append, htr]
    simp
  · obtain ⟨db, hdb, hsome⟩ := Option.map_eq_some_iff.mp hdb
    exact ⟨db, hdb, hsome⟩

end Cluster

end DeltaFs
