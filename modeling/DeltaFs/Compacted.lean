import DeltaFs.Compaction
import DeltaFs.Servers

/-!
# Compaction keeps the namespace

A compaction starts from dbs that hold their records in no order: what is in a directory
may be anywhere. It ends with dbs that servers can be opened on. A client that knows
nothing of all this selects a server for each name, and finds what there was: the tree of
the sources, whichever rank held which record, and however the requests were served.

Only the records are compared, and not how they have got there: `compaction_conserves` says
which db has which record, and the tree is a function of that.
-/

namespace DeltaFs

namespace Compactor

open Filesystem (Content)

variable {fl : Flags} {src : Sources} {s : World}

/-- What the sources hold, as one db. -/
def Sources.db (src : Sources) (fl : Flags) : Db :=
  fun key => ((List.range fl.commSize).flatMap src.records).lookup key

/-- What is in a directory, in all sources. -/
def Sources.graph (src : Sources) (fl : Flags) (id : DirId) (name : Slice) : Option Stat :=
  if id.Fits then view [src.db fl] id name else none

/-- The tree of the sources. -/
def Sources.tree (src : Sources) (fl : Flags) : Namespace.Tree := Cluster.treeOf (src.graph fl)

theorem Sources.db_eq_some (key val : Slice) :
    src.db fl key = some val ↔ ∃ r < fl.commSize, (key, val) ∈ src.records r := by
  have hmem : ∀ x : Record, x ∈ (List.range fl.commSize).flatMap src.records ↔
      ∃ r < fl.commSize, x ∈ src.records r := by
    intro x
    simp only [List.mem_flatMap, List.mem_range]
  constructor
  · intro h
    obtain ⟨l₁, l₂, heq, -⟩ := List.lookup_eq_some_iff.mp h
    exact (hmem _).mp (heq ▸ List.mem_append_right l₁ List.mem_cons_self)
  · rintro ⟨r, hr, hx⟩
    have hsome : (src.db fl key).isSome :=
      List.lookup_isSome_iff.mpr ⟨_, (hmem _).mpr ⟨r, hr, hx⟩, beq_self_eq_true key⟩
    obtain ⟨v, hv⟩ := Option.isSome_iff_exists.mp hsome
    obtain ⟨l₁, l₂, heq, -⟩ := List.lookup_eq_some_iff.mp hv
    obtain ⟨r', -, hx'⟩ := (hmem _).mp (heq ▸ List.mem_append_right l₁ List.mem_cons_self)
    rw [hv, src.one_value hx' hx]

/-- Beyond the barrier every record is in the db of its rank. -/
theorem Conserves.passed (h : Conserves fl src s) (hpassed : ∀ r < fl.commSize, s.main r = .passed)
    {i : Nat} (hi : i < fl.commSize) {r : Nat} (hr : r < fl.commSize) {x : Record}
    (hx : x ∈ src.records r) (hhome : home fl x.1 = i) : s.dst i x.1 = some x.2 := by
  obtain ⟨kvs, out, hsend⟩ := h.sends r hr i
  have hset := h.settled r hr
  rw [hpassed r hr] at hsend hset
  obtain ⟨hn, hcall, hok⟩ := hset i hi
  rcases hsend.all hok rfl x hx hhome with hin | hin | hin | hin
  · cases hin
  · rw [List.eq_nil_of_length_eq_zero (hsend.n.symm.trans hn)] at hin
    cases hin
  · rw [hsend.idle hcall] at hin
    cases hin
  · exact hin

/-- The rank of an entry is the server of its name. -/
theorem home_entryKey {id : DirId} (hid : id.Fits) (name : Slice) :
    home fl (entryKey id name) = FilesystemCli.selectServer fl.xx fl.commSize id name := by
  obtain ⟨hdir, hname⟩ := keyDirId_entryKey hid name
  rw [home, hdir, hname]

/-- **The db of its server has what the sources have of an entry.** The key of the entry
tells its home, and at its home the db has all records of this home and no others. -/
theorem Conserves.entry (h : Conserves fl src s) (hpassed : ∀ r < fl.commSize, s.main r = .passed)
    {id : DirId} (hid : id.Fits) (name : Slice) {i : Nat}
    (hi : i = FilesystemCli.selectServer fl.xx fl.commSize id name) :
    s.dst i (entryKey id name) = src.db fl (entryKey id name) := by
  have hlt : i < fl.commSize := hi ▸ DirIndex.selectServer_lt _ fl.xx name fl.commSize_pos
  refine Option.ext fun value => ?_
  rw [Sources.db_eq_some]
  constructor
  · intro hv
    obtain ⟨r, hr, hx, -⟩ := h.sound hv
    exact ⟨r, hr, hx⟩
  · rintro ⟨r, hr, hx⟩
    exact h.passed hpassed hlt hr hx ((home_entryKey hid name).trans hi.symm)

/-- Servers that have been opened on the dbs of a compaction. -/
structure OpenedOn (fl : Flags) (s : World) (cl : Cluster) (d : Cluster.Contents) : Prop where
  xx : cl.xx = fl.xx
  n : cl.n = fl.commSize
  db : ∀ i < cl.n, (d i).db = s.dst i
  readonly : ∀ i < cl.n, (cl.servers i).readonlyDbs = []

variable {cl : Cluster} {d : Cluster.Contents}

theorem OpenedOn.firstMatch (ho : OpenedOn fl s cl d) (h : Conserves fl src s)
    (hpassed : ∀ r < fl.commSize, s.main r = .passed) {id : DirId} (hid : id.Fits) (name : Slice) :
    firstMatch (cl.dbsOf d id name) (entryKey id name) = firstMatch [src.db fl] (entryKey id name) := by
  have hlt := cl.selectServer_lt id name
  have hi : FilesystemCli.selectServer cl.xx cl.n id name =
      FilesystemCli.selectServer fl.xx fl.commSize id name := by rw [ho.xx, ho.n]
  rw [Cluster.dbsOf, ho.readonly _ hlt, firstMatch_cons, firstMatch_cons, ho.db _ hlt,
    h.entry hpassed hid name hi]

theorem OpenedOn.entry_eq (ho : OpenedOn fl s cl d) (h : Conserves fl src s)
    (hpassed : ∀ r < fl.commSize, s.main r = .passed) {id : DirId} (hid : id.Fits) (name : Slice) :
    cl.entry d id name = view [src.db fl] id name := by
  rw [Cluster.entry, view, ho.firstMatch h hpassed hid name, view]

theorem dbGet_one (db : Db) (id : DirId) (name : Slice) (stat : Stat) :
    dbGet [db] id name (fun _ => none) stat = db.get id name none stat := by
  rw [dbGet, getFirst]
  split
  · rfl
  · rfl

/-- **Compaction keeps the namespace.** Once every rank has passed the barrier, servers that
are opened on the dbs hold the tree of the sources, and an `Lstat` of a name in any directory
returns what one db with all records would return, at the server its client selects.

Every record is then at its home (`compaction_conserves`), and the home of a record is the
server that the clients select for the name (`routes_agree`): a lookup asks one server, and
the record is at that one if it is anywhere. The `Lstat` is that of the server, for a user
who may look up, in a directory whose number fits a key, by a lease that does not end. -/
theorem compaction_keeps_tree {tr : List Empty} (hr : (compaction fl src).Run (fun _ _ => True) tr s)
    (hpassed : ∀ r < fl.commSize, s.main r = .passed) (ho : OpenedOn fl s cl d) :
    cl.tree d = src.tree fl ∧
      ∀ (p : LookupStat) (name : Slice) (who : User) (ts : UInt64) (stat : Stat), p.dirId.Fits →
        p.leaseDue = -1 →
        isLookupOk (cl.servers (FilesystemCli.selectServer cl.xx cl.n p.dirId name)).options.skipPermChecks
          p who = true →
        (cl.asServer ts).lstat d who p name stat = (d, (src.db fl).get p.dirId name none stat) := by
  have h := conserves_of_run hr
  refine ⟨?_, fun p name who ts stat hid hdue hok => ?_⟩
  · have hgraph : cl.graph d = src.graph fl := by
      funext id name
      rw [Cluster.graph, Sources.graph]
      split
      · rename_i hid
        exact ho.entry_eq h hpassed hid name
      · rfl
    rw [Cluster.tree, hgraph, Sources.tree]
  · obtain ⟨i, hi⟩ : ∃ i, i = FilesystemCli.selectServer cl.xx cl.n p.dirId name := ⟨_, rfl⟩
    have hlt : i < cl.n := hi ▸ cl.selectServer_lt p.dirId name
    have hserves := cl.serves_selected p.dirId name
    rw [← hi] at hok hserves
    have hdb : s.dst i (entryKey p.dirId name) = src.db fl (entryKey p.dirId name) :=
      h.entry hpassed hid name (by rw [hi, ho.xx, ho.n])
    have hdbs : (cl.servers i).dbs ((d i).state (cl.servers i)) = [s.dst i] := by
      rw [← ho.db i hlt, ← ho.readonly i hlt]
      rfl
    have hget : (s.dst i).get p.dirId name none stat = (src.db fl).get p.dirId name none stat := by
      rw [Db.get, Db.get, hdb]
    rw [Cluster.asServer]
    dsimp only
    rw [Cluster.route, ← hi, Filesystem.lstat_dbGet ts hdue hserves hok stat, hdbs, dbGet_one, hget,
      Function.update_eq_self]

/-- A directory, and a file in it. -/
def oneFile : List Record :=
  [(entryKey ⟨0, 0⟩ (str "a"), Stat.encodeTo ⟨0, 7, 0, 0o040770, 0, 1, 1, 0, 0⟩),
    (entryKey ⟨0, 7⟩ (str "b"), Filesystem.firstStat.encodeTo)]

theorem oneFile_fits : ∀ x ∈ oneFile, x.1.length < 2 ^ 32 ∧ x.2.length < 2 ^ 32 := by decide +kernel

theorem oneFile_nodup : (oneFile.map Prod.fst).Nodup := by decide +kernel

/-- The first of two ranks has both records. -/
def misplaced : Sources where
  records r := if r = 0 then oneFile else []
  fits {r x} hx := by
    split at hx
    · exact oneFile_fits x hx
    · cases hx
  nodup r := by
    split
    · exact oneFile_nodup
    · exact List.nodup_nil
  disjoint {r r' k} hne hk hk' := by
    split at hk
    · split at hk'
      · rename_i h h'
        exact hne (h.trans h'.symm)
      · cases hk'
    · cases hk

/-- The servers that are opened then. -/
def twoServers : Cluster := { Cluster.pair with
  xx := twoRanks.xx
  servers i := { Filesystem.pairServer i with xx := twoRanks.xx }
  server _ _ := ⟨rfl, rfl, rfl, rfl⟩ }

/-- They hold the file, one record each. -/
theorem compaction_keeps_tree_misplaced :
    ∃ tr s, (compaction twoRanks misplaced).Run (fun _ _ => True) tr s ∧
      (s.dst 0 (entryKey ⟨0, 0⟩ (str "a"))).isSome = false ∧
      (twoServers.tree fun i => ⟨s.dst i, 0⟩).node [str "a", str "b"] =
        some (Cluster.attrOf Filesystem.firstStat) := by
  have hexec : ((compaction twoRanks misplaced).exec (fun _ _ => true) (World.start misplaced)
      sendBoth).map (fun x => (isPassed x.1 0 && isPassed x.1 1,
        (x.1.dst 0 (entryKey ⟨0, 0⟩ (str "a"))).isSome)) = some (true, false) := by decide +kernel
  obtain ⟨x, hx, heq⟩ := Option.map_eq_some_iff.mp hexec
  obtain ⟨hpassed, hempty⟩ := Prod.mk.inj heq
  have hstart : (compaction twoRanks misplaced).Run (fun _ _ => True) []
      (World.start misplaced) := .init rfl
  have hr := hstart.exec (fun _ _ _ => trivial) hx
  have hone : ∀ r, isPassed x.1 r = true → x.1.main r = .passed := by
    intro r h
    rw [isPassed] at h
    split at h
    · assumption
    · cases h
  rw [Bool.and_eq_true] at hpassed
  have hall : ∀ r < twoRanks.commSize, x.1.main r = .passed := by
    intro r hr
    have hr : r < 2 := hr
    obtain rfl | rfl : r = 0 ∨ r = 1 := by omega
    · exact hone 0 hpassed.1
    · exact hone 1 hpassed.2
  have hopened : OpenedOn twoRanks x.1 twoServers fun i => ⟨x.1.dst i, 0⟩ :=
    ⟨rfl, rfl, fun _ _ => rfl, fun _ _ => rfl⟩
  obtain ⟨htree, -⟩ := compaction_keeps_tree hr hall hopened
  have hnode : (misplaced.tree twoRanks).node [str "a", str "b"] =
      some (Cluster.attrOf Filesystem.firstStat) := by decide +kernel
  exact ⟨_, x.1, hr, hempty, by rw [htree, hnode]⟩

end Compactor

end DeltaFs
