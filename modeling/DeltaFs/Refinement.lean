import DeltaFs.Access
import DeltaFs.Steps

/-!
# The filesystem is a tree

`Cluster.tree` is what the servers hold, seen from the root. A client that follows a
path goes where the path leads in the tree, whatever leases it has: a directory never
moves nor changes. A create adds one node, since its id is new; so operations on paths
by any number of clients, one at a time, are those of the namespace
(`filesystem_refines_tree`).

The clients either have the only server in their process or a stub for each server
(`Access`). It makes no difference to what happens to the tree, as long as the requests
fit. It does to what a client is told of a file: the size and the times are not in a
reply, so over stubs they are what the caller's stat held before (`Access.shows`).

The proof has the steps of an operation as its grain. `Stands` ties a lookup stat to the
directory at a path, `lokup_agrees` goes from one to the next, `act_did` does the last
step, and `OnWay.step` joins them. `Did` is what an operation has done when it returns.
-/

namespace DeltaFs

namespace Site

open FilesystemCli Namespace

/-! ## Following a path

A client that has followed a path has a lookup stat. It `Stands` at the directory if the stat
has the id and the permissions of it: what comes next is decided by these alone. -/

section Paths

variable {cl : Cluster} {d : Cluster.Contents} {path : List Slice} {p : LookupStat} {c : Slice}

/-- A lookup stat is that of the directory at a path. -/
structure Stands (cl : Cluster) (d : Cluster.Contents) (path : List Slice) (p : LookupStat) : Prop where
  walk : Unfolding.walk Cluster.kid (cl.graph d) Cluster.root path = some p.dirId
  due : p.leaseDue = -1
  mode : p.dirMode = (((cl.tree d).node path).getD rootAttr).mode
  uid : p.userId = (((cl.tree d).node path).getD rootAttr).uid
  gid : p.groupId = (((cl.tree d).node path).getD rootAttr).gid

theorem Stands.isDir (h : Stands cl d path p) : isDirOf (cl.tree d).node path = true :=
  Cluster.isDirOf_iff.mpr ⟨_, h.walk⟩

/-- The directory. -/
def Stands.dir (h : Stands cl d path p) : (cl.tree d).Dir := ⟨path, h.isDir⟩

theorem Stands.root (cl : Cluster) (d : Cluster.Contents) : Stands cl d [] Client.rtlokupstat :=
  ⟨rfl, rfl, rfl, rfl, rfl⟩

/-- The checks of permissions are the same. -/
theorem Stands.permits (h : Stands cl d path p) (skip : Bool) (who : User) (usr grp oth : UInt32) :
    isModeOk skip usr grp oth p who = (skip || ((cl.tree d).attr h.dir).permits who usr grp oth) :=
  isModeOk_eq h.mode h.uid h.gid skip who usr grp oth

theorem Stands.maySearch (h : Stands cl d path p) (skip : Bool) (who : User) :
    isLookupOk skip p who = (skip || ((cl.tree d).attr h.dir).maySearch who) := h.permits ..

theorem Stands.mayWrite (h : Stands cl d path p) (skip : Bool) (who : User) :
    isDirWriteOk skip p who = (skip || ((cl.tree d).attr h.dir).mayWrite who) := h.permits ..

/-- What is in the tree beneath a directory is what is in the directory. -/
theorem Stands.node (hd : cl.Sound d) (h : Stands cl d path p) (c : Slice) :
    (cl.tree d).node (path ++ [c]) = (cl.entry d p.dirId c).map Cluster.attrOf := by
  show (Unfolding.node Cluster.kid (cl.graph d) Cluster.root (path ++ [c])).map Cluster.attrOf = _
  rw [Unfolding.node_of_walk h.walk, Cluster.graph_of_fits (hd.walk h.walk).1]

/-- The directories beneath a directory. -/
theorem Stands.beneath (hd : cl.Sound d) (h : Stands cl d path p) {st : Stat}
    (hst : cl.entry d p.dirId c = some st) (hdir : DeltaFs.isDir st.fileMode = true) :
    Stands cl d (path ++ [c]) (.copyFrom st (-1)) := by
  have hnode := h.node hd c
  rw [hst, Option.map_some] at hnode
  refine ⟨?_, rfl, ?_, ?_, ?_⟩
  · rw [Unfolding.walk_concat, h.walk, Option.bind_some, Cluster.graph_of_fits (hd.walk h.walk).1, hst,
      Option.bind_some, Cluster.kid, if_pos hdir]
    rfl
  · rw [hnode]
    rfl
  · rw [hnode]
    rfl
  · rw [hnode]
    rfl

/-- Outcomes that agree: the same error, or results that belong together. -/
inductive Agrees {α β : Type} (R : α → β → Prop) :
    Except ErrCode α → Except (ErrCode × Slice) β → Prop where
  | ok {a : α} {b : β} : R a b → Agrees R (.ok a) (.ok b)
  | error {e : ErrCode} {msg : Slice} : Agrees R (.error e) (.error (e, msg))

/-- One name, at the client and at the server. -/
theorem child_agrees (hd : cl.Sound d) (h : Stands cl d path p) (skip : Bool) (who : User) (c : Slice) :
    Agrees (fun dir rep => Stands cl d dir.1 rep) ((cl.tree d).child skip who h.dir c)
      (if isLookupOk skip p who then Filesystem.found (cl.entry d p.dirId c)
        else .error (.accessDenied, str "No x perm")) := by
  rw [h.maySearch, Tree.child]
  split
  · have hnode : (cl.tree d).node (h.dir.1 ++ [c]) = (cl.entry d p.dirId c).map Cluster.attrOf :=
      h.node hd c
    cases hentry : cl.entry d p.dirId c with
    | none =>
      rw [hentry, Option.map_none] at hnode
      have hno : ¬isDirOf (cl.tree d).node (h.dir.1 ++ [c]) = true := by
        rw [isDirOf_concat, hnode]
        exact Bool.false_ne_true
      rw [dif_neg hno, if_pos hnode]
      exact .error
    | some st =>
      rw [hentry, Option.map_some] at hnode
      rw [Filesystem.found]
      by_cases hdir : DeltaFs.isDir st.fileMode = true
      · have hstands := h.beneath hd hentry hdir
        have hyes : isDirOf (cl.tree d).node (h.dir.1 ++ [c]) = true := hstands.isDir
        rw [dif_pos hyes, if_pos hdir]
        exact .ok hstands
      · have hno : ¬isDirOf (cl.tree d).node (h.dir.1 ++ [c]) = true := by
          rw [isDirOf_concat, hnode]
          exact hdir
        have hsome : ¬(cl.tree d).node (h.dir.1 ++ [c]) = none := by
          rw [hnode]
          exact Option.some_ne_none _
        rw [dif_neg hno, if_neg hsome, if_neg hdir]
        exact .error
  · exact .error

end Paths

/-! ## Clients

A lookup comes from the leases or from the server of the name. Either way it is what the tree
has beneath the directory, because leases know what is there (`Access.Leased`). -/

/-- What client `j` is set up with. -/
def options (cl : Cluster) (lru j : Nat) : Options := ⟨cl.skipPermChecks j, lru, cl.xx, cl.n⟩

/-- Its operations for a user, when the servers' clocks show `ts` and a server that makes
a stat finds `junk` on its stack. -/
abbrev client {cl : Cluster} (a : Access cl) (lru j : Nat) (ts : UInt64) (junk : Stat) (u : User) :
    PathClient (Client (Option Cluster.Contents)) FilesystemCli.Handle :=
  Client.pathClient (options cl lru j) (a.server ts junk) u

/-- The stat of a lease. -/
def leaseStat : FilesystemCli.Handle → LookupStat
  | none => Client.rtlokupstat
  | some r => r.rep

section Clients

variable {cl : Cluster} {a : Access cl} {d d' : Cluster.Contents} {s : Client (Option Cluster.Contents)}
  {path : List Slice}

theorem Agrees.of_ok {α β γ : Type} {R : α → β → Prop} {R' : α → γ → Prop} {x : Except ErrCode α}
    {b : β} {b' : γ} (h : Agrees R x (.ok b)) (hR : ∀ a, R a b → R' a b') : Agrees R' x (.ok b') := by
  cases h with
  | ok h => exact .ok (hR _ h)

/-- Only the text of the error may differ. -/
theorem Agrees.of_error {α β γ : Type} {R : α → β → Prop} {R' : α → γ → Prop} {x : Except ErrCode α}
    {e e' : ErrCode × Slice} (h : Agrees R x (.error e)) (he : e'.1 = e.1) : Agrees R' x (.error e') := by
  cases h with
  | error =>
    obtain ⟨code, msg⟩ := e'
    obtain rfl : code = _ := he
    exact .error

/-- What a handle stands for. The name is looked up again for each path beneath it. -/
inductive Opened (a : Access cl) (d : Cluster.Contents) : Tree.Handle → At → Prop where
  | root : Opened a d none none
  | named {path : List Slice} {c : Slice} {p : LookupStat} :
      Stands cl d path p → a.fits (.lokup c) = true → Opened a d (some (path, c)) (some (p, c))

/-- The servers look up what is in the directory. -/
theorem server_lokup_eq (hset : cl.SetUp) (hd : cl.Sound d) (j : Nat) {ts : UInt64} {junk : Stat} {u : User}
    {p : LookupStat} {name : Slice} (hfits : a.fits (.lokup name) = true) (hdue : p.leaseDue = -1)
    (hok : isLookupOk (cl.skipPermChecks j) p u = true) :
    (a.server ts junk).lokup (some d) u p name = (some d,
      (Filesystem.found (cl.entry d p.dirId name)).mapError fun e => (e.1, a.text e.2)) := by
  rw [Access.server_lokup, if_pos hfits, Cluster.asServer_lokup hset hd hdue hok]

variable (hset : cl.SetUp) (hd : cl.Sound d) (lru j : Nat) (ts : UInt64) (junk : Stat) (u : User)
include hset hd

/-- **A lookup** returns a lease of the directory, whatever leases there are. A lease that
is found says what was in the directory when it was made, and this has not changed. -/
theorem lokup_agrees {p : LookupStat} (hc : s.content = some d) (hi : s.Inv (Access.Leased cl))
    (h : Stands cl d path p) {name : Slice} (hfits : a.fits (.lokup name) = true) :
    ((client a lru j ts junk u).lokup s p name .kRegular).1.Inv (Access.Leased cl) ∧
      ((client a lru j ts junk u).lokup s p name .kRegular).1.content = some d ∧
      Agrees (fun dir l => Stands cl d dir.1 ((client a lru j ts junk u).rep l))
        ((cl.tree d).child (cl.skipPermChecks j) u h.dir name)
        ((client a lru j ts junk u).lokup s p name .kRegular).2 := by
  have hchild := child_agrees hd h (cl.skipPermChecks j) u name
  have hkeeps : FilesystemCli.Client.Keeps (options cl lru j) (a.server ts junk) (fun mode => mode = .kRegular)
      (Access.Leased cl) := Access.keeps_leased hset (options cl lru j)
  obtain ⟨hinv, -, hspec⟩ := hi.lokup hkeeps u p name .kRegular rfl
  show (Client.lokup (options cl lru j) (a.server ts junk) u s p name .kRegular).1.Inv (Access.Leased cl) ∧ _
  have hlokup : (client a lru j ts junk u).lokup s p name .kRegular =
    Client.lokup (options cl lru j) (a.server ts junk) u s p name .kRegular := rfl
  rw [hlokup]
  generalize Client.lokup (options cl lru j) (a.server ts junk) u s p name .kRegular = r at hinv hspec
  obtain ⟨s', result⟩ := r
  refine ⟨hinv, ?_⟩
  cases hspec with
  | @ok r hok _ _ hentry hcontent =>
    have hc' : s'.content = some d := by
      rcases hcontent with h' | h'
      · exact h'.trans hc
      · rw [h', hc, server_lokup_eq hset hd j hfits h.due hok]
    rw [hc', Access.leased_some] at hentry
    obtain ⟨st, hst, hdir, hrep⟩ := hentry.entry
    refine ⟨hc', ?_⟩
    have hok' : isLookupOk (cl.skipPermChecks j) p u = true := hok
    rw [if_pos hok', hst, Filesystem.found, if_pos hdir] at hchild
    refine hchild.of_ok fun dir hstands => ?_
    show Stands cl d dir.1 r.rep
    rw [hrep]
    exact hstands
  | refused hok hs =>
    have hok' : ¬isLookupOk (cl.skipPermChecks j) p u = true := by
      rw [show isLookupOk (cl.skipPermChecks j) p u = false from hok]
      exact Bool.false_ne_true
    rw [if_neg hok'] at hchild
    exact ⟨by rw [hs]; exact hc, hchild.of_error rfl⟩
  | mismatch hother hne =>
    rw [hc, Access.server_lokup, if_pos hfits] at hother
    exact absurd (Access.leased_some.mp hother).1 hne
  | @failed e hok herr hcontent =>
    have hok' : isLookupOk (cl.skipPermChecks j) p u = true := hok
    rw [hc, server_lokup_eq hset hd j hfits h.due hok'] at herr hcontent
    rw [if_pos hok'] at hchild
    cases hfound : Filesystem.found (cl.entry d p.dirId name) with
    | ok look =>
      rw [hfound] at herr
      cases herr
    | error e' =>
      rw [hfound] at herr hchild
      have he : e.1 = e'.1 := (congrArg Prod.fst (Except.error.inj herr)).symm
      exact ⟨hcontent, hchild.of_error he⟩

/-- The relative root. -/
theorem start_agrees (hc : s.content = some d) (hi : s.Inv (Access.Leased cl)) {h : Tree.Handle} {at? : At}
    (hopen : Opened a d h at?) :
    ((client a lru j ts junk u).start s at?).1.Inv (Access.Leased cl) ∧
      ((client a lru j ts junk u).start s at?).1.content = some d ∧
      Agrees (fun dir l => Stands cl d dir.1 ((client a lru j ts junk u).rep l))
        ((cl.tree d).start (cl.skipPermChecks j) u h) ((client a lru j ts junk u).start s at?).2 := by
  cases hopen with
  | root => exact ⟨hi, hc, .ok (Stands.root cl d)⟩
  | @named path c p hstands hfits =>
    rw [Tree.start, dif_pos hstands.isDir]
    exact lokup_agrees hset hd lru j ts junk u hc hi hstands hfits

end Clients

/-! ## Creating

What a create adds to the graph is one node in the tree, at the end of a path that leads to
its directory. All other paths lead where they led (`Kept`). -/

/-- What an operation leaves the servers with. -/
structure Kept (cl : Cluster) (d d' : Cluster.Contents) : Prop where
  sound : cl.Sound d'
  leased : ∀ {id name mode rep}, cl.Leased d id name mode rep → cl.Leased d' id name mode rep
  stands : ∀ {path p}, Stands cl d path p → Stands cl d' path p
  inoq : ∀ i, (d' i).inoq.toNat ≤ (d i).inoq.toNat + 1

section Creating

variable {cl : Cluster} {d d' : Cluster.Contents} {path : List Slice} {p : LookupStat} {name : Slice}
  {c : Call}

theorem Kept.refl (hd : cl.Sound d) : Kept cl d d := ⟨hd, fun h => h, fun h => h, fun _ => Nat.le_succ _⟩

theorem newStatOf_ids (fs : Filesystem) (hc : Filesystem.Creates c name) (ino : UInt64) :
    (fs.newStatOf c ino).dnodeNo = fs.options.mydno ∧ (fs.newStatOf c ino).inodeNo = ino := by
  rcases hc with ⟨mode, hreq⟩ | ⟨mode, hreq⟩
  · rw [Filesystem.newStatOf, hreq]
    exact ⟨rfl, rfl⟩
  · rw [Filesystem.newStatOf, hreq]
    exact ⟨rfl, rfl⟩

variable (hd : cl.Sound d) (h : Stands cl d path p)
include hd h

/-- **A create adds one node to the tree.** The new node has an id that no edge of the
graph leads to, so no other path leads to it. -/
theorem put_node {st : Stat} {i : Nat} (hfree : cl.entry d p.dirId name = none)
    (hi : i = selectServer cl.xx cl.n p.dirId name) (hroom : (d i).inoq.toNat + 1 < 2 ^ 56)
    (hdno : st.dnodeNo = (cl.servers i).options.mydno) (hino : st.inodeNo = (d i).inoq + 1)
    (path' : List Slice) : (cl.tree (cl.put d p.dirId name st)).node path' =
      if path' = path ++ [name] then some (Cluster.attrOf st) else (cl.tree d).node path' := by
  have hins := hd.insert h.walk hfree hi hroom hdno hino
  show (Unfolding.node Cluster.kid (cl.graph (cl.put d p.dirId name st)) Cluster.root path').map
    Cluster.attrOf = _
  rw [hins.node_eq hd.unique h.walk]
  split
  · rfl
  · rfl

/-- The other directories stay what they are. -/
theorem Stands.put {st : Stat} {i : Nat} (hfree : cl.entry d p.dirId name = none)
    (hi : i = selectServer cl.xx cl.n p.dirId name) (hroom : (d i).inoq.toNat + 1 < 2 ^ 56)
    (hdno : st.dnodeNo = (cl.servers i).options.mydno) (hino : st.inodeNo = (d i).inoq + 1)
    {path' : List Slice} {p' : LookupStat} (h' : Stands cl d path' p') :
    Stands cl (cl.put d p.dirId name st) path' p' := by
  have hins := hd.insert h.walk hfree hi hroom hdno hino
  have hne : path' ≠ path ++ [name] := by
    rintro rfl
    have hwalk := h'.walk
    rw [Unfolding.walk_concat, h.walk, Option.bind_some, Cluster.graph_of_fits (hd.walk h.walk).1,
      hfree] at hwalk
    cases hwalk
  have hnode : (cl.tree (cl.put d p.dirId name st)).node path' = (cl.tree d).node path' := by
    rw [put_node hd h hfree hi hroom hdno hino, if_neg hne]
  refine ⟨?_, h'.due, ?_, ?_, ?_⟩
  · rw [hins.walk_eq hd.unique h.walk, if_neg hne]
    exact h'.walk
  · rw [hnode]
    exact h'.mode
  · rw [hnode]
    exact h'.uid
  · rw [hnode]
    exact h'.gid

/-- **A create** at the servers is that of the namespace. It is refused where the
namespace refuses it; otherwise one entry is added, and the tree has one node more. -/
theorem createAt_agrees (hset : cl.SetUp) (j : Nat) (ts : UInt64) (hc : Filesystem.Creates c name)
    (hparent : c.parent = p) (hok : isDirWriteOk (cl.skipPermChecks j) p c.who = true) {a : Attr}
    (ha : ∀ (fs : Filesystem) ino, Cluster.attrOf (fs.newStatOf c ino) = a) (stat : Stat)
    (hroom : ∀ i < cl.n, (d i).inoq.toNat + 1 < 2 ^ 56) :
    ∃ d' r, cl.createAt ts d c name stat = (d', r) ∧ Kept cl d d' ∧
      (cl.tree d).create (cl.skipPermChecks j) c.who h.dir name a =
        (cl.tree d', (outcome r.1 r.2).map Cluster.attrOf) := by
  have hdirid : c.dirId = p.dirId := by rw [← hparent]; rfl
  obtain ⟨i, hi⟩ : ∃ i, i = selectServer cl.xx cl.n p.dirId name := ⟨_, rfl⟩
  have hilt : i < cl.n := hi ▸ cl.selectServer_lt p.dirId name
  have hnode : (cl.tree d).node (h.dir.1 ++ [name]) =
      (cl.entry d p.dirId name).map Cluster.attrOf := h.node hd name
  have hcreate := Cluster.createAt_eq ts stat hset hd hc (hparent ▸ h.due) (hparent ▸ hok)
    (hdirid ▸ hi)
  rw [hdirid] at hcreate
  rw [Tree.create, if_pos ((h.mayWrite (cl.skipPermChecks j) c.who).symm.trans hok)]
  cases hentry : cl.entry d p.dirId name with
  | none =>
    rw [hentry] at hcreate
    rw [hentry, Option.map_none] at hnode
    dsimp only at hcreate
    obtain ⟨hdno, hino⟩ := newStatOf_ids (cl.servers i) hc ((d i).inoq + 1)
    have hput := put_node hd h hentry hi (hroom i hilt) hdno hino
    have hleased : ∀ {id name' mode rep}, cl.Leased d id name' mode rep →
        cl.Leased (cl.createAt ts d c name stat).1 id name' mode rep :=
      fun hl => hl.createAt hset c name stat
    rw [hcreate] at hleased
    rw [hcreate, dif_pos hnode]
    refine ⟨_, _, rfl, ⟨hd.put hset h.walk hentry hi (hroom i hilt) hdno hino, hleased,
      Stands.put hd h hentry hi (hroom i hilt) hdno hino, Cluster.toNat_inoq_put⟩, ?_⟩
    refine Prod.ext (Tree.ext (funext fun path' => ?_)) (congrArg Except.ok (ha _ _).symm)
    rw [hput, ha]
    rfl
  | some st =>
    rw [hentry] at hcreate hnode
    obtain ⟨stat', hcreate⟩ := hcreate
    have hsome : ¬(cl.tree d).node (h.dir.1 ++ [name]) = none := by
      rw [hnode]
      exact Option.some_ne_none _
    rw [hcreate, dif_neg hsome]
    exact ⟨d, _, rfl, .refl hd, rfl⟩

end Creating

/-! ## Operations

`Did` is the whole of what an operation does: the contents afterwards, the invariant of the
client, and an answer that is the one of the namespace, as the client is told of it. -/

/-- What a client is told of a file, where its stat held `stat`: the size and the times do
not travel. -/
def Access.shows {cl : Cluster} (a : Access cl) (stat : Stat) (x : Attr) : Attr :=
  match a with
  | .fs _ => x
  | .rpc => { x with size := stat.fileSize, mtime := stat.modifyTime, ctime := stat.changeTime }

theorem Access.attrOf_carried {cl : Cluster} (a : Access cl) (stat st : Stat) :
    Cluster.attrOf (a.carried stat st) = a.shows stat (Cluster.attrOf st) := by cases a <;> rfl

/-- What the caller's stat holds. -/
def Api.held : Api → Stat
  | .mkfle _ stat | .mkdir _ stat | .lstat stat => stat
  | .atdir => Rpc.noStat

/-- The request for the last name of a path; that of `Atdir` is sent later. -/
def Api.request (name : Slice) : Api → Request
  | .mkfle mode _ => .mkfle name mode
  | .mkdir mode _ => .mkdir name mode
  | .lstat _ => .lstat name
  | .atdir => .lokup name

/-- What a client is told, where `last` is the last name of the path. The root's stat is
its own. -/
def Access.told {cl : Cluster} (a : Access cl) (api : Api) (last : Option Slice) (x : Attr) : Attr :=
  match last with
  | none => x
  | some _ => a.shows api.held x

/-- Every request of an operation on the names `cs` fits. -/
def Access.fitsPath {cl : Cluster} (a : Access cl) (api : Api) (cs : List Slice) : Bool :=
  cs.all (fun c => a.fits (.lokup c)) && cs.getLast?.all fun c => a.fits (api.request c)

/-- The answer is that of the namespace, as the client is told of it. -/
inductive Answers {cl : Cluster} (a : Access cl) (d : Cluster.Contents) (told : Attr → Attr) :
    Except ErrCode Answer → Except ErrCode Reply → Prop where
  | stat {x : Attr} {st : Stat} :
      Cluster.attrOf st = told x → Answers a d told (.ok (.attr x)) (.ok (.stat st))
  | handle {h : Tree.Handle} {at? : At} :
      Opened a d h at? → Answers a d told (.ok (.handle h)) (.ok (.handle (some at?)))
  | error (e : ErrCode) : Answers a d told (.error e) (.error e)

/-- An operation did what the namespace says. -/
structure Did {cl : Cluster} (a : Access cl) (d : Cluster.Contents) (told : Attr → Attr)
    (spec : Tree × Except ErrCode Answer) (s : Client (Option Cluster.Contents))
    (r : Except ErrCode Reply) : Prop where
  inv : s.Inv (Access.Leased cl)
  /-- it did not stop -/
  content : ∃ d', s.content = some d' ∧ Kept cl d d' ∧ spec.1 = cl.tree d' ∧ Answers a d' told spec.2 r

section Did

variable {cl : Cluster} {a : Access cl} {d : Cluster.Contents} {told : Attr → Attr}

theorem Did.same (hd : cl.Sound d) {s : Client (Option Cluster.Contents)} (hi : s.Inv (Access.Leased cl))
    (hc : s.content = some d) {x : Except ErrCode Answer} {r : Except ErrCode Reply}
    (h : Answers a d told x r) : Did a d told (cl.tree d, x) s r :=
  ⟨hi, d, hc, .refl hd, rfl, h⟩

/-- The attributes of a file or directory are those of an answer. -/
theorem Answers.of_map {x : Except ErrCode Attr} {r : Except ErrCode Stat}
    (h : r.map Cluster.attrOf = x.map told) : Answers a d told (x.map .attr) (r.map .stat) := by
  cases x with
  | ok x =>
    cases r with
    | ok st => exact .stat (Except.ok.inj h)
    | error e => cases h
  | error e =>
    cases r with
    | ok st => cases h
    | error e' =>
      obtain rfl := Except.error.inj h
      exact .error _

/-- A lease is given back. -/
theorem Did.release {spec : Tree × Except ErrCode Answer} {s : Client (Option Cluster.Contents)}
    {r : Except ErrCode Reply} (h : Did a d told spec s r) (l : FilesystemCli.Handle) :
    Did a d told spec (Client.release s l) r := by
  obtain ⟨hinv, d', hc, hrest⟩ := h
  exact ⟨hinv.release l, d', (Client.release_content s l).trans hc, hrest⟩

end Did

/-! ### A path, step by step

An operation on a path holds at most one lease at a time, that of the directory it has got to.
So where it is on its way is that directory and the names that are left, and a step either takes
it one name further or ends the operation. -/

/-- An operation on the names `cs` that has not finished: those it has followed lead to
the directory its lease is of. -/
inductive OnWay {cl : Cluster} (a : Access cl) (d : Cluster.Contents) (skip : Bool) (u : User) (h : Tree.Handle)
    (cs : List Slice) : Progress FilesystemCli.Handle → Prop where
  | entered {at? : At} : Opened a d h at? → OnWay a d skip u h cs (.entered at?)
  | walking {dir : (cl.tree d).Dir} {done left : List Slice} {l : FilesystemCli.Handle} :
      (cl.tree d).Leads skip u h done dir → Stands cl d dir.1 (leaseStat l) → cs = done ++ left →
      (left = [] → cs = []) → OnWay a d skip u h cs (.walking l left)

/-- Components have a name. -/
theorem nil_notMem_components (path : Slice) : [] ∉ components path :=
  fun h => Words.ne_nil_of_mem_words h rfl

section Operations

variable {cl : Cluster} {a : Access cl} {d : Cluster.Contents} {s : Client (Option Cluster.Contents)}
  {h : Tree.Handle} {at? : At}

/-- What a client makes of an outcome. -/
theorem reply_outcome (stat : Stat) (r : Cluster.Contents × Status × Stat) :
    (outcome (a.reply stat r).2.1 (a.reply stat r).2.2).map Cluster.attrOf =
      ((outcome r.2.1 r.2.2).map Cluster.attrOf).map (a.shows stat) := by
  obtain ⟨d', st, st'⟩ := r
  rw [Access.reply, outcome_of_code (Access.said_code st)]
  cases st with
  | ok => exact congrArg Except.ok (a.attrOf_carried stat st')
  | err e msg => rfl

/-- **A create** of a client is that of the namespace. Besides what the server does,
this is the permission the client checks first, and the request, which has to fit if it
goes through a stub. -/
theorem create_agrees (hset : cl.SetUp) (hd : cl.Sound d) (j : Nat) (ts : UInt64) {path : List Slice}
    {p : LookupStat} (hstands : Stands cl d path p) {s : Client (Option Cluster.Contents)}
    (hs : s.content = some d) {c : Call} {name : Slice} (hc : Filesystem.Creates c name)
    (hparent : c.parent = p) {x : Attr} (hx : ∀ (fs : Filesystem) ino, Cluster.attrOf (fs.newStatOf c ino) = x)
    (stat given : Stat) {f : Option Cluster.Contents → Option Cluster.Contents × Status × Stat}
    (hf : f (some d) = a.reply stat (cl.createAt ts d c name given))
    (hroom : ∀ i < cl.n, (d i).inoq.toNat + 1 < 2 ^ 56) :
    ∃ d' r, Client.request (isDirWriteOk (cl.skipPermChecks j) p c.who) "No write perm" s stat f =
        ({ s with content := some d' }, r) ∧ Kept cl d d' ∧
      ((cl.tree d).create (cl.skipPermChecks j) c.who hstands.dir name x).1 = cl.tree d' ∧
      (outcome r.1 r.2).map Cluster.attrOf =
        ((cl.tree d).create (cl.skipPermChecks j) c.who hstands.dir name x).2.map (a.shows stat) := by
  rw [Client.request]
  split
  · rename_i hok
    obtain ⟨d', r, hreq, hkept, hcreate⟩ :=
      createAt_agrees hd hstands hset j ts hc hparent hok hx given hroom
    rw [hs, hf, hreq, hcreate]
    exact ⟨d', _, rfl, hkept, rfl, reply_outcome stat (d', r)⟩
  · rename_i hno
    rw [Tree.create, if_neg fun hw => hno ((hstands.mayWrite (cl.skipPermChecks j) c.who).trans hw)]
    exact ⟨d, _, by rw [← hs], .refl hd, rfl, rfl⟩

variable (hset : cl.SetUp) (hd : cl.Sound d) (lru j : Nat) (ts : UInt64) (junk : Stat) (u : User)
include hset hd

/-! ### The last name

What each operation does beneath the final parent. It returns what the tree says, and leaves the
servers with the tree that it says. -/

/-- A create beneath the parent directory. -/
theorem create_did (hroom : ∀ i < cl.n, (d i).inoq.toNat + 1 < 2 ^ 56) {path : List Slice}
    {p : LookupStat} (hstands : Stands cl d path p) {s₁ : Client (Option Cluster.Contents)}
    (hinv : s₁.Inv (Access.Leased cl)) (hcontent : s₁.content = some d) {c : Call} {name : Slice}
    (hcreates : Filesystem.Creates c name) (hparent : c.parent = p) {x : Attr}
    (hx : ∀ (fs : Filesystem) ino, Cluster.attrOf (fs.newStatOf c ino) = x) (stat given : Stat)
    {f : Option Cluster.Contents → Option Cluster.Contents × Status × Stat}
    (hf : f (some d) = a.reply stat (cl.createAt ts d c name given))
    {y : Client (Option Cluster.Contents) × Status × Stat}
    (hy : y = Client.request (isDirWriteOk (cl.skipPermChecks j) p c.who) "No write perm" s₁ stat f) :
    Did a d (a.shows stat)
      (((cl.tree d).create (cl.skipPermChecks j) c.who hstands.dir name x).1,
        ((cl.tree d).create (cl.skipPermChecks j) c.who hstands.dir name x).2.map .attr)
      y.1 ((outcome y.2.1 y.2.2).map .stat) := by
  obtain ⟨d', r, hreq, hkept, htree, hout⟩ := create_agrees hset hd j ts hstands hcontent hcreates hparent
    hx stat given hf hroom
  rw [hreq] at hy
  rw [hy]
  refine ⟨hinv.content fun h => ?_, d', rfl, hkept, htree, .of_map hout⟩
  rw [hcontent, Access.leased_some] at h
  exact Access.leased_some.mpr (hkept.leased h)

/-- What an `Lstat` returns. -/
theorem lstat_eq_stat {path : List Slice} {p : LookupStat} (hstands : Stands cl d path p)
    {s₁ : Client (Option Cluster.Contents)} (hcontent : s₁.content = some d) {c : Slice}
    (hfits : a.fits (.lstat c) = true) (stat : Stat) :
    ∃ st stat', Client.request (isLookupOk (cl.skipPermChecks j) p u) "No x perm" s₁ stat
        (fun d => (a.server ts junk).lstat d u p c stat) = (s₁, st, stat') ∧
      (outcome st stat').map Cluster.attrOf =
        ((cl.tree d).stat (cl.skipPermChecks j) u hstands.dir c).map (a.shows stat) ∧
      (st.code ≠ none → stat' = stat) := by
  have hnode : (cl.tree d).node (hstands.dir.1 ++ [c]) = (cl.entry d p.dirId c).map Cluster.attrOf :=
    hstands.node hd c
  have hsearch := hstands.maySearch (cl.skipPermChecks j) u
  rw [Client.request, Tree.stat, ← hsearch]
  split
  · rename_i hok
    rw [hnode, hcontent, Access.server_lstat, if_pos hfits, Cluster.asServer_lstat hset hd hstands.due hok]
    have hsame : ({ s₁ with content := some d } : Client _) = s₁ := by rw [← hcontent]
    cases cl.entry d p.dirId c with
    | none =>
      refine ⟨a.said (.err .notFound []), a.left stat (a.given junk stat),
        congrArg (fun s => (s, a.said (.err .notFound []), a.left stat (a.given junk stat))) hsame, rfl,
        fun _ => ?_⟩
      cases a <;> rfl
    | some st =>
      have hout : (outcome (a.said .ok) (a.carried stat st)).map Cluster.attrOf =
        .ok (a.shows stat (Cluster.attrOf st)) := congrArg Except.ok (a.attrOf_carried stat st)
      exact ⟨a.said .ok, a.carried stat st,
        congrArg (fun s => (s, a.said .ok, a.carried stat st)) hsame, hout, fun h => absurd rfl h⟩
  · exact ⟨_, _, rfl, rfl, fun _ => rfl⟩

/-- `Lstat` beneath the parent directory: it looks at the mode even if nothing was
found. -/
theorem lstat_did {path : List Slice} {p : LookupStat} (hstands : Stands cl d path p)
    {s₁ : Client (Option Cluster.Contents)} (hinv : s₁.Inv (Access.Leased cl)) (hcontent : s₁.content = some d)
    {c : Slice} (hfits : a.fits (.lstat c) = true) (tail : Bool) (stat : Stat)
    {y : Client (Option Cluster.Contents) × Except ErrCode Reply}
    (hy : y =
      let x := Client.request (isLookupOk (cl.skipPermChecks j) p u) "No x perm" s₁ stat
        fun d => (a.server ts junk).lstat d u p c stat
      if tail = true ∧ DeltaFs.isDir x.2.2.fileMode = false then (x.1, .error .dirExpected)
      else (x.1, (outcome x.2.1 x.2.2).map .stat)) :
    Did a d (a.shows stat)
      (cl.tree d, (tailed tail stat.fileMode
        ((cl.tree d).stat (cl.skipPermChecks j) u hstands.dir c)).map .attr)
      y.1 y.2 := by
  obtain ⟨st, stat', hreq, hspec, hfail⟩ := lstat_eq_stat hset hd j ts junk u hstands hcontent hfits stat
  rw [hreq] at hy
  dsimp only at hy
  have hshows : ∀ x : Attr, (a.shows stat x).mode = x.mode := fun x => by cases a <;> rfl
  have hmode : modeAfter stat.fileMode ((cl.tree d).stat (cl.skipPermChecks j) u hstands.dir c) =
      stat'.fileMode := by
    rw [outcome] at hspec
    cases hcode : st.code with
    | none =>
      rw [hcode] at hspec
      cases hstat : (cl.tree d).stat (cl.skipPermChecks j) u hstands.dir c with
      | ok x =>
        rw [hstat] at hspec
        exact (hshows x).symm.trans (congrArg Attr.mode (Except.ok.inj hspec)).symm
      | error e =>
        rw [hstat] at hspec
        cases hspec
    | some e =>
      rw [hcode] at hspec
      rw [hfail (by rw [hcode]; exact Option.some_ne_none e)]
      cases hstat : (cl.tree d).stat (cl.skipPermChecks j) u hstands.dir c with
      | ok x =>
        rw [hstat] at hspec
        cases hspec
      | error e' => rfl
  rw [hy, tailed, hmode]
  by_cases htail : tail = true ∧ DeltaFs.isDir stat'.fileMode = false
  · rw [if_pos htail, htail.1, htail.2]
    exact .same hd hinv hcontent (.error _)
  · have hno : ¬(tail && !DeltaFs.isDir stat'.fileMode) = true := by
      rw [Bool.and_eq_true, Bool.not_eq_true']
      exact htail
    rw [if_neg htail, if_neg hno]
    exact .same hd hinv hcontent (.of_map hspec)

/-- **The last step** does what the operation does in the directory. Each operation has
a case of its own, with a name or, for the root, without one. -/
theorem act_did (hroom : ∀ i < cl.n, (d i).inoq.toNat + 1 < 2 ^ 56) {path : List Slice}
    {l : FilesystemCli.Handle} (hstands : Stands cl d path (leaseStat l))
    {s₁ : Client (Option Cluster.Contents)} (hinv : s₁.Inv (Access.Leased cl)) (hcontent : s₁.content = some d)
    (tail : Bool) (api : Api) {last : Option Slice} (hne : last ≠ some [])
    (hfits : ∀ c, last = some c → a.fits (api.request c) = true) :
    Did a d (a.told api last) ((cl.tree d).act (cl.skipPermChecks j) u hstands.dir tail api.op last)
      (api.last (client a lru j ts junk u) s₁ l (last.getD []) tail).1
      (api.last (client a lru j ts junk u) s₁ l (last.getD []) tail).2 := by
  cases last with
  -- the path is the root: the client answers by itself, and the creates are refused
  | none =>
    rw [Option.getD_none]
    cases api with
    | mkfle mode stat =>
      rw [Api.last, if_neg fun h => h.1 rfl]
      exact .same hd hinv hcontent (.error _)
    | mkdir mode stat =>
      rw [Api.last, if_neg fun h => h rfl]
      exact .same hd hinv hcontent (.error _)
    | lstat stat =>
      rw [Api.last, if_neg fun h => h rfl]
      exact .same hd hinv hcontent (.stat rfl)
    | atdir =>
      rw [Api.last, if_neg fun h => h rfl]
      exact .same hd hinv hcontent (.handle .root)
  | some c =>
    have hne : c ≠ [] := fun h => hne (congrArg some h)
    have hfits := hfits c rfl
    rw [Option.getD_some]
    cases api with
    | mkfle mode stat =>
      rw [Api.last, Api.op, Tree.act]
      by_cases htail : tail = true
      · rw [if_pos htail, if_neg fun h => Bool.false_ne_true (h.2.symm.trans htail)]
        exact .same hd hinv hcontent (.error _)
      · rw [if_neg htail, if_pos ⟨hne, Bool.eq_false_iff.mpr htail⟩]
        have hf : (a.server ts junk).mkfle (some d) u (leaseStat l) c mode stat =
            a.reply stat (cl.createAt ts d ⟨u, leaseStat l, .mkfle c mode⟩ c (a.given junk stat)) :=
          Access.server_mkfle.trans (if_pos hfits)
        exact create_did hset hd j ts hroom hstands hinv hcontent
          (.inl ⟨mode, rfl⟩ : Filesystem.Creates ⟨u, _, .mkfle c mode⟩ c) rfl (fun _ _ => rfl) stat _
          (f := fun d => (a.server ts junk).mkfle d u (leaseStat l) c mode stat) hf rfl
    | mkdir mode stat =>
      rw [Api.last, Api.op, Tree.act, if_pos hne]
      have hf : (a.server ts junk).mkdir (some d) u (leaseStat l) c mode stat =
          a.reply stat (cl.createAt ts d ⟨u, leaseStat l, .mkdir c mode⟩ c (a.given junk stat)) :=
        Access.server_mkdir.trans (if_pos hfits)
      exact create_did hset hd j ts hroom hstands hinv hcontent
        (.inr ⟨mode, rfl⟩ : Filesystem.Creates ⟨u, _, .mkdir c mode⟩ c) rfl (fun _ _ => rfl) stat _
        (f := fun d => (a.server ts junk).mkdir d u (leaseStat l) c mode stat) hf rfl
    | lstat stat =>
      rw [Api.last, Api.op, Tree.act, if_pos hne]
      exact lstat_did hset hd j ts junk u hstands hinv hcontent hfits tail stat rfl
    | atdir =>
      rw [Api.last, if_pos hne]
      exact .same hd hinv hcontent (.handle (.named hstands hfits))

/-- **A step** goes on in the tree, or is the last: then the operation did what the
namespace says. -/
theorem OnWay.step (hroom : ∀ i < cl.n, (d i).inoq.toNat + 1 < 2 ^ 56) (hc : s.content = some d)
    (hi : s.Inv (Access.Leased cl)) {cs : List Slice} (hcs : [] ∉ cs) {p : Progress FilesystemCli.Handle}
    (hway : OnWay a d (cl.skipPermChecks j) u h cs p) (tail : Bool) {api : Api}
    (hfits : a.fitsPath api cs = true) :
    let x := p.step (client a lru j ts junk u) api tail cs s
    (x.1.Inv (Access.Leased cl) ∧ x.1.content = some d ∧ OnWay a d (cl.skipPermChecks j) u h cs x.2) ∨
      ∃ r, x.2 = .finished r ∧
        Did a d (a.told api cs.getLast?) ((cl.tree d).perform (cl.skipPermChecks j) u h cs tail api.op) x.1 r := by
  obtain ⟨hlooks, hlast⟩ := Bool.and_eq_true_iff.mp hfits
  have hlooks := List.all_eq_true.mp hlooks
  have hlast : ∀ c, cs.getLast? = some c → a.fits (api.request c) = true := fun c hc => by
    rw [hc] at hlast
    exact hlast
  cases hway with
  -- the root, or the handle the call was given
  | @entered at? hopen =>
    obtain ⟨hinv, hcontent, hagree⟩ := start_agrees hset hd lru j ts junk u hc hi hopen
    rw [Progress.step, Tree.perform]
    generalize (client a lru j ts junk u).start s at? = r at hinv hcontent hagree
    obtain ⟨s₁, found⟩ := r
    cases hstart : (cl.tree d).start (cl.skipPermChecks j) u h with
    | error e =>
      rw [hstart] at hagree
      cases hagree with
      | error => exact .inr ⟨_, rfl, .same hd hinv hcontent (.error e)⟩
    | ok dir =>
      rw [hstart] at hagree
      cases hagree with
      | ok hstands =>
        exact .inl ⟨hinv, hcontent, .walking ⟨dir, hstart, rfl⟩ hstands
          (List.nil_append cs).symm fun hnil => hnil⟩
  | @walking dir done left l hleads hstands hcut hnil =>
    rw [hleads.perform hcut hnil]
    cases left with
    -- the path has no name: the operation is on the directory reached itself
    | nil =>
      have hnone : cs.getLast? = none := List.getLast?_eq_none_iff.mpr (hnil rfl)
      have hdid := act_did (a := a) hset hd lru j ts junk u hroom hstands hi hc tail api
        (show (none : Option Slice) ≠ some [] from (Option.some_ne_none []).symm) fun c h => by cases h
      rw [hnone]
      exact .inr ⟨_, rfl, hdid.release l⟩
    | cons c left =>
      cases left with
      -- its last name: the operation itself
      | nil =>
        have hsome : cs.getLast? = some c := by rw [hcut, List.getLast?_concat]
        have hmem : some c ≠ some [] := fun h => hcs (by
          rw [hcut, Option.some.inj h]
          exact List.mem_append_right done (List.mem_singleton_self []))
        have hdid := act_did hset hd lru j ts junk u hroom hstands hi hc tail api hmem
          fun c' h => hlast c' (hsome.trans h)
        rw [hsome]
        exact .inr ⟨_, rfl, hdid.release l⟩
      -- a name on the way: one lookup, and the lease before it is let go
      | cons c' left =>
        have hin : c ∈ cs := by
          rw [hcut]
          exact List.mem_append_right done (List.mem_cons_self ..)
        obtain ⟨hinv, hcontent, hagree⟩ :=
          lokup_agrees hset hd lru j ts junk u hc hi hstands (hlooks c hin)
        have hdir : hstands.dir = dir := rfl
        have hrep : (client a lru j ts junk u).rep l = leaseStat l := by cases l <;> rfl
        rw [hdir] at hagree
        rw [Progress.step, hrep, List.dropLast_cons_of_ne_nil (List.cons_ne_nil c' left), Tree.descend]
        generalize (client a lru j ts junk u).lokup s (leaseStat l) c .kRegular = r
          at hinv hcontent hagree
        obtain ⟨s₁, found⟩ := r
        cases hchild : (cl.tree d).child (cl.skipPermChecks j) u dir c with
        | error e =>
          rw [hchild] at hagree
          cases hagree with
          | error =>
            exact .inr ⟨_, rfl,
              .same hd (hinv.release l) ((Client.release_content s₁ l).trans hcontent) (.error e)⟩
        | ok dir' =>
          rw [hchild] at hagree
          cases hagree with
          | ok hstands' =>
            refine .inl ⟨hinv.release l, (Client.release_content s₁ l).trans hcontent,
              .walking (hleads.concat hchild) hstands' ?_ fun h => absurd h (List.cons_ne_nil c' left)⟩
            rw [hcut, List.append_assoc, List.singleton_append]

/-- **Steps** that nobody comes between. An operation that is alone is where `Steps` says
after any number of steps, or has returned. -/
theorem OnWay.steps (hroom : ∀ i < cl.n, (d i).inoq.toNat + 1 < 2 ^ 56) {cs : List Slice} (hcs : [] ∉ cs)
    (tail : Bool) {api : Api} (hfits : a.fitsPath api cs = true) (n : Nat) :
    ∀ {s : Client (Option Cluster.Contents)} {p : Progress FilesystemCli.Handle}, s.content = some d →
      s.Inv (Access.Leased cl) → OnWay a d (cl.skipPermChecks j) u h cs p →
    let x := Progress.steps (client a lru j ts junk u) api tail cs n (s, p)
    OnWay a d (cl.skipPermChecks j) u h cs x.2 ∨ ∃ r, x.2 = .finished r ∧
      Did a d (a.told api cs.getLast?) ((cl.tree d).perform (cl.skipPermChecks j) u h cs tail api.op) x.1 r := by
  induction n with
  | zero => exact fun _ _ hway => .inl hway
  | succ n ih =>
    intro s p hc hi hway
    rcases OnWay.step hset hd lru j ts junk u hroom hc hi hcs hway tail hfits with
      ⟨hinv, hcontent, hway'⟩ | ⟨r, hr, hdid⟩
    · exact ih hcontent hinv hway'
    · right
      rw [Progress.steps]
      generalize p.step (client a lru j ts junk u) api tail cs s = x at hr hdid
      obtain ⟨s₁, p₁⟩ := x
      obtain rfl : p₁ = .finished r := hr
      rw [Progress.steps_finished]
      exact ⟨r, rfl, hdid⟩

/-- **An operation of a client** does what it does in the namespace, whatever leases the
client has. -/
theorem run_did (hroom : ∀ i < cl.n, (d i).inoq.toNat + 1 < 2 ^ 56) (hc : s.content = some d)
    (hi : s.Inv (Access.Leased cl)) (hopen : Opened a d h at?) (path : AbsolutePath) {api : Api}
    (hfits : a.fitsPath api (components path.bytes) = true) :
    ∃ s' r, api.run (client a lru j ts junk u) s at? (cstr path.bytes) = some (s', r) ∧
      Did a d (a.told api (components path.bytes).getLast?)
        ((cl.tree d).perform (cl.skipPermChecks j) u h (components path.bytes) (tailing path) api.op) s' r := by
  refine ⟨_, _, Api.run_eq (client a lru j ts junk u) api path s at?, ?_⟩
  have hsteps := OnWay.steps hset hd lru j ts junk u hroom (nil_notMem_components path.bytes) (tailing path)
    hfits ((components path.bytes).length + 2) hc hi (.entered hopen)
  rw [Progress.steps_entered] at hsteps
  rcases hsteps with hway | ⟨r, hr, hdid⟩
  · cases hway
  · obtain rfl := Progress.finished.inj hr
    exact hdid

end Operations

/-! ## Runs

The commands are those of all clients, one after the other. A client keeps the handles it has
opened, and so does the abstract view; a handle is the place at which one of them was opened. -/

/-- What a client is told to do. -/
structure Cmd where
  client : Nat
  who : User
  /-- what the clocks of the servers show -/
  ts : UInt64
  /-- what a server finds in a stat it has not initialised -/
  junk : Stat
  /-- the handle the path starts from, counted from the first that was opened -/
  handle : Option Nat
  path : AbsolutePath
  api : Api

/-- One of the handles; that of the root if there is none. -/
def pick {α : Type} (k : Option Nat) (handles : List (Option α)) : Option α :=
  k.bind fun k => handles[k]?.join

/-- The servers, the clients, and the handles that have been opened. -/
structure State where
  contents : Cluster.Contents
  clients : Nat → Client (Option Cluster.Contents)
  handles : List At

/-- New clients. -/
def State.start (cl : Cluster) (lru : Nat) (d : Cluster.Contents) (clocks : Nat → Nat → UInt64) : State where
  contents := d
  clients j := Client.start (options cl lru j) (some d) (clocks j)
  handles := []

/-- What there is to see of a reply: the attributes, but not what a handle consists of. -/
def Reply.seen : Reply → Option Attr
  | .stat st => some (Cluster.attrOf st)
  | .handle _ => none

/-- The handle a reply brings. -/
def Reply.opened : Reply → List At
  | .handle (some at?) => [at?]
  | _ => []

/-- The site after an operation of client `j`. -/
def State.after (st : State) (j : Nat) (s : Client (Option Cluster.Contents)) (d : Cluster.Contents)
    (r : Except ErrCode Reply) : State where
  contents := d
  clients := Function.update st.clients j s
  handles := st.handles ++ (r.toOption.map Reply.opened).getD []

/-- A client does what it is told to. No result: it has stopped at an assertion. -/
def State.step {cl : Cluster} (a : Access cl) (lru : Nat) (st : State) (cmd : Cmd) :
    Option (State × Except ErrCode (Option Attr)) :=
  (cmd.api.run (client a lru cmd.client cmd.ts cmd.junk cmd.who)
      { st.clients cmd.client with content := some st.contents } (pick cmd.handle st.handles)
      (cstr cmd.path.bytes)).bind fun x =>
    x.1.content.map fun d => (st.after cmd.client x.1 d x.2, x.2.map Reply.seen)

/-- One command after the other. -/
def State.run {cl : Cluster} (a : Access cl) (lru : Nat) (st : State) :
    List Cmd → Option (State × List (Except ErrCode (Option Attr)))
  | [] => some (st, [])
  | cmd :: cmds => do
    let (st, r) ← st.step a lru cmd
    let (st, rs) ← st.run a lru cmds
    some (st, r :: rs)

/-- The tree, and the handles. -/
structure View where
  tree : Tree
  handles : List Tree.Handle

/-- What there is to see of an answer. -/
def seen (told : Attr → Attr) : Answer → Option Attr
  | .attr x => some (told x)
  | .handle _ => none

/-- The handle an answer brings. -/
def opened : Answer → List Tree.Handle
  | .handle h => [h]
  | .attr _ => []

/-- What a command does in the namespace, and what its client is told. -/
def View.step {cl : Cluster} (a : Access cl) (v : View) (cmd : Cmd) : View × Except ErrCode (Option Attr) :=
  let cs := components cmd.path.bytes
  let x := v.tree.perform (cl.skipPermChecks cmd.client) cmd.who (pick cmd.handle v.handles) cs
    (tailing cmd.path) cmd.api.op
  ({ tree := x.1, handles := v.handles ++ (x.2.toOption.map opened).getD [] },
    x.2.map (seen (a.told cmd.api cs.getLast?)))

/-- One command after the other. -/
def View.run {cl : Cluster} (a : Access cl) (v : View) : List Cmd → View × List (Except ErrCode (Option Attr))
  | [] => (v, [])
  | cmd :: cmds =>
    let x := v.step a cmd
    let y := x.1.run a cmds
    (y.1, x.2 :: y.2)

/-- A site is what the namespace is. -/
structure Refines {cl : Cluster} (a : Access cl) (st : State) (v : View) : Prop where
  sound : cl.Sound st.contents
  clients : ∀ j, ({ st.clients j with content := some st.contents } : Client _).Inv (Access.Leased cl)
  handles : List.Forall₂ (Opened a st.contents) v.handles st.handles
  tree : v.tree = cl.tree st.contents

/-- The requests of a command fit. -/
def Cmd.fits {cl : Cluster} (a : Access cl) (cmd : Cmd) : Bool :=
  a.fitsPath cmd.api (components cmd.path.bytes)

section Runs

variable {cl : Cluster} {a : Access cl} {d d' : Cluster.Contents} {st : State} {v : View}

theorem Opened.kept (hkept : Kept cl d d') {h : Tree.Handle} {at? : At} (ho : Opened a d h at?) :
    Opened a d' h at? := by
  cases ho with
  | root => exact .root
  | named hstands hfits => exact .named (hkept.stands hstands) hfits

theorem pick_opened {hs : List Tree.Handle} {hs' : List At} (h : List.Forall₂ (Opened a d) hs hs')
    (k : Option Nat) : Opened a d (pick k hs) (pick k hs') := by
  cases k with
  | none => exact .root
  | some k =>
    show Opened a d hs[k]?.join hs'[k]?.join
    induction h generalizing k with
    | nil => exact .root
    | cons hhead _ ih =>
      cases k with
      | zero => exact hhead
      | succ k => exact ih k

variable {told : Attr → Attr}

theorem Answers.seen {x : Except ErrCode Answer} {r : Except ErrCode Reply} (h : Answers a d told x r) :
    r.map Reply.seen = x.map (Site.seen told) := by
  cases h with
  | stat hst => exact congrArg (fun y => Except.ok (some y)) hst
  | handle _ => rfl
  | error e => rfl

theorem Answers.opened {x : Except ErrCode Answer} {r : Except ErrCode Reply} (h : Answers a d told x r) :
    List.Forall₂ (Opened a d) ((x.toOption.map Site.opened).getD [])
      ((r.toOption.map Reply.opened).getD []) := by
  cases h with
  | stat _ => exact .nil
  | handle ho => exact .cons ho .nil
  | error e => exact .nil

/-- What is known of leases is known after an operation of somebody else. -/
theorem inv_kept (hkept : Kept cl d d') {s : Client (Option Cluster.Contents)}
    (h : ({ s with content := some d } : Client _).Inv (Access.Leased cl)) :
    ({ s with content := some d' } : Client _).Inv (Access.Leased cl) :=
  h.content fun hl => Access.leased_some.mpr (hkept.leased (Access.leased_some.mp hl))

/-- **One command.** The client takes the steps of its operation alone, from the handle
it names, and the others stay as they are. -/
theorem Refines.step (lru : Nat) (hset : cl.SetUp) (h : Refines a st v) {cmd : Cmd} (hfits : cmd.fits a = true)
    (hroom : ∀ i < cl.n, (st.contents i).inoq.toNat + 1 < 2 ^ 56) :
    ∃ st', st.step a lru cmd = some (st', (v.step a cmd).2) ∧
      Refines a st' (v.step a cmd).1 ∧
      ∀ i, (st'.contents i).inoq.toNat ≤ (st.contents i).inoq.toNat + 1 := by
  obtain ⟨s', r, hrun, hdid⟩ := run_did hset h.sound lru cmd.client cmd.ts cmd.junk cmd.who hroom rfl
    (h.clients cmd.client) (pick_opened h.handles cmd.handle) cmd.path hfits
  rw [← h.tree] at hdid
  obtain ⟨hinv, d', hcontent, hkept, htree, hans⟩ := hdid
  refine ⟨st.after cmd.client s' d' r, ?_, ⟨hkept.sound, fun j => ?_, ?_, htree⟩, hkept.inoq⟩
  · rw [State.step, hrun, Option.bind_some, hcontent, Option.map_some, hans.seen]
    rfl
  · show ({ Function.update st.clients cmd.client s' j with content := some d' } :
      Client _).Inv (Access.Leased cl)
    by_cases hj : j = cmd.client
    · rw [hj, Function.update_self, ← hcontent]
      exact hinv
    · rw [Function.update_of_ne hj]
      exact inv_kept hkept (h.clients j)
  · exact List.rel_append (h.handles.imp fun _ _ ho => ho.kept hkept) hans.opened

/-- **A run.** By induction on the commands; numbers are drawn by creates, one for each at
most, so there is room left for the rest. -/
theorem Refines.run (lru : Nat) (hset : cl.SetUp) (cmds : List Cmd) : ∀ {st : State} {v : View}, Refines a st v →
    (∀ cmd ∈ cmds, cmd.fits a = true) →
    (∀ i < cl.n, (st.contents i).inoq.toNat + cmds.length < 2 ^ 56) →
    ∃ st', st.run a lru cmds = some (st', (v.run a cmds).2) ∧ Refines a st' (v.run a cmds).1 := by
  induction cmds with
  | nil => exact fun h _ _ => ⟨_, rfl, h⟩
  | cons cmd cmds ih =>
    intro st v h hfits hroom
    obtain ⟨st₁, hstep, h₁, hinoq⟩ := h.step lru hset (hfits cmd (List.mem_cons_self ..)) fun i hi => by
      have := hroom i hi
      rw [List.length_cons] at this
      omega
    obtain ⟨st₂, hrun, h₂⟩ := ih h₁ (fun cmd hcmd => hfits cmd (List.mem_cons_of_mem _ hcmd)) fun i hi => by
      have := hroom i hi
      have := hinoq i
      rw [List.length_cons] at *
      omega
    refine ⟨st₂, ?_, h₂⟩
    rw [State.run, hstep, Option.bind_eq_bind, Option.bind_some]
    dsimp only
    rw [hrun]
    rfl

end Runs

/-- Two servers that number their files on their own. -/
def numbered : Cluster := { Cluster.pair with
  servers i := { Filesystem.pairServer i with
    options := { (Filesystem.pairServer i).options with mydno := i.toUInt64 } }
  server _ _ := ⟨rfl, rfl, rfl, rfl⟩ }

theorem setUp_numbered : numbered.SetUp := by
  refine ⟨fun _ _ => rfl, fun i hi j hj h => ?_, fun _ h => by cases h⟩
  have h2 : ∀ i < 2, ∀ j < 2, i.toUInt64 = j.toUInt64 → i = j := by decide
  exact h2 i hi j hj h

/-- Nothing is in them yet. -/
theorem void_numbered : numbered.Void fun _ => ⟨fun _ => none, 0⟩ := by
  intro i _ db hdb key
  obtain rfl := List.mem_singleton.mp hdb
  rfl

/-- What a caller's stat holds by chance. -/
def held : Stat := ⟨0, 0, 7, 0, 0, 0, 0, 8, 9⟩

end Site

end DeltaFs
