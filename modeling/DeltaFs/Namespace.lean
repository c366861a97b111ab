import DeltaFs.Paths

/-!
# The namespace

What the operations on paths are for, with no servers, no databases and no leases: a
tree of files and directories that have an owner, a group and a mode. Somebody who
follows a path must be allowed to search every directory on it.

This is the specification that `Refinement` compares the filesystem with. It says
nothing of inode numbers, nor of where anything is.

A tree only ever grows (`Tree.Extends`), and most of what is said here is about that: paths
lead where they led, permissions are what they were, and handles stay good. It is what lets
operations of several clients be interleaved.
-/

namespace DeltaFs

namespace Namespace

/-- What there is to know of a file or a directory. -/
structure Attr where
  mode : UInt32
  uid : UInt32
  gid : UInt32
  size : UInt64
  mtime : UInt64
  ctime : UInt64
  deriving DecidableEq

/-- Everybody may do everything in the root. -/
def rootAttr : Attr := ⟨0o777, 0, 0, 0, 0, 0⟩

/-- One of the three permissions in three places, the owner's, the group's and that of
others; the superuser has all. -/
def Attr.permits (a : Attr) (who : User) (usr grp oth : UInt32) : Bool :=
  who.uid = 0 || (who.uid = a.uid && a.mode &&& usr = usr) ||
    (who.gid = a.gid && a.mode &&& grp = grp) || a.mode &&& oth = oth

/-- The checks the client and the servers make of a lookup stat. -/
theorem isModeOk_eq {p : LookupStat} {a : Attr} (hmode : p.dirMode = a.mode) (huid : p.userId = a.uid)
    (hgid : p.groupId = a.gid) (skip : Bool) (who : User) (usr grp oth : UInt32) :
    isModeOk skip usr grp oth p who = (skip || a.permits who usr grp oth) := by
  rw [isModeOk, Attr.permits, hmode, huid, hgid]
  cases skip with
  | true => rfl
  | false =>
    by_cases hroot : who.uid = 0
    · simp [hroot]
    · by_cases husr : who.uid = a.uid ∧ a.mode &&& usr = usr
      · simp [husr]
      · by_cases hgrp : who.gid = a.gid ∧ a.mode &&& grp = grp
        · simp [hroot, husr, hgrp]
        · simp [hroot, husr, hgrp]

/-- To follow a path through a directory. -/
def Attr.maySearch (a : Attr) (who : User) : Bool := a.permits who 0o100 0o010 0o001

/-- To create something in it. -/
def Attr.mayWrite (a : Attr) (who : User) : Bool := a.permits who 0o200 0o020 0o002

/-- The path is that of a directory: the root, or one of `node`. -/
def isDirOf (node : List Slice → Option Attr) (path : List Slice) : Bool :=
  path.isEmpty || (node path).any fun a => isDir a.mode

theorem isDirOf_concat (node : List Slice → Option Attr) (path : List Slice) (c : Slice) :
    isDirOf node (path ++ [c]) = (node (path ++ [c])).any fun a => isDir a.mode := by
  have hne : (path ++ [c]).isEmpty = false :=
    List.isEmpty_eq_false_iff.mpr (List.append_ne_nil_of_right_ne_nil _ (List.cons_ne_nil c []))
  rw [isDirOf, hne, Bool.false_or]

/-- Directories stay when something is put where there was nothing. -/
theorem isDirOf_insert {node : List Slice → Option Attr} {p path : List Slice} {a : Attr}
    (hfree : node p = none) (h : isDirOf node path = true) :
    isDirOf (fun q => if q = p then some a else node q) path = true := by
  rw [isDirOf] at h ⊢
  by_cases hpath : path = p
  · rw [hpath, hfree, Option.any_none, Bool.or_false] at h
    rw [hpath, h, Bool.true_or]
  · rw [if_neg hpath]
    exact h

/-- A tree: what is at each path but the root. -/
@[ext] structure Tree where
  node : List Slice → Option Attr
  root : node [] = none
  /-- everything is in a directory -/
  closed : ∀ path c a, node (path ++ [c]) = some a → isDirOf node path = true

namespace Tree

/-- There is nothing yet. -/
def empty : Tree where
  node _ := none
  root := rfl
  closed _ _ _ h := by cases h

/-- The directories of a tree. -/
abbrev Dir (T : Tree) : Type := { path : List Slice // isDirOf T.node path = true }

variable (T : Tree)

/-- The root. -/
def rootDir : T.Dir := ⟨[], rfl⟩

/-- What there is to know of a directory. -/
def attr (d : T.Dir) : Attr := (T.node d).getD rootAttr

/-! ## Paths

A path is followed one name at a time, with the permission to search at each directory. The
checks are those of the code on a lookup stat (`isModeOk_eq`), said of the attributes of a
directory. -/

variable (skip : Bool) (who : User)

/-- The directory `c` in a directory, for a user who may search this; `skip` leaves out
all checks of permissions. -/
def child (d : T.Dir) (c : Slice) : Except ErrCode T.Dir :=
  if skip || (T.attr d).maySearch who then
    if h : isDirOf T.node (d ++ [c]) = true then .ok ⟨d ++ [c], h⟩
    else if T.node (d ++ [c]) = none then .error .notFound
    else .error .dirExpected
  else .error .accessDenied

/-- One name after the other. -/
def descend (d : T.Dir) : List Slice → Except ErrCode T.Dir
  | [] => .ok d
  | c :: cs =>
    match child T skip who d c with
    | .error e => .error e
    | .ok d => descend d cs

/-- What other paths may start from: the root, or the name in a directory. -/
abbrev Handle : Type := Option (List Slice × Slice)

/-- The directory of a handle. -/
def start : Handle → Except ErrCode T.Dir
  | none => .ok T.rootDir
  | some (path, c) =>
    if h : isDirOf T.node path = true then child T skip who ⟨path, h⟩ c else .error .notFound

/-! ## Operations

Each operation follows all names but the last and acts on the last one in the directory it gets
to. The answer of an `Lstat` depends on the caller's `Stat` in one case, a failure on a path
with a slash at the end; the abstract operation has the mode as an argument for this, so that it
says exactly what the code does. -/

/-- With one more file or directory. -/
def add (d : T.Dir) (c : Slice) (a : Attr) (hfree : T.node (d ++ [c]) = none) : Tree where
  node path := if path = d ++ [c] then some a else T.node path
  root := by
    rw [if_neg (List.append_ne_nil_of_right_ne_nil d.1 (List.cons_ne_nil c [])).symm]
    exact T.root
  closed path x b h := by
    by_cases hpath : path ++ [x] = d.1 ++ [c]
    · obtain ⟨rfl, -⟩ := List.append_inj' hpath rfl
      exact isDirOf_insert hfree d.2
    · rw [if_neg hpath] at h
      exact isDirOf_insert hfree (T.closed path x b h)

/-- A new file or directory, which must not be there. -/
def create (d : T.Dir) (c : Slice) (a : Attr) : Tree × Except ErrCode Attr :=
  if skip || (T.attr d).mayWrite who then
    if h : T.node (d ++ [c]) = none then (T.add d c a h, .ok a) else (T, .error .alreadyExists)
  else (T, .error .accessDenied)

/-- What is there. -/
def stat (d : T.Dir) (c : Slice) : Except ErrCode Attr :=
  if skip || (T.attr d).maySearch who then
    match T.node (d ++ [c]) with
    | none => .error .notFound
    | some a => .ok a
  else .error .accessDenied

/-- The type of a file and of a directory, and the nine permissions. -/
def newAttr (type mode : UInt32) : Attr := ⟨type ||| (mode &&& 0o777), who.uid, who.gid, 0, 0, 0⟩

end Tree

/-- The operations that take a path. -/
inductive Op where
  | mkfle (mode : UInt32)
  | mkdir (mode : UInt32)
  /-- `before` is the mode the caller's `Stat` holds -/
  | lstat (before : UInt32)
  /-- a handle, for other paths to start from -/
  | atdir

/-- What they return. -/
inductive Answer where
  | attr (a : Attr)
  | handle (h : Tree.Handle)
  deriving DecidableEq

/-- The mode that is in the caller's `Stat` after an `Lstat`. -/
def modeAfter (before : UInt32) : Except ErrCode Attr → UInt32
  | .ok a => a.mode
  | .error _ => before

/-- A path that ends with a slash is not that of a file. If nothing can be learned of
it, what the caller's `Stat` held decides. -/
def tailed (tailing : Bool) (before : UInt32) (r : Except ErrCode Attr) : Except ErrCode Attr :=
  if tailing && !isDir (modeAfter before r) then .error .dirExpected else r

namespace Tree

variable (T : Tree) (skip : Bool) (who : User)

/-- An operation in a directory; the name is `none` if the path has no components. -/
def act (d : T.Dir) (tailing : Bool) : Op → Option Slice → Tree × Except ErrCode Answer
  | .mkfle mode, some c =>
    if tailing then (T, .error .fileExpected)
    else
      let r := T.create skip who d c (newAttr who sIfreg mode)
      (r.1, r.2.map .attr)
  | .mkfle _, none => (T, .error .fileExpected)
  | .mkdir mode, some c =>
    let r := T.create skip who d c (newAttr who sIfdir mode)
    (r.1, r.2.map .attr)
  | .mkdir _, none => (T, .error .alreadyExists)
  | .lstat before, some c => (T, (tailed tailing before (T.stat skip who d c)).map .attr)
  | .lstat _, none => (T, .ok (.attr rootAttr))
  | .atdir, some c => (T, .ok (.handle (some (d, c))))
  | .atdir, none => (T, .ok (.handle none))

/-- **An operation on a path** with the names `cs`, from a handle. -/
def perform (h : Handle) (cs : List Slice) (tailing : Bool) (op : Op) :
    Tree × Except ErrCode Answer :=
  match T.start skip who h with
  | .error e => (T, .error e)
  | .ok r =>
    match T.descend skip who r cs.dropLast with
    | .error e => (T, .error e)
    | .ok d => T.act skip who d tailing op cs.getLast?

/-! ### Part of a path

An operation under way has followed some of its names. What is left of it is the same operation
from the directory it has come to, and this is what lets its steps be compared with the whole. -/

variable {T skip who} {h : Handle} {done cs left : List Slice} {d d' : T.Dir} {c : Slice}

theorem descend_append (r : T.Dir) (cs cs' : List Slice) : T.descend skip who r (cs ++ cs') =
    match T.descend skip who r cs with
    | .error e => .error e
    | .ok d => T.descend skip who d cs' := by
  induction cs generalizing r with
  | nil => rfl
  | cons c cs ih =>
    rw [List.cons_append, descend, descend]
    cases T.child skip who r c with
    | error e => rfl
    | ok d => exact ih d

variable (T skip who) in
/-- The names of a path lead to a directory. -/
def Leads (h : Handle) (cs : List Slice) (d : T.Dir) : Prop :=
  ∃ r, T.start skip who h = .ok r ∧ T.descend skip who r cs = .ok d

theorem Leads.concat (hl : T.Leads skip who h done d) (hc : T.child skip who d c = .ok d') :
    T.Leads skip who h (done ++ [c]) d' := by
  obtain ⟨r, hr, hd⟩ := hl
  refine ⟨r, hr, ?_⟩
  rw [descend_append, hd]
  dsimp only
  rw [descend, hc]
  rfl

/-- An operation goes on where the names it has followed lead. -/
theorem Leads.perform (hl : T.Leads skip who h done d) (hcs : cs = done ++ left)
    (hnil : left = [] → cs = []) (tailing : Bool) (op : Op) :
    T.perform skip who h cs tailing op =
      match T.descend skip who d left.dropLast with
      | .error e => (T, .error e)
      | .ok d => T.act skip who d tailing op left.getLast? := by
  obtain ⟨r, hr, hd⟩ := hl
  rw [Tree.perform, hr]
  by_cases hleft : left = []
  · have hcs' := hnil hleft
    have hdone : done = [] := (List.append_eq_nil_iff.mp (hcs.symm.trans hcs')).1
    rw [hdone] at hd
    obtain rfl := Except.ok.inj hd
    rw [hcs', hleft]
  · rw [hcs, List.dropLast_append_of_ne_nil hleft, List.getLast?_append_of_ne_nil done hleft]
    dsimp only
    rw [descend_append, hd]

/-! ### Trees grow

Nothing is removed or changed in the namespace. So a directory that has been reached can be
reached again, and the permissions that were checked on the way still hold. All that is said of
concurrent operations rests on this. -/

/-- What is in a tree stays, as it is. -/
def Extends (T T' : Tree) : Prop := ∀ path a, T.node path = some a → T'.node path = some a

variable {T' : Tree} {path : List Slice}

theorem Extends.refl (T : Tree) : T.Extends T := fun _ _ h => h

theorem Extends.isDir (hx : T.Extends T') (h : isDirOf T.node path = true) :
    isDirOf T'.node path = true := by
  rw [isDirOf, Bool.or_eq_true] at h ⊢
  refine h.imp_right fun hany => ?_
  cases hnode : T.node path with
  | none => rw [hnode] at hany; cases hany
  | some a =>
    rw [hnode] at hany
    rw [hx path a hnode]
    exact hany

/-- Directories are still there. -/
def Extends.dir (hx : T.Extends T') (d : T.Dir) : T'.Dir := ⟨d.1, hx.isDir d.2⟩

theorem Extends.attr (hx : T.Extends T') (d : T.Dir) : T'.attr (hx.dir d) = T.attr d := by
  obtain ⟨path, hdir⟩ := d
  show (T'.node path).getD rootAttr = (T.node path).getD rootAttr
  cases hnode : T.node path with
  | some a => rw [hx path a hnode]
  | none =>
    rw [isDirOf, hnode, Option.any_none, Bool.or_false, List.isEmpty_iff] at hdir
    rw [hdir, T'.root]

theorem Extends.child (hx : T.Extends T') (hc : T.child skip who d c = .ok d') :
    T'.child skip who (hx.dir d) c = .ok (hx.dir d') := by
  rw [Tree.child] at hc ⊢
  rw [hx.attr]
  split at hc
  · rename_i hok
    rw [if_pos hok]
    split at hc
    · rename_i hdir
      obtain rfl := Except.ok.inj hc
      exact dif_pos (hx.isDir hdir)
    · split at hc
      · cases hc
      · cases hc
  · cases hc

theorem Extends.descend (hx : T.Extends T') (hd : T.descend skip who d cs = .ok d') :
    T'.descend skip who (hx.dir d) cs = .ok (hx.dir d') := by
  induction cs generalizing d with
  | nil =>
    obtain rfl := Except.ok.inj hd
    rfl
  | cons c cs ih =>
    rw [Tree.descend] at hd ⊢
    cases hc : T.child skip who d c with
    | error e => rw [hc] at hd; cases hd
    | ok d =>
      rw [hc] at hd
      rw [hx.child hc]
      exact ih hd

theorem Extends.start (hx : T.Extends T') (hs : T.start skip who h = .ok d) :
    T'.start skip who h = .ok (hx.dir d) := by
  cases h with
  | none =>
    obtain rfl := Except.ok.inj hs
    rfl
  | some at? =>
    obtain ⟨path, c⟩ := at?
    rw [Tree.start] at hs ⊢
    split at hs
    · rename_i hdir
      rw [dif_pos (hx.isDir hdir)]
      exact hx.child hs
    · cases hs

/-- **Paths lead where they led.** By induction on the path: each directory on it is still
there, with the permissions it had. -/
theorem Extends.leads (hx : T.Extends T') (hl : T.Leads skip who h cs d) :
    T'.Leads skip who h cs (hx.dir d) := by
  obtain ⟨r, hr, hd⟩ := hl
  exact ⟨hx.dir r, hx.start hr, hx.descend hd⟩

theorem extends_create (a : Attr) : T.Extends (T.create skip who d c a).1 := by
  rw [create]
  split
  · split
    · rename_i hfree
      intro path b hb
      show (if path = d.1 ++ [c] then some a else T.node path) = some b
      rw [if_neg fun hpath => by rw [hpath, hfree] at hb; cases hb]
      exact hb
    · exact .refl T
  · exact .refl T

theorem extends_act (tailing : Bool) (op : Op) (c? : Option Slice) :
    T.Extends (T.act skip who d tailing op c?).1 := by
  cases op with
  | mkfle mode =>
    cases c? with
    | none => exact .refl T
    | some c =>
      rw [act]
      split
      · exact .refl T
      · exact extends_create _
  | mkdir mode =>
    cases c? with
    | none => exact .refl T
    | some c => exact extends_create _
  | lstat before => cases c? <;> exact .refl T
  | atdir => cases c? <;> exact .refl T

/-- **Whatever is done, a tree only grows.** An operation adds at most one node, and
that where there was none; so a handle that is good stays good. -/
theorem extends_perform (T : Tree) (skip : Bool) (who : User) (h : Handle) (cs : List Slice)
    (tailing : Bool) (op : Op) : T.Extends (T.perform skip who h cs tailing op).1 := by
  rw [perform]
  split
  · exact .refl T
  · split
    · exact .refl T
    · exact extends_act tailing op _

end Tree

end Namespace

end DeltaFs
