import DeltaFs.FsDb
import DeltaFs.Store

/-!
# The writable db as a map of entries

`FilesystemDb` keeps a map from `(directory, name)` to `Stat` in a key-value
store. `entryKey` separates the entries of directories whose inode number fits a
key, whatever the bytes of their names, and `Stat::DecodeFrom` reads back what
`Stat::EncodeTo` wrote; so any sequence of `Put`, `Get` and `Delete` behaves as
it would on the map.

So the theorem is two facts about bytes and one about stores. The bytes are dealt with in
`FsDb`; that a store with such a coding is as good as the map is shown in `Store`, for any
names and values.
-/

namespace DeltaFs

/-- A `Put`, `Get` or `Delete` of the entry `name` of a directory. -/
abbrev DbCommand : Type := Command (DirId × Slice) Stat

/-- How the db keeps its entries: `MXDB`. -/
def entryCoding : StoreCoding (DirId × Slice) Stat Slice Slice where
  Fits e := e.1.Fits
  key e := entryKey e.1 e.2
  encode stat := stat.encodeTo
  decode value := (Stat.decodeFrom value).map Prod.fst
  key_inj e e' h h' heq := Prod.ext_iff.mpr (entryKey_inj h h' heq)
  decode_encode stat := by
    have hdec := stat.decodeFrom_encodeTo []
    rw [List.append_nil] at hdec
    rw [hdec, Option.map_some]

/-- A call on a db whose store does not fail. -/
def Db.exec (db : Db) : DbCommand → Db
  | .put (id, name) stat => (db.put id name stat none).2
  | .get _ => db
  | .delete (id, name) => (db.delete id name none).2

/-- A sequence of calls. -/
def Db.run (db : Db) (cs : List DbCommand) : Db := cs.foldl Db.exec db

/-- A call gives the store the coded command. -/
theorem Db.exec_eq (db : Db) (c : DbCommand) : db.exec c = (entryCoding.command c).apply db := by
  cases c with
  | put e stat => rfl
  | get e => rfl
  | delete e => rfl

theorem Db.run_eq (cs : List DbCommand) (db : Db) :
    db.run cs = Command.applyAll db (cs.map entryCoding.command) := by
  rw [Db.run, Command.applyAll, List.foldl_map]
  congr 1
  funext db c
  exact db.exec_eq c

/-- What `Get` answers: the binding of the entry, or `NotFound`. `stat` is what
the output parameter holds. -/
def answer (binding : Option Stat) (stat : Stat) : Status × Stat :=
  match binding with
  | some found => (.ok, found)
  | none => (.err .notFound [], stat)

/-- `Get`, on a db that codes a map. -/
theorem Db.get_of_codes {m : DirId × Slice → Option Stat} {db : Db} (h : entryCoding.Codes m db)
    {id : DirId} (hid : id.Fits) (name : Slice) (stat : Stat) :
    db.get id name none stat = answer (m (id, name)) stat := by
  have hdb : db (entryKey id name) = (m (id, name)).map Stat.encodeTo := h (id, name) hid
  rw [Db.get]
  cases hm : m (id, name) with
  | none =>
    rw [hm, Option.map_none] at hdb
    simp only [hdb, answer]
  | some found =>
    rw [hm, Option.map_some] at hdb
    have hdec := found.decodeFrom_encodeTo []
    rw [List.append_nil] at hdec
    simp only [hdb, hdec, answer]

/-- After any sequence of calls the db codes the map the same calls make. -/
theorem Db.run_codes {cs : List DbCommand} (h : ∀ c ∈ cs, c.name.1.Fits) :
    entryCoding.Codes (Command.applyAll (fun _ => none) cs) (Db.run (fun _ => none) cs) := by
  rw [Db.run_eq]
  exact StoreCoding.Codes.empty.applyAll h

/-- **The db is a map of entries.** After any sequence of calls, `Get` answers
with all of the record last put for the entry, and with `NotFound` when there is
none or it was deleted since; and one more call leaves the answers for every other
entry as they are.

It rests on two facts about bytes, which `StoreCoding` takes together: different entries have
different keys, and a record that has been encoded is decoded to itself. What is left is a
fact about any store with such a coding (`Command.applyAll_eq_last`). -/
theorem fsdb_map (cs : List DbCommand) (h : ∀ c ∈ cs, c.name.1.Fits) (id : DirId) (hid : id.Fits)
    (name : Slice) (stat : Stat) :
    (Db.run (fun _ => none) cs).get id name none stat =
        answer ((Command.last cs (id, name)).getD none) stat ∧
      ∀ c : DbCommand, c.name.1.Fits → (id, name) ≠ c.name →
        (Db.run (fun _ => none) (cs ++ [c])).get id name none stat =
          (Db.run (fun _ => none) cs).get id name none stat := by
  have hget : ∀ ds : List DbCommand, (∀ c ∈ ds, c.name.1.Fits) →
      (Db.run (fun _ => none) ds).get id name none stat =
        answer ((Command.last ds (id, name)).getD none) stat := fun ds hds => by
    rw [Db.get_of_codes (Db.run_codes hds) hid, Command.applyAll_eq_last]
  refine ⟨hget cs h, fun c hc hne => ?_⟩
  have hcs : ∀ d ∈ cs ++ [c], d.name.1.Fits := by
    intro d hd
    rcases List.mem_append.mp hd with hd | hd
    · exact h d hd
    · obtain rfl := List.mem_singleton.mp hd
      exact hc
  rw [hget _ hcs, hget cs h, Command.last_append, if_neg (Ne.symm hne), Option.none_or]

/-- `fsdb_map` for names of which one begins the other: the second put and the
delete of the longer name leave the empty one alone. -/
theorem fsdb_map_prefix :
    let stat : Stat := ⟨7, 9, 0, 0o100644, 3, 1, 1, 5, 5⟩
    let other : Stat := ⟨7, 10, 0, 0o100600, 4, 2, 2, 6, 6⟩
    (Db.run (fun _ => none) [.put (⟨1, 2⟩, []) stat, .put (⟨1, 2⟩, [0]) other,
      .delete (⟨1, 2⟩, [0])]).get ⟨1, 2⟩ [] none other = (.ok, stat) :=
  (fsdb_map _ (by decide) ⟨1, 2⟩ (by decide) [] _).1

end DeltaFs
