import DeltaFs.CliDirs
import DeltaFs.FsDb

/-!
# The parallel compactor

`parallel_compactor.cc`: every rank reads the records of its db in order and
sends each to the rank that is to hold it. The compactor knows nothing but the
keys: it takes the directory's numbers from the first 16 bytes, makes the index
of that directory on first sight, and selects the rank of the name with it.

That is enough because a key is a function of the directory and the name, and the first 16
bytes of it of the directory. The type byte and the bits of the number that a key does not
hold are the reason for `DirId.Fits`.
-/

namespace DeltaFs

namespace Compactor

/-- `Key(dir_key)`, read back as the id of a directory. -/
def keyDirId (dirKey : Slice) : DirId := ⟨keyDnode dirKey, keyInode dirKey⟩

/-- `FetchDir`, with `commSize` ranks: the indices made so far, and that of the
directory. -/
def fetchDir (xx : XXHash) (commSize : Nat) (dirs : Slice → Option DirIndex) (dirKey : Slice) :
    (Slice → Option DirIndex) × DirIndex :=
  match dirs dirKey with
  | some giga => (dirs, giga)
  | none =>
    let giga := fetchIndex xx (keyDirId dirKey) commSize commSize
    (Function.update dirs dirKey (some giga), giga)

/-- The loop of `MapReduce`: the records sent, each with the rank it goes
to. -/
def mapReduce (xx : XXHash) (commSize : Nat) :
    (Slice → Option DirIndex) → List (Slice × Slice) → List (Nat × Slice × Slice)
  | _, [] => []
  | dirs, (key, value) :: rs =>
    let dir := fetchDir xx commSize dirs (key.take 16)
    (dir.2.selectServer xx (key.drop 16), key, value) :: mapReduce xx commSize dir.1 rs

variable {xx : XXHash} {commSize : Nat} {dirs : Slice → Option DirIndex}

/-- The indices made so far are those of their keys. -/
def Fetched (xx : XXHash) (commSize : Nat) (dirs : Slice → Option DirIndex) : Prop :=
  ∀ k giga, dirs k = some giga → giga = fetchIndex xx (keyDirId k) commSize commSize

theorem Fetched.fetchDir (h : Fetched xx commSize dirs) (dirKey : Slice) :
    Fetched xx commSize (fetchDir xx commSize dirs dirKey).1 ∧
      (fetchDir xx commSize dirs dirKey).2 =
        fetchIndex xx (keyDirId dirKey) commSize commSize := by
  rw [Compactor.fetchDir]
  split
  · rename_i giga hgiga
    exact ⟨h, h _ _ hgiga⟩
  · refine ⟨fun k giga hk => ?_, rfl⟩
    dsimp only at hk
    by_cases hkey : k = dirKey
    · subst hkey
      rw [Function.update_self] at hk
      exact (Option.some.inj hk).symm
    · rw [Function.update_of_ne hkey] at hk
      exact h k giga hk

/-- **The rank of a record depends on its key alone.** So it does not matter which rank
reads the record, nor when. -/
theorem mapReduce_eq (rs : List (Slice × Slice)) (h : Fetched xx commSize dirs) :
    mapReduce xx commSize dirs rs = rs.map fun r =>
      (FilesystemCli.selectServer xx commSize (keyDirId (r.1.take 16)) (r.1.drop 16), r) := by
  induction rs generalizing dirs with
  | nil => rfl
  | cons r rs ih =>
    obtain ⟨hdirs, hgiga⟩ := h.fetchDir (r.1.take 16)
    rw [mapReduce, hgiga, ih hdirs]
    rfl

theorem Fetched.empty (xx : XXHash) (commSize : Nat) : Fetched xx commSize fun _ => none := by
  intro k giga hk
  cases hk

/-- A key gives its directory and its name back. -/
theorem keyDirId_entryKey {id : DirId} (hid : id.Fits) (name : Slice) :
    keyDirId ((entryKey id name).take 16) = id ∧ (entryKey id name).drop 16 = name := by
  have hlen : (packPrefix id.dno id.ino kDirEntType).length = 16 := length_packPrefix ..
  have htake : (entryKey id name).take 16 = packPrefix id.dno id.ino kDirEntType ++ [] := by
    rw [entryKey, List.take_left' hlen, List.append_nil]
  refine ⟨?_, List.drop_left' hlen⟩
  rw [htake, keyDirId, keyDnode_packPrefix, keyInode_packPrefix hid]

/-- **The compactor sends an entry to the server its clients send it to.** It knows the
entry only by its key, out of which it reads the directory and the name. -/
theorem mem_mapReduce {id : DirId} (hid : id.Fits) {name value : Slice} {rs : List (Slice × Slice)}
    (hr : (entryKey id name, value) ∈ rs) (i : Nat) :
    (i, entryKey id name, value) ∈ mapReduce xx commSize (fun _ => none) rs ↔
      i = FilesystemCli.selectServer xx commSize id name := by
  obtain ⟨hdir, hname⟩ := keyDirId_entryKey hid name
  rw [mapReduce_eq rs (Fetched.empty xx commSize), List.mem_map]
  constructor
  · rintro ⟨r, -, heq⟩
    obtain ⟨rfl, rfl⟩ := Prod.mk.inj heq
    rw [hdir, hname]
  · rintro rfl
    exact ⟨_, hr, by rw [hdir, hname]⟩

end Compactor

end DeltaFs
