import DeltaFs.Placement
import DeltaFs.Rpc

/-!
# Records without a name

The compactor takes the first 16 bytes of a key for the directory and asserts that
there are more: the name. A server stores a record for whatever name it has
decoded from a request, and a name of no bytes is decoded like any other. So what
the compactor asserts holds of the dbs of servers that have only been asked
to create names that are not empty (`records_named`).

The invariant is about the db alone. What a section is about to put is a name of its call,
by the log of the run, so the condition has only to be imposed on calls. `Mkfle` of the
empty name is a run that shows the condition is needed.
-/

namespace DeltaFs

open Linearization TransitionSystem

/-- What `MapReduce` asserts of every key of a db. -/
def Named (db : Db) : Prop := ∀ key, (db key).isSome = true → 16 < key.length

theorem Named.empty : Named fun _ => none := by
  intro key h
  cases h

theorem length_entryKey (id : DirId) (name : Slice) : (entryKey id name).length = 16 + name.length := by
  rw [entryKey, List.length_append, length_packPrefix]

/-- A put of a name. -/
theorem Named.put {db : Db} (h : Named db) (id : DirId) {name : Slice} (hname : name ≠ [])
    (value : Slice) : Named (Function.update db (entryKey id name) (some value)) := by
  intro key hkey
  by_cases hk : key = entryKey id name
  · have hpos := List.length_pos_iff.2 hname
    rw [hk, length_entryKey]
    omega
  · rw [Function.update_of_ne hk] at hkey
    exact h key hkey

/-- A create of names that are not empty. -/
def Call.NonEmpty (c : Call) : Prop :=
  (∀ name ∈ c.name?, c.isLookup = false → name ≠ []) ∧ ∀ name ∈ c.names, name ≠ []

instance (c : Call) : Decidable c.NonEmpty := instDecidableAnd

namespace Filesystem

variable {fs : Filesystem} {s s' : State} {i : Nat} {op op' : Op} {e : Env}
  {tr evs : List FsEvent} {db₀ : Option Db} {C : State → Label → Prop}

/-- What an operation is about to put is one of the names of its call. -/
theorem putting_nonEmpty {es : List Touch} {name rest : Slice} (ht : op.Touched fs C i es)
    (hpc : op.pc = .putting name rest) (hcall : op.call.NonEmpty) : name ≠ [] := by
  rw [Op.Touched, hpc] at ht
  obtain ⟨hprogress, -, hsingle | ⟨namearr, mode, n, hreq, hnext, -⟩⟩ := ht
  · exact hcall.1 name hsingle.1 hsingle.2
  · exact hcall.2 name (List.mem_of_getElem? (hprogress.next hreq hnext).1)

/-- **A move keeps the records named**, when what it puts is. Only a put and a bulk
insertion write to the db. -/
theorem named_move (h : ∀ db, s.db = some db → Named db) (hm : Move fs s i op e s' op' evs)
    (hput : ∀ name rest, op.pc = .putting name rest → name ≠ [])
    (hbulk : op.call.isBukin = true → Named e.bulk.2) : ∀ db, s'.db = some db → Named db := by
  cases hm with
  | bulk hpc hreq hdb =>
    rintro db heq
    cases heq
    exact hbulk (by rw [Call.isBukin, hreq])
  | put hpc hdb =>
    rintro db heq
    cases heq
    exact (h _ hdb).put _ (hput _ _ hpc) _
  | _ => exact h

/-- Steps in which no request asks for an empty name, and what a bulk insertion
makes of the db has none. -/
def AsksNames (s : State) : Label → Prop
  | .call c _ => c.NonEmpty
  | .advance i e => ∀ op ∈ s.ops[i]?, op.call.isBukin = true → Named e.bulk.2

/-- **Every record has a name**, in every run in which no request asks for an empty
one.

The servers do not check names: what they put is what they have been asked for. A client
takes the names of an operation on a path from the path, where they have a character at
least, but the bytes of a request can be anything. -/
theorem records_named (h₀ : ∀ db, db₀ = some db → Named db)
    (hr : (fs.system db₀).Run AsksNames tr s) : ∀ db, s.db = some db → Named db := by
  refine hr.invariant (I := fun _ s => ∀ db, s.db = some db → Named db) ?_ ?_
  · rintro s rfl db hdb
    exact h₀ db hdb
  · intro tr s l s' evs hr ih hC hs
    rcases step_cases hs with ⟨c, stat, rfl, rfl, rfl⟩ | ⟨i, e, op, s₁, op', rfl, hk, hm, rfl⟩
    · exact ih
    · have hcall := run_calls (P := Call.NonEmpty) (fun _ _ _ h => h) hr hk
      suffices h : ∀ db, s₁.db = some db → Named db from h
      exact named_move ih hm
        (fun name rest hpc => putting_nonEmpty ((run_log hr).touched hk) hpc hcall) (hC op hk)

/-- A test for `AsksNames`, without bulk insertions. -/
def asksNames (s : State) : Label → Bool
  | .call c _ => decide c.NonEmpty
  | .advance i _ => s.ops[i]?.all fun op => !op.call.isBukin

theorem asksNames_sound (s : State) (l : Label) (h : asksNames s l = true) : AsksNames s l := by
  cases l with
  | call c stat =>
    have hcall : c.NonEmpty := of_decide_eq_true h
    exact hcall
  | advance i e =>
    intro op hop hbukin
    rw [asksNames, Option.mem_def.1 hop, Option.all_some, hbukin] at h
    cases h

/-- The record of a run that creates `a` is named. -/
theorem records_named_mkfle : ∃ tr s db, (plainServer.system (some fun _ => none)).Run AsksNames tr s ∧
    s.db = some db ∧ (db (entryKey ⟨0, 0⟩ (str "a"))).isSome = true ∧ Named db := by
  have hend : ((plainServer.system (some fun _ => none)).exec asksNames
      (plainServer.start (some fun _ => none)) (mkfleThenLstat.take 6)).map
        (fun p => p.1.db.map fun db => (db (entryKey ⟨0, 0⟩ (str "a"))).isSome) = some (some true) := by
    decide +kernel
  obtain ⟨⟨s, tr⟩, hx, hdb⟩ := Option.map_eq_some_iff.mp hend
  obtain ⟨db, hdb, hkey⟩ := Option.map_eq_some_iff.mp hdb
  have hinit : (plainServer.system (some fun _ => none)).init
      (plainServer.start (some fun _ => none)) := rfl
  have hrun := Run.exec asksNames_sound (.init hinit) hx
  refine ⟨_, s, db, hrun, hdb, hkey, records_named ?_ hrun db hdb⟩
  intro db hdb
  cases hdb
  exact Named.empty

/-! ## What is not refused

A request without a name passes all checks of the server: it decodes, its way and its partition
are those of the empty string, and the key of its record is the prefix of the directory. The
client does not send such requests, but nothing at the server depends on that. -/

/-- Creates that `FilesystemServer` has decoded from a message. -/
def Delivered : Label → Prop
  | .call c _ => ∃ decode ∈ [Rpc.decodeMkfle, Rpc.decodeMkdir, Rpc.decodeMkfls], ∃ input, decode input = .ok c
  | .advance _ _ => True

/-- `Mkfle` of no name. -/
def unnamed : Call := rootCall 0 (.mkfle [] 0o660)

/-- Whether a step is one of an operation that is there. -/
def Label.isAdvance : Label → Bool
  | .call _ _ => false
  | .advance _ _ => true

theorem unnamed_delivered : Delivered (.call unnamed zeroStat) := by
  refine ⟨Rpc.decodeMkfle, List.mem_cons_self, Rpc.mkfleRequest unnamed.parent [] 0o660 unnamed.who, ?_⟩
  exact Rpc.decodeMkfle_request (by decide) _ _ _

/-- A server stores a record whose key ends where a name begins. -/
theorem unnamed_stored : ¬ ∀ (fs : Filesystem) (tr : List FsEvent) (s : State),
    (fs.system (some fun _ => none)).Run (fun _ l => Delivered l) tr s →
      ∀ db, s.db = some db → Named db := by
  intro hall
  have hinit : (plainServer.system (some fun _ => none)).init
      (plainServer.start (some fun _ => none)) := rfl
  have hcall : (plainServer.system (some fun _ => none)).Run (fun _ l => Delivered l) [.inv 0 unnamed]
      { plainServer.start (some fun _ => none) with ops := [Op.new unnamed zeroStat] } :=
    Run.step (k := .call unnamed zeroStat) (.init hinit) unnamed_delivered rfl
  have hend : ((plainServer.system (some fun _ => none)).exec (fun _ l => l.isAdvance)
      { plainServer.start (some fun _ => none) with ops := [Op.new unnamed zeroStat] }
      (sections 0 5)).map
        (fun p => p.1.db.map fun db => (db (entryKey ⟨0, 0⟩ [])).isSome) = some (some true) := by
    decide +kernel
  obtain ⟨⟨s, evs⟩, hx, hdb⟩ := Option.map_eq_some_iff.mp hend
  obtain ⟨db, hdb, hkey⟩ := Option.map_eq_some_iff.mp hdb
  have hadvance : ∀ (s : State) (l : Label), l.isAdvance = true → Delivered l := by
    intro s l hl
    cases l with
    | call c stat => cases hl
    | advance i e => trivial
  have hrun := Run.exec (C := fun _ l => Delivered l) hadvance hcall hx
  have hnamed := hall plainServer _ s hrun db hdb _ hkey
  rw [length_entryKey] at hnamed
  exact absurd hnamed (by decide)

end Filesystem

end DeltaFs
