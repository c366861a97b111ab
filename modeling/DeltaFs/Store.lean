import Mathlib.Logic.Function.Basic
import Mathlib.Data.List.Induction

/-!
# Maps kept in a coded store

A map from `α` to `β` is often kept in a store of another kind: a name is turned
into a key, a value into a record. When distinct names have distinct keys and
every record can be read back, the store is as good as the map: each command on
the store does to the coded map what it does to the map itself.

The order of the commands is kept and nothing else is asked of the store, so the result is
one about lists of commands: the last one for a name decides (`applyAll_eq_last`).
-/

namespace DeltaFs

variable {α β κ ν : Type}

/-- A command that changes a map, or only reads it. -/
inductive Command (α β : Type) where
  /-- bind a name -/
  | put (a : α) (b : β)
  /-- look a name up -/
  | get (a : α)
  /-- unbind a name -/
  | delete (a : α)
deriving DecidableEq, Repr

namespace Command

/-- The name a command is about. -/
def name : Command α β → α
  | .put a _ => a
  | .get a => a
  | .delete a => a

/-- What a command does to a map. -/
def apply [DecidableEq α] (m : α → Option β) : Command α β → α → Option β
  | .put a b => Function.update m a (some b)
  | .get _ => m
  | .delete a => Function.update m a none

/-- What a list of commands does, the first one first. -/
def applyAll [DecidableEq α] (m : α → Option β) (cs : List (Command α β)) : α → Option β :=
  cs.foldl apply m

/-- A command leaves every other name as it was. -/
theorem apply_of_ne [DecidableEq α] (m : α → Option β) {c : Command α β} {a : α}
    (h : a ≠ c.name) : c.apply m a = m a := by
  cases c with
  | put a' b => exact Function.update_of_ne h _ _
  | get a' => rfl
  | delete a' => exact Function.update_of_ne h _ _

/-- What a command has a name bound to, unless it is a read. -/
def written : Command α β → Option (Option β)
  | .put _ b => some (some b)
  | .get _ => none
  | .delete _ => some none

/-- What the last command on a name that is not a read has it bound to. -/
def last [DecidableEq α] (cs : List (Command α β)) (a : α) : Option (Option β) :=
  cs.reverse.findSome? fun c => if c.name = a then c.written else none

/-- One more command. -/
theorem last_append [DecidableEq α] (cs : List (Command α β)) (c : Command α β) (a : α) :
    last (cs ++ [c]) a = (if c.name = a then c.written else none).or (last cs a) := by
  rw [last, List.reverse_append, List.reverse_singleton, List.singleton_append,
    List.findSome?_cons]
  split
  · rename_i r hr
    rw [hr, Option.some_or]
  · rename_i hr
    rw [hr, Option.none_or]
    rfl

/-- **The last write counts.** By induction from the end: the last command is about the
key or leaves it alone. -/
theorem applyAll_eq_last [DecidableEq α] (m : α → Option β) (cs : List (Command α β)) (a : α) :
    applyAll m cs a = (last cs a).getD (m a) := by
  induction cs using List.reverseRecOn with
  | nil => rfl
  | append_singleton cs c ih =>
    have hstep : applyAll m (cs ++ [c]) a = apply (applyAll m cs) c a := by
      rw [applyAll, List.foldl_append]
      rfl
    rw [hstep, last_append]
    by_cases hname : c.name = a
    · subst hname
      cases c with
      | put a b => simp [apply, name, written]
      | get a => simpa [apply, name, written] using ih
      | delete a => simp [apply, name, written]
    · rw [apply_of_ne _ (Ne.symm hname), ih, if_neg hname, Option.none_or]

end Command

/-- How the names and the values of a map are coded in a store. -/
structure StoreCoding (α β κ ν : Type) where
  /-- the names that have a key of their own -/
  Fits : α → Prop
  /-- the key of a name -/
  key : α → κ
  /-- the record of a value -/
  encode : β → ν
  /-- the value a record stands for -/
  decode : ν → Option β
  /-- distinct names have distinct keys -/
  key_inj : ∀ a a' : α, Fits a → Fits a' → key a = key a' → a = a'
  /-- every record is read back -/
  decode_encode : ∀ b : β, decode (encode b) = some b

namespace StoreCoding

variable (co : StoreCoding α β κ ν)

/-- The command a coded store is given. -/
def command : Command α β → Command κ ν
  | .put a b => .put (co.key a) (co.encode b)
  | .get a => .get (co.key a)
  | .delete a => .delete (co.key a)

/-- A store that codes a map, on the names that fit. -/
def Codes (m : α → Option β) (s : κ → Option ν) : Prop :=
  ∀ a : α, co.Fits a → s (co.key a) = (m a).map co.encode

variable {co}

theorem Codes.empty : co.Codes (fun _ => none) fun _ => none := fun _ _ => rfl

/-- Changing the binding of a name changes the record of its key. -/
theorem Codes.update [DecidableEq α] [DecidableEq κ] {m : α → Option β} {s : κ → Option ν}
    (h : co.Codes m s) {a : α} (ha : co.Fits a) (b : Option β) :
    co.Codes (Function.update m a b) (Function.update s (co.key a) (b.map co.encode)) := by
  intro a' ha'
  by_cases hne : a' = a
  · subst hne
    rw [Function.update_self, Function.update_self]
  · have hkey : co.key a' ≠ co.key a := fun heq => hne (co.key_inj a' a ha' ha heq)
    rw [Function.update_of_ne hne, Function.update_of_ne hkey]
    exact h a' ha'

/-- **One command.** That keys are coded injectively is what keeps the other entries
apart, and that values are decoded is what the entry itself needs. -/
theorem Codes.apply [DecidableEq α] [DecidableEq κ] {m : α → Option β} {s : κ → Option ν}
    (h : co.Codes m s) {c : Command α β} (hc : co.Fits c.name) :
    co.Codes (c.apply m) ((co.command c).apply s) := by
  cases c with
  | put a b => exact h.update hc (some b)
  | get a => exact h
  | delete a => exact h.update hc none

/-- **Any number of commands.** -/
theorem Codes.applyAll [DecidableEq α] [DecidableEq κ] {cs : List (Command α β)} :
    ∀ {m : α → Option β} {s : κ → Option ν}, co.Codes m s → (∀ c ∈ cs, co.Fits c.name) →
      co.Codes (Command.applyAll m cs) (Command.applyAll s (cs.map co.command)) := by
  induction cs with
  | nil =>
    intro m s h _
    exact h
  | cons c cs ih =>
    intro m s h hfits
    exact ih (h.apply (hfits c List.mem_cons_self)) fun c' hc' =>
      hfits c' (List.mem_cons_of_mem c hc')

end StoreCoding

end DeltaFs
