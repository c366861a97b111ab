import Mathlib.Data.List.Induction
import Mathlib.Logic.Function.Basic

/-!
# The tree a graph unfolds to

A graph has the ids `I` of its inner nodes; `G i c` is what is named `c` beneath the
node `i`, and `kid v` the id of `v` if it is an inner node itself. A path is a list of
names, followed from a root.

If no two paths lead to the same inner node, and what is added to the graph is no
inner node or a new one, then it is added to the tree at one path, and no other path
changes.

`Unique` is what makes a graph as good as its tree: an inner node has one path at most, so
what is added at the node is added there and nowhere else. For this to stay so, new inner
nodes need fresh ids.
-/

namespace Unfolding

variable {I N V : Type}

/-- The inner node a path leads to. -/
def walk (kid : V → Option I) (G : I → N → Option V) : I → List N → Option I
  | i, [] => some i
  | i, c :: cs => ((G i c).bind kid).bind fun j => walk kid G j cs

/-- What a path leads to, from `r`; the root is no node of the tree. -/
def node (kid : V → Option I) (G : I → N → Option V) (r : I) (path : List N) : Option V :=
  match path.getLast? with
  | none => none
  | some c => (walk kid G r path.dropLast).bind fun i => G i c

/-- No two paths lead to the same inner node. -/
def Unique (kid : V → Option I) (G : I → N → Option V) (r : I) : Prop :=
  ∀ {cs ds i}, walk kid G r cs = some i → walk kid G r ds = some i → cs = ds

/-- No node has the id. -/
structure New (kid : V → Option I) (G : I → N → Option V) (r j : I) : Prop where
  root : j ≠ r
  node : ∀ i c v, G i c = some v → kid v ≠ some j
  empty : ∀ c, G j c = none

variable {kid : V → Option I} {G G' : I → N → Option V} {r i j : I} {c : N} {cs ds : List N} {v : V}

theorem walk_append (i : I) (cs ds : List N) :
    walk kid G i (cs ++ ds) = (walk kid G i cs).bind fun j => walk kid G j ds := by
  induction cs generalizing i with
  | nil => rfl
  | cons c cs ih =>
    rw [List.cons_append, walk, walk]
    cases (G i c).bind kid with
    | none => rfl
    | some j => exact ih j

theorem walk_concat (i : I) (cs : List N) (c : N) :
    walk kid G i (cs ++ [c]) = (walk kid G i cs).bind fun j => (G j c).bind kid := by
  rw [walk_append]
  cases walk kid G i cs with
  | none => rfl
  | some j =>
    rw [Option.bind_some, Option.bind_some, walk]
    cases (G j c).bind kid with
    | none => rfl
    | some k => rfl

theorem node_concat (r : I) (cs : List N) (c : N) :
    node kid G r (cs ++ [c]) = (walk kid G r cs).bind fun i => G i c := by
  rw [node, List.getLast?_concat]
  dsimp only
  rw [List.dropLast_concat]

/-- Beneath an inner node of the tree is what is beneath it in the graph. -/
theorem node_of_walk (h : walk kid G r cs = some i) (c : N) : node kid G r (cs ++ [c]) = G i c := by
  rw [node_concat, h, Option.bind_some]

/-- A path leads to an inner node if it leads to a node that is one. -/
theorem walk_eq_node (r : I) (cs : List N) (c : N) :
    walk kid G r (cs ++ [c]) = (node kid G r (cs ++ [c])).bind kid := by
  rw [walk_concat, node_concat, Option.bind_assoc]

/-- The inner nodes on the way. -/
theorem walk_dropLast (h : node kid G r (cs ++ [c]) = some v) : ∃ i, walk kid G r cs = some i := by
  rw [node_concat, Option.bind_eq_some_iff] at h
  obtain ⟨i, hi, -⟩ := h
  exact ⟨i, hi⟩

/-- A node with a new id is reached by no path. -/
theorem New.walk_ne (hj : New kid G r j) (cs : List N) : walk kid G r cs ≠ some j := by
  induction cs using List.reverseRecOn with
  | nil => exact fun h => hj.root (Option.some.inj h).symm
  | append_singleton cs c _ =>
    rw [walk_concat, ne_eq, Option.bind_eq_some_iff]
    rintro ⟨i, -, h⟩
    obtain ⟨v, hv, hkid⟩ := Option.bind_eq_some_iff.mp h
    exact hj.node i c v hv hkid

section Insert

/-- What is added to a graph: `v`, at a name that is free. -/
structure Insert (kid : V → Option I) (G G' : I → N → Option V) (r i : I) (c : N) (v : V) : Prop where
  free : G i c = none
  self : G' i c = some v
  other : ∀ k x, k ≠ i ∨ x ≠ c → G' k x = G k x
  new : ∀ j, kid v = some j → New kid G r j

variable [DecidableEq N] (hins : Insert kid G G' r i c v) (hu : Unique kid G r)
  (hw : walk kid G r cs = some i)
include hins hu hw

/-- What is beneath a path, if the path leads where it did or is the one that is new. -/
theorem Insert.node_beneath
    (h : walk kid G' r ds = if ds = cs ++ [c] then kid v else walk kid G r ds) (x : N) :
    node kid G' r (ds ++ [x]) =
      if ds ++ [x] = cs ++ [c] then some v else node kid G r (ds ++ [x]) := by
  rw [node_concat, node_concat, h]
  by_cases hpath : ds ++ [x] = cs ++ [c]
  · obtain ⟨rfl, hx⟩ := List.append_inj' hpath rfl
    obtain rfl := (List.cons.inj hx).1
    have hne : ds ≠ ds ++ [x] := fun h => absurd (congrArg List.length h) (by simp)
    rw [if_neg hne, if_pos rfl, hw, Option.bind_some, hins.self]
  · rw [if_neg hpath]
    by_cases hds : ds = cs ++ [c]
    · -- nothing is beneath what is new, and nothing was
      subst hds
      rw [if_pos rfl, walk_concat, hw, Option.bind_some, hins.free, Option.bind_none, Option.bind_none]
      cases hkid : kid v with
      | none => rfl
      | some j =>
        have hj := hins.new j hkid
        have hji : j ≠ i := fun h => hj.walk_ne cs (h ▸ hw)
        rw [Option.bind_some, hins.other j x (.inl hji), hj.empty]
    · rw [if_neg hds]
      cases hk : walk kid G r ds with
      | none => rfl
      | some k =>
        have hother : k ≠ i ∨ x ≠ c := by
          by_contra hboth
          rw [not_or, not_ne_iff, not_ne_iff] at hboth
          refine hpath ?_
          rw [hu hk (hboth.1 ▸ hw), hboth.2]
        rw [Option.bind_some, Option.bind_some, hins.other k x hother]

/-- The paths lead where they did, but for the one that is new. -/
theorem Insert.walk_eq (ds : List N) :
    walk kid G' r ds = if ds = cs ++ [c] then kid v else walk kid G r ds := by
  induction ds using List.reverseRecOn with
  | nil =>
    rw [if_neg (List.append_ne_nil_of_right_ne_nil cs (List.cons_ne_nil c [])).symm]
    rfl
  | append_singleton ds x ih =>
    rw [walk_eq_node, hins.node_beneath hu hw ih, walk_eq_node]
    split
    · rfl
    · rfl

/-- **The tree grows by one node.** A path to the new node goes through the edge that is
new, and all other paths lead where they led. -/
theorem Insert.node_eq (ds : List N) :
    node kid G' r ds = if ds = cs ++ [c] then some v else node kid G r ds := by
  rcases List.eq_nil_or_concat ds with rfl | ⟨es, x, rfl⟩
  · rw [if_neg (List.append_ne_nil_of_right_ne_nil cs (List.cons_ne_nil c [])).symm]
    rfl
  · rw [List.concat_eq_append]
    exact hins.node_beneath hu hw (hins.walk_eq hu hw es) x

/-- No two paths lead to the same inner node after it either. -/
theorem Insert.unique : Unique kid G' r := by
  intro ds es k hds hes
  rw [hins.walk_eq hu hw] at hds hes
  split at hds
  · rename_i hds'
    split at hes
    · rename_i hes'
      exact hds'.trans hes'.symm
    · exact absurd hes ((hins.new k hds).walk_ne es)
  · split at hes
    · exact absurd hds ((hins.new k hes).walk_ne ds)
    · exact hu hds hes

end Insert

end Unfolding
