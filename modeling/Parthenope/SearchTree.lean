import Mathlib.Data.List.Nodup
import Mathlib.Order.Lattice

/-! Search trees with their nodes in containers, in the order of their keys. What lies
below a node of an inner container begins with the node's own key and stays below the
next one. A search goes on at the last node whose key does not exceed the one searched. -/
namespace SearchTree

variable {ι ν κ : Type*} [LinearOrder κ]

/-- The last node of a container with a key that is not greater. -/
def floor (key : ν → κ) (k : κ) (nodes : List ν) : Option ν :=
  nodes.reverse.find? fun n => key n ≤ k

/-- The node with the greatest key that is not greater. -/
structure IsFloor (key : ν → κ) (k : κ) (nodes : List ν) (n : ν) : Prop where
  member : n ∈ nodes
  le : key n ≤ k
  greatest : ∀ m ∈ nodes, key m ≤ k → key m ≤ key n

/-- A tree and the nodes of its leaves. `Holds` tells of each place whether it is a leaf
and the nodes there, `child` the place below a node. -/
inductive Tree (Holds : ι → Bool → List ν → Prop) (key : ν → κ) (child : ν → ι) : ι → List ν → Prop
  | leaf {i : ι} {nodes : List ν} : Holds i true nodes → nodes ≠ [] →
      nodes.Pairwise (fun n next => key n < key next) → Tree Holds key child i nodes
  | inner {i : ι} {nodes : List ν} {below : ν → List ν} : Holds i false nodes → nodes ≠ [] →
      nodes.Pairwise (fun n next => key n < key next) →
      (∀ n ∈ nodes, Tree Holds key child (child n) (below n)) →
      (∀ n ∈ nodes, (below n).head?.map key = some (key n)) →
      nodes.Pairwise (fun n next => ∀ m ∈ below n, key m < key next) →
      Tree Holds key child i (nodes.flatMap below)

/-- Where a search from a place comes to. -/
inductive Leads (Holds : ι → Bool → List ν → Prop) (key : ν → κ) (child : ν → ι) (k : κ) : ι → ν → Prop
  | leaf {i : ι} {nodes : List ν} {n : ν} : Holds i true nodes → floor key k nodes = some n →
      Leads Holds key child k i n
  | inner {i : ι} {nodes : List ν} {n m : ν} : Holds i false nodes → floor key k nodes = some n →
      Leads Holds key child k (child n) m → Leads Holds key child k i m

variable {Holds : ι → Bool → List ν → Prop} {key : ν → κ} {child : ν → ι} {k : κ} {i : ι}
  {nodes leaves : List ν} {n m : ν}

theorem floor_isSome (member : m ∈ nodes) (le : key m ≤ k) : ∃ n, floor key k nodes = some n := by
  rw [← Option.isSome_iff_exists, floor, List.find?_isSome]
  exact ⟨m, List.mem_reverse.mpr member, decide_eq_true le⟩

theorem floor_isFloor (sorted : nodes.Pairwise fun n next => key n < key next)
    (found : floor key k nodes = some n) : IsFloor key k nodes n := by
  obtain ⟨le, behind, before, split, exceed⟩ := List.find?_eq_some_iff_append.mp found
  have falling := List.pairwise_reverse.mpr sorted
  rw [split] at falling
  obtain ⟨-, rest, -⟩ := List.pairwise_append.mp falling
  refine ⟨?_, of_decide_eq_true le, fun m member small => ?_⟩
  · rw [← List.mem_reverse, split]
    exact List.mem_append_right _ List.mem_cons_self
  · rw [← List.mem_reverse, split] at member
    rcases List.mem_append.mp member with above | further
    · have exceeds := exceed m above
      rw [decide_eq_true small] at exceeds
      cases exceeds
    · rcases List.mem_cons.mp further with rfl | below
      · exact le_rfl
      · exact le_of_lt (List.rel_of_pairwise_cons rest below)

theorem sorted_injective (sorted : nodes.Pairwise fun n next => key n < key next) (member : n ∈ nodes)
    (member' : m ∈ nodes) (equal : key n = key m) : n = m := by
  have distinct : (nodes.map key).Nodup := List.pairwise_map.mpr (sorted.imp ne_of_lt)
  exact List.inj_on_of_nodup_map distinct member member' equal

/-- A node with the key searched is the one found. -/
theorem IsFloor.unique (sorted : nodes.Pairwise fun n next => key n < key next) (isFloor : IsFloor key k nodes n)
    (member : m ∈ nodes) (same : key m = k) : n = m :=
  sorted_injective sorted isFloor.member member
    (le_antisymm (same ▸ isFloor.le) (isFloor.greatest m member (le_of_eq same)))

theorem begins_le {c : κ} (sorted : nodes.Pairwise fun n next => key n < key next)
    (begins : nodes.head?.map key = some c) (member : m ∈ nodes) : c ≤ key m := by
  cases nodes with
  | nil => cases begins
  | cons first rest =>
    cases begins
    rcases List.mem_cons.mp member with rfl | further
    · exact le_rfl
    · exact le_of_lt (List.rel_of_pairwise_cons sorted further)

/-- What holds of each node and the later ones holds wherever the key is less. -/
theorem sorted_forall {R : ν → ν → Prop} (sorted : nodes.Pairwise fun n next => key n < key next)
    (holds : nodes.Pairwise R) (member : n ∈ nodes) (member' : m ∈ nodes) (less : key n < key m) : R n m := by
  have forward : nodes.Pairwise fun a b => key a < key b → R a b := by
    refine holds.imp ?_
    intro a b r _
    exact r
  have backward : nodes.Pairwise (flip fun a b => key a < key b → R a b) :=
    sorted.imp fun less less' => absurd less' (lt_asymm less)
  exact List.Pairwise.forall_of_forall_of_flip (fun x _ less => absurd less (lt_irrefl _)) forward backward
    member member' less

/-- The leaves of a tree are in the order of their keys. -/
theorem Tree.sorted (tree : Tree Holds key child i leaves) : leaves.Pairwise fun n next => key n < key next := by
  induction tree with
  | leaf _ _ sorted => exact sorted
  | inner _ _ _ _ begins ends ih =>
    rw [List.pairwise_flatMap]
    refine ⟨ih, ends.imp_of_mem ?_⟩
    intro n next _ member before m inside m' inside'
    exact lt_of_lt_of_le (before m inside) (begins_le (ih next member) (begins next member) inside')

/-- A search leads to the leaf with the greatest key that is not greater. -/
theorem Tree.leads (tree : Tree Holds key child i leaves) (member : m ∈ leaves) (small : key m ≤ k) :
    ∃ n, Leads Holds key child k i n ∧ IsFloor key k leaves n := by
  induction tree generalizing m with
  | leaf holds _ sorted =>
    obtain ⟨n, found⟩ := floor_isSome member small
    exact ⟨n, .leaf holds found, floor_isFloor sorted found⟩
  | @inner i nodes below holds _ sorted trees begins ends ih =>
    obtain ⟨above, inside, under⟩ := List.mem_flatMap.mp member
    have separates (node : ν) (inside : node ∈ nodes) (leaf : ν) (under : leaf ∈ below node) :
        key node ≤ key leaf := begins_le (trees node inside).sorted (begins node inside) under
    obtain ⟨n, found⟩ := floor_isSome inside (le_trans (separates above inside m under) small)
    have isFloor := floor_isFloor sorted found
    obtain ⟨first, nonempty, same⟩ := Option.map_eq_some_iff.mp (begins n isFloor.member)
    have head : first ∈ below n := List.mem_of_head? nonempty
    obtain ⟨leaf, leads, greatest⟩ := ih n isFloor.member head (le_of_eq_of_le same isFloor.le)
    refine ⟨leaf, .inner holds found leads, List.mem_flatMap.mpr ⟨n, isFloor.member, greatest.member⟩,
      greatest.le, fun other member small => ?_⟩
    obtain ⟨node, inside, under⟩ := List.mem_flatMap.mp member
    have le : key node ≤ key n := isFloor.greatest node inside (le_trans (separates node inside other under) small)
    rcases lt_or_eq_of_le le with before | equal
    · have below : key other < key n := sorted_forall sorted ends inside isFloor.member before other under
      have reached : key n ≤ key leaf := separates n isFloor.member leaf greatest.member
      exact le_of_lt (lt_of_lt_of_le below reached)
    · cases sorted_injective sorted inside isFloor.member equal
      exact greatest.greatest other under small

end SearchTree
