import Mathlib.Data.List.Chain
import Mathlib.Data.List.Nodup

/-! Doubly linked lists. The first cell of a list and the last are sentinels, so
that a cell is put in or taken out the same way everywhere. The links are those of
a store, and a change is a second store that differs at the joint only. -/
namespace DoublyLinked

variable {α : Type*} {succ pred succ' pred' : α → α} {a b c z : α} {cells front back l : List α}

/-- Two cells point at each other. -/
def Joined (succ pred : α → α) (a b : α) : Prop := succ a = b ∧ pred b = a

/-- Each cell is joined to the next. -/
def Linked (succ pred : α → α) (cells : List α) : Prop := cells.IsChain (Joined succ pred)

/-- The pointer `a` leads through the cells of `l` to `z`. -/
def Leads (next : α → α) (z : α) : α → List α → Prop
  | a, [] => a = z
  | a, b :: l => a = b ∧ Leads next z (next b) l

theorem Linked.leads (linked : Linked succ pred (a :: l ++ [z])) : Leads succ z (succ a) l := by
  induction l generalizing a with
  | nil => exact (List.isChain_pair.mp linked).1
  | cons b l ih =>
    obtain ⟨joined, rest⟩ := List.isChain_cons_cons.mp linked
    exact ⟨joined.1, ih rest⟩

theorem Linked.reverse (linked : Linked succ pred cells) : Linked pred succ cells.reverse := by
  refine List.isChain_reverse.mpr (linked.imp ?_)
  exact fun _ _ joined => ⟨joined.2, joined.1⟩

/-- From the last cell, the links lead back through the list. -/
theorem Linked.leads_back (linked : Linked succ pred (a :: l ++ [z])) : Leads pred a (pred z) l.reverse := by
  have back : Linked pred succ (z :: l.reverse ++ [a]) := by
    simpa using linked.reverse
  exact back.leads

theorem Linked.congr (linked : Linked succ pred cells) (after : ∀ x ∈ cells.dropLast, succ' x = succ x)
    (before : ∀ y ∈ cells.tail, pred' y = pred y) : Linked succ' pred' cells := by
  induction cells with
  | nil => exact List.isChain_nil
  | cons a l ih =>
    cases l with
    | nil => exact List.isChain_singleton a
    | cons b l =>
      obtain ⟨⟨forth, back⟩, rest⟩ := List.isChain_cons_cons.mp linked
      refine List.isChain_cons_cons.mpr ⟨⟨?_, ?_⟩, ih rest ?_ ?_⟩
      · exact (after a List.mem_cons_self).trans forth
      · exact (before b List.mem_cons_self).trans back
      · exact fun x inside => after x (List.mem_cons_of_mem _ inside)
      · exact fun y inside => before y (List.mem_cons_of_mem _ inside)

section
variable (once : (front ++ a :: b :: back).Nodup)
  (after : ∀ x ∈ front ++ a :: b :: back, x ≠ a → succ' x = succ x)
  (before : ∀ y ∈ front ++ a :: b :: back, y ≠ b → pred' y = pred y)

include once after before in
/-- The cells on either side of a joint that changes stay linked. -/
theorem Linked.sides (left : Linked succ pred (front ++ [a])) (right : Linked succ pred (b :: back)) :
    Linked succ' pred' (front ++ [a]) ∧ Linked succ' pred' (b :: back) := by
  obtain ⟨-, joint, apart⟩ := List.nodup_append.mp once
  obtain ⟨first, second⟩ := List.nodup_cons.mp joint
  obtain ⟨other, -⟩ := List.nodup_cons.mp second
  constructor
  · refine left.congr ?_ ?_
    · intro x inside
      rw [List.dropLast_concat] at inside
      exact after x (List.mem_append_left _ inside) (apart x inside a List.mem_cons_self)
    · intro y inside
      rcases List.mem_append.mp (List.mem_of_mem_tail inside) with earlier | last
      · refine before y (List.mem_append_left _ earlier) ?_
        exact apart y earlier b (List.mem_cons_of_mem _ List.mem_cons_self)
      · cases List.mem_singleton.mp last
        refine before a (List.mem_append_right _ List.mem_cons_self) ?_
        exact fun same => first (same ▸ List.mem_cons_self)
  · refine right.congr ?_ ?_
    · intro x inside
      have there : x ∈ b :: back := List.dropLast_subset _ inside
      refine after x (List.mem_append_right _ (List.mem_cons_of_mem _ there)) ?_
      exact fun same => first (same ▸ there)
    · intro y inside
      refine before y (List.mem_append_right _ (List.mem_cons_of_mem _ (List.mem_cons_of_mem _ inside))) ?_
      exact fun same => other (same ▸ inside)

include once after before in
/-- A cell is put in between two. -/
theorem Linked.insert (linked : Linked succ pred (front ++ a :: b :: back))
    (left : Joined succ' pred' a c) (right : Joined succ' pred' c b) :
    Linked succ' pred' (front ++ a :: c :: b :: back) := by
  obtain ⟨ahead, -, behind⟩ := List.isChain_append_cons_cons.mp linked
  obtain ⟨ahead, behind⟩ := Linked.sides once after before ahead behind
  exact List.isChain_append_cons_cons.mpr ⟨ahead, left, List.isChain_cons_cons.mpr ⟨right, behind⟩⟩

include once after before in
/-- The cell between two is taken out. -/
theorem Linked.remove (linked : Linked succ pred (front ++ a :: c :: b :: back))
    (joined : Joined succ' pred' a b) : Linked succ' pred' (front ++ a :: b :: back) := by
  obtain ⟨ahead, -, rest⟩ := List.isChain_append_cons_cons.mp linked
  obtain ⟨-, behind⟩ := List.isChain_cons_cons.mp rest
  obtain ⟨ahead, behind⟩ := Linked.sides once after before ahead behind
  exact List.isChain_append_cons_cons.mpr ⟨ahead, joined, behind⟩

end

end DoublyLinked
