import Mathlib.Data.Finset.Card
import Mathlib.Data.Finset.Range
import Mathlib.Data.List.Basic

/-! Singly linked lists in a store. `link a` is nothing where no cell is, and
else what the cell's pointer holds. A list that ends cannot come back to a cell,
so it needs no condition that it is acyclic. -/
namespace LinkedList

variable {α : Type*} {link link' : α → Option (Option α)} {a b z : α} {l l' : List α}

/-- The cells from `a` on, up to one that points nowhere. -/
inductive Spells (link : α → Option (Option α)) : α → List α → Prop
  | last {a : α} : link a = some none → Spells link a [a]
  | more {a b : α} {l : List α} : link a = some (some b) → Spells link b l → Spells link a (a :: l)

theorem Spells.head_mem (spells : Spells link a l) : a ∈ l := by
  cases spells <;> exact List.mem_cons_self

theorem Spells.ne_nil (spells : Spells link a l) : l ≠ [] := List.ne_nil_of_mem spells.head_mem

/-- Every cell of the list is there. -/
theorem Spells.live (spells : Spells link a l) : ∀ x ∈ l, link x ≠ none := by
  induction spells with
  | last ends =>
    intro x inside
    cases List.mem_singleton.mp inside
    simp [ends]
  | more linked _ ih =>
    intro x inside
    rcases List.mem_cons.mp inside with rfl | later
    · simp [linked]
    · exact ih x later

theorem Spells.unique (spells : Spells link a l) (other : Spells link a l') : l = l' := by
  induction spells generalizing l' with
  | last ends =>
    cases other with
    | last _ => rfl
    | more linked _ => rw [ends] at linked; cases linked
  | more linked _ ih =>
    cases other with
    | last ends => rw [ends] at linked; cases linked
    | more again rest =>
      rw [linked] at again
      cases again
      rw [ih rest]

theorem Spells.suffix (spells : Spells link a l) (inside : z ∈ l) :
    ∃ l', Spells link z l' ∧ l'.length ≤ l.length := by
  induction spells with
  | last ends =>
    cases List.mem_singleton.mp inside
    exact ⟨_, .last ends, le_rfl⟩
  | more linked rest ih =>
    rcases List.mem_cons.mp inside with rfl | later
    · exact ⟨_, .more linked rest, le_rfl⟩
    · obtain ⟨l', spells, shorter⟩ := ih later
      exact ⟨l', spells, shorter.trans (Nat.le_succ _)⟩

theorem Spells.nodup (spells : Spells link a l) : l.Nodup := by
  induction spells with
  | last _ => exact List.nodup_singleton _
  | more linked rest ih =>
    refine List.nodup_cons.mpr ⟨?_, ih⟩
    intro again
    obtain ⟨l', spells, shorter⟩ := rest.suffix again
    have same := spells.unique (.more linked rest)
    rw [same, List.length_cons] at shorter
    omega

/-- The list depends on its own cells only. -/
theorem Spells.congr (spells : Spells link a l) (same : ∀ x ∈ l, link' x = link x) :
    Spells link' a l := by
  induction spells with
  | last ends => exact .last ((same _ List.mem_cons_self).trans ends)
  | more linked _ ih =>
    have rest := ih fun x inside => same x (List.mem_cons_of_mem _ inside)
    exact .more ((same _ List.mem_cons_self).trans linked) rest

/-- Storing a new cell in the last pointer adds it at the end. -/
theorem Spells.append (spells : Spells link a l) (last : l.getLast? = some z)
    (same : ∀ x ∈ l, x ≠ z → link' x = link x) (stored : link' z = some (some b))
    (ends : link' b = some none) : Spells link' a (l ++ [b]) := by
  induction spells with
  | last _ =>
    cases last
    exact .more stored (.last ends)
  | @more a c l linked rest ih =>
    have tail : l.getLast? = some z := by
      rw [List.getLast?_cons] at last
      cases l with
      | nil => exact absurd rfl rest.ne_nil
      | cons x l =>
        rw [List.getLast?_cons] at last ⊢
        exact last
    have later : z ∈ l := List.mem_of_getLast? tail
    have fresh : a ∉ l := (List.nodup_cons.mp (Spells.more linked rest).nodup).1
    have other : a ≠ z := fun same => fresh (same ▸ later)
    refine .more ((same a List.mem_cons_self other).trans linked) ?_
    exact ih tail fun x inside => same x (List.mem_cons_of_mem _ inside)

/-- A list of cells below a bound is no longer than it. -/
theorem Spells.length_le {link : ℕ → Option (Option ℕ)} {a n : ℕ} {l : List ℕ}
    (spells : Spells link a l) (below : ∀ x ∈ l, x < n) : l.length ≤ n := by
  rw [← List.toFinset_card_of_nodup spells.nodup, ← Finset.card_range n]
  apply Finset.card_le_card
  intro x inside
  exact Finset.mem_range.mpr (below x (List.mem_toFinset.mp inside))

end LinkedList
