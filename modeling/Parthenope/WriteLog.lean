import Mathlib.Logic.Function.Basic
import Mathlib.Data.List.Nodup

/-! A store and the list of writes made to it. Replaying the list gives the
store afterwards; `key` says which cell a write names. -/
namespace WriteLog
open Function

variable {ι α β : Type*} [DecidableEq α] {key : ι → α} {log rest : List (ι × β)}
  {store : α → β} {w : ι × β} {a : α}

def replay (key : ι → α) (log : List (ι × β)) (store : α → β) : α → β :=
  log.foldl (fun store w => update store (key w.1) w.2) store

@[simp] theorem replay_nil : replay key [] store = store := rfl

private theorem replay_cons : replay key (w :: log) store = replay key log (update store (key w.1) w.2) :=
  rfl

theorem replay_append : replay key (log ++ rest) store = replay key rest (replay key log store) :=
  List.foldl_append

/-- A cell no write names keeps its content. -/
theorem replay_other (other : ∀ w ∈ log, key w.1 ≠ a) : replay key log store a = store a := by
  induction log generalizing store with
  | nil => rfl
  | cons w log ih =>
    rw [replay_cons, ih fun v member => other v (List.mem_cons_of_mem _ member)]
    exact update_of_ne (Ne.symm (other w List.mem_cons_self)) ..

/-- A cell some write names holds what one of them wrote. -/
theorem replay_named (store : α → β) (named : ∃ w ∈ log, key w.1 = a) :
    ∃ w ∈ log, key w.1 = a ∧ replay key log store a = w.2 := by
  induction log generalizing store with
  | nil => simp at named
  | cons w log ih =>
    rw [replay_cons]
    by_cases later : ∃ v ∈ log, key v.1 = a
    · obtain ⟨v, member, names, holds⟩ := ih _ later
      exact ⟨v, List.mem_cons_of_mem _ member, names, holds⟩
    · simp only [not_exists, not_and] at later
      obtain ⟨v, member, names⟩ := named
      rcases List.mem_cons.mp member with rfl | below
      · exact ⟨v, List.mem_cons_self, names, by rw [replay_other later, ← names, update_self]⟩
      · exact absurd names (later v below)

/-- Where no two writes name one cell, each cell named holds what was written. -/
theorem replay_written (once : (log.map fun w => key w.1).Nodup) (member : w ∈ log) :
    replay key log store (key w.1) = w.2 := by
  obtain ⟨v, written, names, holds⟩ := replay_named store ⟨w, member, rfl⟩
  rw [holds, List.inj_on_of_nodup_map once written member names]

end WriteLog
