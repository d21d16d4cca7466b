import Mathlib.Data.Nat.Basic

/-! Loops whose body is a step function. A step either ends the loop with a
result or hands on the next state; `run` takes at most a given number of steps.
The rules below carry an invariant through a loop, prove that it ends when a
measure falls, and relate a loop to another that it simulates. -/
namespace StepLoop

variable {σ τ ρ κ : Type*} {step : σ → ρ ⊕ σ} {s t u : σ} {r : ρ} {n m : Nat}

def run (step : σ → ρ ⊕ σ) : Nat → σ → Option ρ
  | 0, _ => none
  | n + 1, s =>
    match step s with
    | .inl r => some r
    | .inr t => run step n t

/-- A loop whose turns run loops of their own, all with the same fuel; a turn for which
that is not enough gives `none`. -/
def nested (step : Nat → σ → Option ρ ⊕ σ) (fuel : Nat) (s : σ) : Option ρ :=
  (run (step fuel) fuel s).join

/-- The state after a number of turns, if the loop has not ended by then. -/
def advance (step : σ → ρ ⊕ σ) : Nat → σ → Option σ
  | 0, s => some s
  | n + 1, s =>
    match step s with
    | .inl _ => none
    | .inr t => advance step n t

/-- The states a loop passes through. -/
inductive Reaches (step : σ → ρ ⊕ σ) : σ → σ → Prop
  | start (s : σ) : Reaches step s s
  | turn {s t u : σ} : Reaches step s t → step t = .inr u → Reaches step s u

theorem run_ends (ends : step s = .inl r) : run step (n + 1) s = some r := by
  simp only [run, ends]

theorem run_turns (turns : step s = .inr t) : run step (n + 1) s = run step n t := by
  simp only [run, turns]

theorem Reaches.trans (first : Reaches step s t) (rest : Reaches step t u) : Reaches step s u := by
  induction rest with
  | start => exact first
  | turn _ turns ih => exact .turn ih turns

theorem Reaches.before (first : step s = .inr t) (rest : Reaches step t u) : Reaches step s u :=
  (Reaches.turn (.start s) first).trans rest

theorem Reaches.head (reached : Reaches step s t) :
    s = t ∨ ∃ u, step s = .inr u ∧ Reaches step u t := by
  induction reached with
  | start => exact .inl rfl
  | turn _ turns ih =>
    rcases ih with rfl | ⟨u, first, rest⟩
    · exact .inr ⟨_, turns, .start _⟩
    · exact .inr ⟨u, first, .turn rest turns⟩

/-- Of two states a loop comes to, one comes to the other. -/
theorem Reaches.linear (reached : Reaches step s t) (reached' : Reaches step s u) :
    Reaches step t u ∨ Reaches step u t := by
  induction reached' with
  | start => exact .inr reached
  | turn _ turns ih =>
    rcases ih with further | behind
    · exact .inl (.turn further turns)
    · rcases behind.head with rfl | ⟨w, first, rest⟩
      · exact .inl (.turn (.start _) turns)
      · rw [turns] at first
        cases first
        exact .inr rest

/-- A loop ends in one state only. -/
theorem Reaches.exit_unique {r' : ρ} (reached : Reaches step s t) (ends : step t = .inl r)
    (reached' : Reaches step s u) (ends' : step u = .inl r') : t = u := by
  have stuck {t u : σ} {r : ρ} (ends : step t = .inl r) (further : Reaches step t u) : t = u := by
    rcases further.head with same | ⟨w, first, -⟩
    · exact same
    · rw [ends] at first
      cases first
  rcases reached.linear reached' with further | further
  · exact stuck ends further
  · exact (stuck ends' further).symm

/-- A loop that counts its turns comes to each count once. -/
theorem Reaches.index_unique (index : σ → Nat) (rises : ∀ s t, step s = .inr t → index s < index t)
    (reached : Reaches step s t) (reached' : Reaches step s u) (same : index t = index u) : t = u := by
  have ahead {t u : σ} (further : Reaches step t u) : t = u ∨ index t < index u := by
    induction further with
    | start => exact .inl rfl
    | turn _ turns ih =>
      have rise := rises _ _ turns
      rcases ih with rfl | less
      · exact .inr rise
      · exact .inr (Nat.lt_trans less rise)
  rcases reached.linear reached' with further | further
  · exact (ahead further).resolve_right (by omega)
  · exact ((ahead further).resolve_right (by omega)).symm

theorem reaches_advance (advanced : advance step n s = some t) : Reaches step s t := by
  induction n generalizing s with
  | zero =>
    cases advanced
    exact .start _
  | succ n ih =>
    unfold advance at advanced
    cases turn : step s with
    | inl r => rw [turn] at advanced; cases advanced
    | inr u =>
      rw [turn] at advanced
      exact (ih advanced).before turn

/-- A run that ends has reached a state whose step is its result. -/
theorem run_exit (runs : run step n s = some r) : ∃ t, Reaches step s t ∧ step t = .inl r := by
  induction n generalizing s with
  | zero => cases runs
  | succ n ih =>
    cases turn : step s with
    | inl r' =>
      rw [run_ends turn] at runs
      cases runs
      exact ⟨s, .start s, turn⟩
    | inr t =>
      rw [run_turns turn] at runs
      obtain ⟨u, reached, ends⟩ := ih runs
      exact ⟨u, reached.before turn, ends⟩

/-- What holds of the result of a run is what holds of the result it is left with. -/
theorem run_result_iff (p : ρ → Prop) (runs : run step n s = some r) :
    p r ↔ ∃ t r', Reaches step s t ∧ step t = .inl r' ∧ p r' := by
  obtain ⟨t, reached, ends⟩ := run_exit runs
  constructor
  · intro holds
    exact ⟨t, r, reached, ends, holds⟩
  · rintro ⟨u, r', reached', ends', holds⟩
    obtain rfl := reached.exit_unique ends reached' ends'
    rw [ends] at ends'
    cases ends'
    exact holds

/-- A run may be begun before the states that lead to it. -/
theorem run_reaches (reached : Reaches step s t) (runs : run step n t = some r) :
    ∃ m, run step m s = some r := by
  induction reached generalizing n with
  | start => exact ⟨n, runs⟩
  | turn _ turns ih => exact ih (n := n + 1) ((run_turns turns).trans runs)

theorem run_mono (runs : run step n s = some r) (more : n ≤ m) : run step m s = some r := by
  induction n generalizing s m with
  | zero => cases runs
  | succ n ih =>
    obtain ⟨m, rfl⟩ : ∃ k, m = k + 1 := ⟨m - 1, by omega⟩
    cases turn : step s with
    | inl r' => rw [run_ends turn] at runs ⊢; exact runs
    | inr t => rw [run_turns turn] at runs ⊢; exact ih runs (by omega)

/-- A loop has one result. -/
theorem run_unique {r' : ρ} (runs : run step n s = some r) (runs' : run step m s = some r') : r = r' := by
  have one := run_mono runs (le_max_left n m)
  have two := run_mono runs' (le_max_right n m)
  rw [one] at two
  exact Option.some.inj two

theorem Reaches.invariant (Inv : σ → Prop) (reached : Reaches step s t)
    (keeps : ∀ s t, Inv s → step s = .inr t → Inv t) (start : Inv s) : Inv t := by
  induction reached with
  | start => exact start
  | turn _ turns ih => exact keeps _ _ ih turns

/-- Loops that agree on the states of a run have the same run. -/
theorem run_congr {step' : σ → ρ ⊕ σ} (same : ∀ t, Reaches step s t → step' t = step t) :
    run step' n s = run step n s := by
  induction n generalizing s with
  | zero => rfl
  | succ n ih =>
    have first := same s (.start s)
    cases turn : step s with
    | inl r => rw [run_ends turn, run_ends (first.trans turn)]
    | inr t =>
      rw [run_turns turn, run_turns (first.trans turn)]
      exact ih fun u reached => same u (reached.before turn)

/-- A loop whose measure falls at every turn that goes on ends within it. -/
theorem run_terminates (step : σ → ρ ⊕ σ) (Inv : σ → Prop) (measure : σ → Nat)
    (keeps : ∀ s t, Inv s → step s = .inr t → Inv t)
    (falls : ∀ s t, Inv s → step s = .inr t → measure t < measure s)
    (start : Inv s) (fuel : measure s < n) : ∃ r, run step n s = some r := by
  induction n generalizing s with
  | zero => omega
  | succ n ih =>
    cases turn : step s with
    | inl r => exact ⟨r, run_ends turn⟩
    | inr t =>
      have fell := falls s t start turn
      rw [run_turns turn]
      exact ih (keeps s t start turn) (by omega)

/-- A loop that follows another turn by turn comes wherever that one comes. -/
theorem reaches_simulated {step' : τ → κ ⊕ τ} {t t' : τ} (Rel : σ → τ → Prop)
    (turns : ∀ s t t', Rel s t → step' t = .inr t' → ∃ s', Reaches step s s' ∧ Rel s' t')
    (rel : Rel s t) (reached : Reaches step' t t') : ∃ s', Reaches step s s' ∧ Rel s' t' := by
  induction reached with
  | start => exact ⟨s, .start s, rel⟩
  | turn _ turn ih =>
    obtain ⟨s', before, rel'⟩ := ih
    obtain ⟨s'', after, rel''⟩ := turns s' _ _ rel' turn
    exact ⟨s'', before.trans after, rel''⟩

/-- A loop that follows another turn by turn, in one turn or several, ends as it does. -/
theorem run_simulated {step' : τ → κ ⊕ τ} {k : κ} {t' : τ} (Rel : σ → τ → Prop) (Same : ρ → κ → Prop)
    (turns : ∀ s t t', Rel s t → step' t = .inr t' → ∃ s', Reaches step s s' ∧ Rel s' t')
    (ends : ∀ s t k, Rel s t → step' t = .inl k → ∃ n r, run step n s = some r ∧ Same r k)
    (rel : Rel s t') (runs : run step' m t' = some k) : ∃ n r, run step n s = some r ∧ Same r k := by
  induction m generalizing s t' with
  | zero => cases runs
  | succ m ih =>
    cases turn : step' t' with
    | inl k' =>
      rw [run_ends turn] at runs
      cases runs
      exact ends s t' k rel turn
    | inr t'' =>
      rw [run_turns turn] at runs
      obtain ⟨s', reached, rel'⟩ := turns s t' t'' rel turn
      obtain ⟨n, r, result, same⟩ := ih rel' runs
      obtain ⟨n', result'⟩ := run_reaches reached result
      exact ⟨n', r, result', same⟩

/-- What holds of each element from some fuel on holds of all of them from one on. -/
theorem enough_for_all {α : Type} {l : List α} {P : α → Nat → Prop} (each : ∀ x ∈ l, ∃ n, ∀ m, n ≤ m → P x m) :
    ∃ n, ∀ m, n ≤ m → ∀ x ∈ l, P x m := by
  induction l with
  | nil => exact ⟨0, fun _ _ _ none => absurd none List.not_mem_nil⟩
  | cons x l ih =>
    obtain ⟨n, first⟩ := each x List.mem_cons_self
    obtain ⟨n', others⟩ := ih fun y inside => each y (List.mem_cons_of_mem _ inside)
    refine ⟨max n n', fun m more y inside => ?_⟩
    rcases List.mem_cons.mp inside with rfl | inside
    · exact first m (Nat.le_trans (Nat.le_max_left ..) more)
    · exact others m (Nat.le_trans (Nat.le_max_right ..) more) y inside

end StepLoop
