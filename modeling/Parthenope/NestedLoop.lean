import Parthenope.LoopReturn

/-! Loops within loops. With more fuel a step that runs loops of its own does the same
or gets further, so the loops of all amounts of fuel are one loop, `settle step`. -/
namespace StepLoop

variable {σ ρ : Type*} {step : Nat → σ → Option ρ ⊕ σ} {s t u : σ} {r : ρ} {n m k : Nat}

/-- Fuel decides only whether a step gets done. -/
def Steady (step : Nat → σ → Option ρ ⊕ σ) : Prop :=
  ∀ s n m, n ≤ m → step n s ≠ .inl none → step m s = step n s

open Classical in
/-- The step with enough fuel, if any is. -/
noncomputable def settle (step : Nat → σ → Option ρ ⊕ σ) (s : σ) : Option ρ ⊕ σ :=
  if settled : ∃ n, step n s ≠ .inl none then step settled.choose s else .inl none

theorem settle_eq (steady : Steady step) (done : step n s ≠ .inl none) : settle step s = step n s := by
  have settled : ∃ n, step n s ≠ .inl none := ⟨n, done⟩
  rw [settle, dif_pos settled]
  rcases Nat.le_total settled.choose n with less | more
  · exact (steady s _ _ less settled.choose_spec).symm
  · exact steady s _ _ more done

theorem settle_some (settled : settle step s ≠ .inl none) :
    ∃ n, step n s = settle step s := by
  unfold settle at settled ⊢
  split at settled
  · rename_i enough
    rw [dif_pos enough]
    exact ⟨_, rfl⟩
  · exact absurd rfl settled

theorem reaches_mono (steady : Steady step) (reached : Reaches (step n) s t) (more : n ≤ m) :
    Reaches (step m) s t := by
  induction reached with
  | start => exact .start s
  | turn _ turns ih =>
    refine ih.turn ((steady _ n m more ?_).trans turns)
    rw [turns]
    exact Sum.inr_ne_inl

theorem reaches_settle (steady : Steady step) :
    Reaches (settle step) s t ↔ ∃ n, Reaches (step n) s t := by
  constructor
  · intro reached
    induction reached with
    | start => exact ⟨0, .start s⟩
    | turn _ turns ih =>
      obtain ⟨n, before⟩ := ih
      obtain ⟨m, same⟩ := settle_some (turns ▸ Sum.inr_ne_inl)
      have done := same.trans turns
      refine ⟨max n m, (reaches_mono steady before (le_max_left n m)).turn ?_⟩
      exact (steady _ m _ (le_max_right n m) (done ▸ Sum.inr_ne_inl)).trans done
  · rintro ⟨n, reached⟩
    induction reached with
    | start => exact .start s
    | turn _ turns ih => exact ih.turn ((settle_eq steady (turns ▸ Sum.inr_ne_inl)).trans turns)

/-- A loop that ends with a result at once comes to no other state. -/
theorem nested_stays (steady : Steady step) (ends : step n s = .inl (some r)) (reached : Reaches (step m) s t) :
    t = s := by
  rcases reached.head with same | ⟨u, turns, -⟩
  · exact same.symm
  · have ended : settle step s = step n s := settle_eq steady (ends ▸ by simp)
    have turned : settle step s = step m s := settle_eq steady (turns ▸ Sum.inr_ne_inl)
    rw [turned, turns, ends] at ended
    cases ended

private theorem run_more (steady : Steady step) (runs : run (step n) k s = some (some r)) (more : n ≤ m) :
    run (step m) k s = some (some r) := by
  induction k generalizing s with
  | zero => cases runs
  | succ k ih =>
    cases turn : step n s with
    | inl r' =>
      rw [run_ends turn] at runs
      cases runs
      exact run_ends ((steady s n m more (by rw [turn]; simp)).trans turn)
    | inr t =>
      rw [run_turns turn] at runs
      rw [run_turns ((steady s n m more (by rw [turn]; simp)).trans turn)]
      exact ih runs

theorem nested_more (steady : Steady step) (ends : nested step n s = some r) (more : n ≤ m) :
    nested step m s = some r := by
  have runs := run_more steady (Option.join_eq_some_iff.mp ends) more
  exact Option.join_eq_some_iff.mpr (run_mono runs more)

theorem nested_now (steady : Steady step) (ends : step n s = .inl (some r)) : nested step (n + 1) s = some r := by
  have done : step n s ≠ .inl none := by
    rw [ends]
    simp
  exact Option.join_eq_some_iff.mpr (run_ends ((steady s n (n + 1) (Nat.le_succ n) done).trans ends))

/-- A turn before what a nested loop comes to. -/
theorem nested_before (steady : Steady step) (turns : step n s = .inr t) (rest : nested step m t = some r) :
    nested step (max n m + 1) s = some r := by
  have done : step n s ≠ .inl none := by
    rw [turns]
    exact Sum.inr_ne_inl
  have first := (steady s n (max n m + 1) (by omega) done).trans turns
  have runs := run_more steady (Option.join_eq_some_iff.mp rest) (show m ≤ max n m + 1 by omega)
  apply Option.join_eq_some_iff.mpr
  rw [run_turns first]
  exact run_mono runs (le_max_right n m)

theorem nested_unique {r' : ρ} (steady : Steady step) (ends : nested step n s = some r)
    (ends' : nested step m s = some r') : r = r' := by
  have one := nested_more steady ends (le_max_left n m)
  have two := nested_more steady ends' (le_max_right n m)
  exact Option.some.inj (one.symm.trans two)

/-- The state that a nested loop ends in. -/
theorem nested_exit (ends : nested step n s = some r) :
    ∃ t, Reaches (step n) s t ∧ step n t = .inl (some r) :=
  run_exit (Option.join_eq_some_iff.mp ends)

private theorem settle_reaches (steady : Steady step) (reached : Reaches (step n) s t)
    (ends : step n t = .inl (some r)) : ∃ k, run (settle step) k s = some (some r) := by
  have done : step n t ≠ .inl none := by
    rw [ends]
    simp
  have ends' := (settle_eq steady done).trans ends
  exact run_reaches ((reaches_settle steady).mpr ⟨n, reached⟩) (run_ends (n := 0) ends')

/-- What a nested loop comes to, the settled loop comes to. -/
theorem nested_settle (steady : Steady step) :
    (∃ fuel, nested step fuel s = some r) ↔ ∃ n, run (settle step) n s = some (some r) := by
  constructor
  · rintro ⟨fuel, runs⟩
    obtain ⟨t, reached, ends⟩ := nested_exit runs
    exact settle_reaches steady reached ends
  · rintro ⟨n, runs⟩
    have enough : ∃ k, run (step k) n s = some (some r) := by
      induction n generalizing s with
      | zero => cases runs
      | succ n ih =>
        cases turn : settle step s with
        | inl r' =>
          rw [run_ends turn] at runs
          cases runs
          obtain ⟨k, same⟩ := settle_some (by rw [turn]; simp)
          exact ⟨k, run_ends (same.trans turn)⟩
        | inr t =>
          rw [run_turns turn] at runs
          obtain ⟨k, rest⟩ := ih runs
          obtain ⟨m, same⟩ := settle_some (by rw [turn]; exact Sum.inr_ne_inl)
          have done : step m s ≠ .inl none := by
            rw [same, turn]
            exact Sum.inr_ne_inl
          refine ⟨max k m, ?_⟩
          rw [run_turns ((steady s m _ (le_max_right k m) done).trans (same.trans turn))]
          exact run_more steady rest (le_max_left k m)
    obtain ⟨k, runs⟩ := enough
    refine ⟨max k n, Option.join_eq_some_iff.mpr ?_⟩
    exact run_mono (run_more steady runs (le_max_left k n)) (le_max_right k n)

/-- A nested loop ends as the state it comes to does. -/
theorem nested_reaches (steady : Steady step) (reached : Reaches (step n) s t)
    (ends : step n t = .inl (some r)) : ∃ fuel, nested step fuel s = some r :=
  (nested_settle steady).mpr (settle_reaches steady reached ends)

theorem nested_undone (undone : step n s = .inl none) : nested step n s = none := by
  cases n with
  | zero => rfl
  | succ n =>
    rw [nested, run_ends undone]
    rfl

/-- A nested loop that turns into itself never ends. -/
theorem nested_stuck (steady : Steady step) (stuck : step n s = .inr s) (fuel : Nat) :
    nested step fuel s = none := by
  cases ended : nested step fuel s with
  | none => rfl
  | some r =>
    obtain ⟨k, runs⟩ := (nested_settle steady).mp ⟨fuel, ended⟩
    have settled : settle step s = .inr s := (settle_eq steady (stuck ▸ Sum.inr_ne_inl)).trans stuck
    rw [run_stuck (.start s) settled] at runs
    cases runs

/-- A nested loop over finitely many states ends if and only if it comes back to none
of them and every turn it comes to gets done. -/
theorem nested_ends_iff (steady : Steady step) (finite : {t | ∃ n, Reaches (step n) s t}.Finite) :
    (∃ fuel r, nested step fuel s = some r) ↔
      Forward (settle step) s ∧ ∀ n t, Reaches (step n) s t → ∃ m, step m t ≠ .inl none := by
  have same : {t | Reaches (settle step) s t} = {t | ∃ n, Reaches (step n) s t} :=
    Set.ext fun t => reaches_settle steady
  constructor
  · rintro ⟨fuel, r, ends⟩
    obtain ⟨n, runs⟩ := (nested_settle steady).mp ⟨fuel, ends⟩
    refine ⟨forward_of_ends runs, fun k t reached => ?_⟩
    obtain ⟨m, -, rest⟩ := run_later runs ((reaches_settle steady).mpr ⟨k, reached⟩)
    have done : settle step t ≠ .inl none := by
      intro undone
      cases m with
      | zero => cases rest
      | succ m =>
        rw [run_ends undone] at rest
        cases rest
    obtain ⟨m, settled⟩ := settle_some done
    exact ⟨m, settled ▸ done⟩
  · rintro ⟨forward, done⟩
    obtain ⟨n, r, runs⟩ := ends_of_forward (same ▸ finite) forward
    obtain ⟨t, reached, ends⟩ := run_exit runs
    obtain ⟨k, reached'⟩ := (reaches_settle steady).mp reached
    obtain ⟨m, finished⟩ := done k t reached'
    cases r with
    | none => exact absurd ((settle_eq steady finished).symm.trans ends) finished
    | some r =>
      obtain ⟨fuel, nested⟩ := (nested_settle steady).mpr ⟨n, runs⟩
      exact ⟨fuel, r, nested⟩

/-- No return to a state, by amounts of fuel. -/
theorem forward_settle (steady : Steady step) : Forward (settle step) s ↔ ∀ n, Forward (step n) s := by
  constructor
  · intro forward n t u reached turns back
    have settled : settle step t = .inr u := (settle_eq steady (turns ▸ Sum.inr_ne_inl)).trans turns
    exact forward t u ((reaches_settle steady).mpr ⟨n, reached⟩) settled ((reaches_settle steady).mpr ⟨n, back⟩)
  · intro forward t u reached turns back
    obtain ⟨n, reached⟩ := (reaches_settle steady).mp reached
    obtain ⟨k, same⟩ := settle_some (turns ▸ Sum.inr_ne_inl)
    obtain ⟨m, back⟩ := (reaches_settle steady).mp back
    let all := max n (max k m)
    have done : step k t ≠ .inl none := by
      rw [same, turns]
      exact Sum.inr_ne_inl
    have turns' : step all t = .inr u := (steady t k all (by omega) done).trans (same.trans turns)
    exact forward all t u (reaches_mono steady reached (by omega)) turns' (reaches_mono steady back (by omega))

/-- Such a loop ends with a good result if and only if, in addition, no turn it comes to
ends it with another one. -/
theorem nested_good_iff (steady : Steady step) (finite : {t | ∃ n, Reaches (step n) s t}.Finite)
    (Good : ρ → Prop) :
    (∃ fuel r, nested step fuel s = some r ∧ Good r) ↔
      (∀ n, Forward (step n) s) ∧ ∀ n t, Reaches (step n) s t →
        ∃ m, step m t ≠ .inl none ∧ ∀ r, step m t = .inl (some r) → Good r := by
  have ends := nested_ends_iff steady finite
  constructor
  · rintro ⟨fuel, r, ended, good⟩
    obtain ⟨forward, done⟩ := ends.mp ⟨fuel, r, ended⟩
    refine ⟨(forward_settle steady).mp forward, fun n t reached => ?_⟩
    obtain ⟨m, finished⟩ := done n t reached
    refine ⟨m, finished, fun r' other => ?_⟩
    obtain ⟨k, runs⟩ := (nested_settle steady).mp ⟨fuel, ended⟩
    obtain ⟨e, comes, exits⟩ := run_exit runs
    have exits' := (settle_eq steady finished).trans other
    cases comes.exit_unique exits ((reaches_settle steady).mpr ⟨n, reached⟩) exits'
    rw [exits] at exits'
    cases exits'
    exact good
  · rintro ⟨forward, done⟩
    obtain ⟨fuel, r, ended⟩ := ends.mpr ⟨(forward_settle steady).mpr forward,
      fun n t reached => (done n t reached).imp fun _ finished => finished.1⟩
    obtain ⟨t, reached, exits⟩ := nested_exit ended
    obtain ⟨m, finished, good⟩ := done fuel t reached
    have settled : step fuel t ≠ .inl none := by
      rw [exits]
      simp
    refine ⟨fuel, r, ended, good r ?_⟩
    rw [← settle_eq steady finished, settle_eq steady settled, exits]

end StepLoop
