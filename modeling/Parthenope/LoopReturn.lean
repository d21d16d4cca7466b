import Mathlib.Data.Set.Card
import Parthenope.StepLoop

/-! A loop that passes through finitely many states ends if and only if it comes
back to none of them. -/
namespace StepLoop

instance finiteBitVec (w : Nat) : Finite (BitVec w) :=
  Finite.of_injective BitVec.toFin fun _ _ same => BitVec.eq_of_toFin_eq same

variable {σ ρ : Type*} {step : σ → ρ ⊕ σ} {s t u : σ} {r : ρ} {n : Nat}

/-- No state of the loop is come back to. -/
def Forward (step : σ → ρ ⊕ σ) (s : σ) : Prop :=
  ∀ t u, Reaches step s t → step t = .inr u → ¬Reaches step u t

/-- What is left of a run that ends, from a state on the way. -/
theorem run_later (runs : run step n s = some r) (reached : Reaches step s t) :
    ∃ m ≤ n, run step m t = some r := by
  induction reached with
  | start => exact ⟨n, le_rfl, runs⟩
  | turn _ turns ih =>
    obtain ⟨m, less, runs⟩ := ih
    cases m with
    | zero => cases runs
    | succ m =>
      rw [run_turns turns] at runs
      exact ⟨m, Nat.le_of_succ_le less, runs⟩

theorem forward_of_ends (runs : run step n s = some r) : Forward step s := by
  intro t u reached turns back
  obtain ⟨m, -, runs⟩ := run_later runs reached
  -- A run from `t` that ends would have a shorter one from `t` inside it.
  induction m using Nat.strong_induction_on with
  | h m shorter =>
    cases m with
    | zero => cases runs
    | succ m =>
      rw [run_turns turns] at runs
      obtain ⟨k, less, again⟩ := run_later runs back
      exact shorter k (Nat.lt_succ_of_le less) again

/-- A loop that comes to a state which turns into itself never ends. -/
theorem run_stuck (reached : Reaches step s t) (stuck : step t = .inr t) : run step n s = none := by
  cases runs : run step n s with
  | none => rfl
  | some r => exact absurd (Reaches.start t) (forward_of_ends runs t t reached stuck)

/-- A loop that always goes on never ends. -/
theorem run_forever (Inv : σ → Prop) (goes : ∀ s, Inv s → ∃ t, step s = .inr t ∧ Inv t) (start : Inv s) :
    run step n s = none := by
  induction n generalizing s with
  | zero => rfl
  | succ n ih =>
    obtain ⟨t, turns, inv⟩ := goes s start
    rw [run_turns turns]
    exact ih inv

theorem ends_of_forward (finite : {t | Reaches step s t}.Finite) (forward : Forward step s) :
    ∃ n r, run step n s = some r := by
  let ahead (t : σ) := {u | Reaches step t u}
  have inside {t : σ} (reached : Reaches step s t) : ahead t ⊆ {t | Reaches step s t} :=
    fun u further => reached.trans further
  refine ⟨(ahead s).ncard + 1, run_terminates step (Reaches step s) (fun t => (ahead t).ncard)
    (fun t u reached turns => reached.turn turns) ?_ (.start s) (Nat.lt_succ_self _)⟩
  intro t u reached turns
  apply Set.ncard_lt_ncard _ (finite.subset (inside reached))
  constructor
  · exact fun v further => further.before turns
  · intro same
    exact forward t u reached turns (same (Reaches.start t))

theorem ends_iff_forward (finite : {t | Reaches step s t}.Finite) :
    (∃ n r, run step n s = some r) ↔ Forward step s :=
  ⟨fun ⟨_, _, runs⟩ => forward_of_ends runs, ends_of_forward finite⟩

/-- Of finitely many things each needs some fuel; one fuel is enough for all of them. -/
theorem enough_for_each {α : Type} [Finite α] {P : α → Nat → Prop} (each : ∀ x, ∃ n, ∀ m, n ≤ m → P x m) :
    ∃ n, ∀ m, n ≤ m → ∀ x, P x m := by
  obtain ⟨l, -, all⟩ := Finite.exists_univ_list α
  obtain ⟨n, enough⟩ := enough_for_all (l := l) fun x _ => each x
  exact ⟨n, fun m more x => enough m more x (all x)⟩

end StepLoop
