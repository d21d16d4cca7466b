import Mathlib.Data.Nat.Basic

/-! A view of consecutive lines that follows a moving line. It moves by one line at a time, as
the line does; a line in the view stays in it, and one that is below comes into it when it
is no further away than the view has moved. -/
namespace FollowingView

/-- The first line of the view, where it has `size` lines behind that one. -/
def follow (size first line : Int) : Int :=
  if line < first then first - 1 else if first + size < line then first + 1 else first

/-- The first lines at the moves of a line. -/
def view (size first : Int) (line : Nat → Int) : Nat → Int
  | 0 => follow size first (line 0)
  | k + 1 => follow size (view size first line k) (line (k + 1))

/-- The first lines before the moves. -/
def previous (size first : Int) (line : Nat → Int) : Nat → Int
  | 0 => first
  | k + 1 => view size first line k

/-- A line is in the view. -/
def InView (size first line : Int) : Prop := first ≤ line ∧ line ≤ first + size

/-- The line moves by one. -/
def Steps (line : Nat → Int) : Prop := ∀ k, line k - 1 ≤ line (k + 1) ∧ line (k + 1) ≤ line k + 1

section
variable {size first low high next : Int} {line : Nat → Int} {k : Nat}

private theorem follow_inView (size_nonneg : 0 ≤ size) (above : first - 1 ≤ next) (below : next ≤ first + size + 1) :
    InView size (follow size first next) next := by
  unfold InView follow
  split
  · omega
  · split <;> omega

theorem follow_behind (size_nonneg : 0 ≤ size) (behind : first + size < next) : follow size first next = first + 1 := by
  rw [follow, if_neg (by omega), if_pos behind]

theorem follow_above (above : first - 1 ≤ next) : follow size first next - 1 ≤ next := by
  unfold follow
  split
  · omega
  · split <;> omega

theorem follow_inside (size_nonneg : 0 ≤ size) (inside : low ≤ first ∧ first ≤ high) (line : low ≤ next ∧ next ≤ high) :
    low ≤ follow size first next ∧ follow size first next ≤ high := by
  unfold follow
  split
  · omega
  · split <;> omega

@[simp] theorem follow_previous (size first : Int) (line : Nat → Int) (k : Nat) :
    follow size (previous size first line k) (line k) = view size first line k := by
  cases k <;> rfl

theorem previous_inside (size_nonneg : 0 ≤ size) (inside : low ≤ first ∧ first ≤ high)
    (lines : ∀ k, low ≤ line k ∧ line k ≤ high) (k : Nat) :
    low ≤ previous size first line k ∧ previous size first line k ≤ high := by
  induction k with
  | zero => exact inside
  | succ k ih =>
    rw [previous, ← follow_previous]
    exact follow_inside size_nonneg ih (lines k)

/-- What is in the view stays in it. -/
theorem view_keeps (size_nonneg : 0 ≤ size) (steps : Steps line)
    (shown : InView size (view size first line k) (line k)) :
    InView size (view size first line (k + 1)) (line (k + 1)) := by
  obtain ⟨up, down⟩ := steps k
  obtain ⟨above, below⟩ := shown
  exact follow_inView size_nonneg (by omega) (by omega)

/-- As long as the line is further away than the view has moved, the view moves down. -/
theorem view_behind (size_nonneg : 0 ≤ size) (behind : ∀ j ≤ k, first + j + size + 1 < line j) :
    view size first line k = first + k + 1 := by
  induction k with
  | zero =>
    have here := behind 0 le_rfl
    rw [view, follow_behind size_nonneg (by omega)]
    omega
  | succ k ih =>
    have here := behind (k + 1) le_rfl
    rw [view, ih fun j before => behind j (Nat.le_succ_of_le before), follow_behind size_nonneg (by omega)]
    omega

private theorem far_of_never_near (never : ¬∃ j ≤ k, line j ≤ first + j + size + 1) :
    ∀ j ≤ k, first + j + size + 1 < line j :=
  fun j before => Int.not_le.mp fun near => never ⟨j, before, near⟩

/-- A line that is not above the view at first is in it once it has been near enough. -/
theorem inView_iff (size_nonneg : 0 ≤ size) (steps : Steps line) (start : first - 1 ≤ line 0) (k : Nat) :
    InView size (view size first line k) (line k) ↔ ∃ j ≤ k, line j ≤ first + j + size + 1 := by
  constructor
  · intro shown
    by_contra never
    have moved := view_behind size_nonneg (far_of_never_near never)
    have here := far_of_never_near never k le_rfl
    have below := shown.2
    omega
  · induction k with
    | zero =>
      rintro ⟨j, none, near⟩
      obtain rfl := Nat.le_zero.mp none
      exact follow_inView size_nonneg start (by omega)
    | succ k ih =>
      rintro ⟨j, before, near⟩
      by_cases earlier : ∃ j ≤ k, line j ≤ first + j + size + 1
      · exact view_keeps size_nonneg steps (ih earlier)
      · have last : j = k + 1 := by
          by_contra other
          exact earlier ⟨j, by omega, near⟩
        have moved := view_behind size_nonneg (far_of_never_near earlier)
        have here := far_of_never_near earlier k le_rfl
        have up := (steps k).1
        subst last
        rw [view, moved]
        exact follow_inView size_nonneg (by omega) (by omega)

end

end FollowingView
