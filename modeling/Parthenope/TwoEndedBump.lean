import Mathlib.Data.Nat.Basic
import Mathlib.Data.List.Basic

/-! A bump allocator that grows in both directions from one address. Blocks
below the base are taken downwards, blocks above it upwards, each at a multiple
of its alignment. Arithmetic is exact, so "fits" is a condition on the natural
numbers involved and a machine implementation refines this one where it holds. -/
namespace TwoEndedBump

/-- `size` bytes at a multiple of `align`, on one side of the base. -/
structure Request where
  size : Nat
  align : Nat
  below : Bool

/-- The two ends of what has been handed out. -/
structure Arena where
  low : Nat
  high : Nat

/-- A request with the address it got and the arena it left. -/
structure Placement where
  request : Request
  addr : Nat
  after : Arena

/-- The greatest multiple of `align` not above `x`. -/
def alignDown (align x : Nat) : Nat := x / align * align

def Arena.place (a : Arena) (r : Request) : Nat :=
  if r.below then alignDown r.align (a.low - r.size - (r.align - 1))
  else alignDown r.align (a.high + (r.align - 1))

def Arena.grow (a : Arena) (r : Request) : Arena :=
  if r.below then { a with low := a.place r } else { a with high := a.place r + r.size }

/-- The request leaves the arena inside the address space `[0, limit)`. -/
def Arena.Fits (limit : Nat) (a : Arena) (r : Request) : Prop :=
  if r.below then r.size + (r.align - 1) ≤ a.low else a.place r + r.size < limit

def Arena.growAll (a : Arena) (rs : List Request) : Arena := rs.foldl Arena.grow a

/-- The placements a list of requests gets, in order. -/
def Arena.placements : Arena → List Request → List Placement
  | _, [] => []
  | a, r :: rs => ⟨r, a.place r, a.grow r⟩ :: (a.grow r).placements rs

/-- Every request of the list fits where it comes. -/
def Arena.FitsAll (limit : Nat) : Arena → List Request → Prop
  | _, [] => True
  | a, r :: rs => a.Fits limit r ∧ (a.grow r).FitsAll limit rs

instance (limit : Nat) (a : Arena) (r : Request) : Decidable (a.Fits limit r) :=
  inferInstanceAs (Decidable (if r.below then _ else _))

instance (limit : Nat) : (a : Arena) → (rs : List Request) → Decidable (a.FitsAll limit rs)
  | _, [] => isTrue trivial
  | a, r :: rs =>
    have := instDecidableFitsAll limit (a.grow r) rs
    inferInstanceAs (Decidable (a.Fits limit r ∧ (a.grow r).FitsAll limit rs))

variable {limit : Nat} {a : Arena} {r : Request} {rs ss : List Request}

private theorem alignDown_le (align x : Nat) : alignDown align x ≤ x := Nat.div_mul_le_self x align

theorem alignDown_multiple (align x : Nat) : align ∣ alignDown align x :=
  ⟨x / align, Nat.mul_comm ..⟩

theorem lt_alignDown_add {align x : Nat} (positive : 0 < align) :
    x < alignDown align x + align := by
  have split := Nat.div_add_mod' x align
  have small := Nat.mod_lt x positive
  unfold alignDown
  omega

@[simp] theorem growAll_cons : a.growAll (r :: rs) = (a.grow r).growAll rs := rfl

theorem growAll_append : a.growAll (rs ++ ss) = (a.growAll rs).growAll ss :=
  List.foldl_append

theorem placements_append :
    a.placements (rs ++ ss) = a.placements rs ++ (a.growAll rs).placements ss := by
  induction rs generalizing a with
  | nil => rfl
  | cons r rs ih => exact congrArg _ ih

theorem fitsAll_append :
    a.FitsAll limit (rs ++ ss) ↔ a.FitsAll limit rs ∧ (a.growAll rs).FitsAll limit ss := by
  induction rs generalizing a with
  | nil => exact ⟨fun fits => ⟨trivial, fits⟩, fun fits => fits.2⟩
  | cons r rs ih =>
    simp only [List.cons_append, Arena.FitsAll, ih, and_assoc]
    rfl

/-- A block below ends where the arena began, one above starts no lower than
it ended. -/
theorem place_beside (fits : a.Fits limit r) (positive : 0 < r.align) :
    (r.below = true → a.place r + r.size ≤ a.low) ∧ (r.below = false → a.high ≤ a.place r) := by
  constructor
  · intro side
    have rounded := alignDown_le r.align (a.low - r.size - (r.align - 1))
    simp only [Arena.Fits, side, if_true] at fits
    simp only [Arena.place, side, if_true]
    omega
  · intro side
    have rounded := lt_alignDown_add (x := a.high + (r.align - 1)) positive
    simp only [Arena.place, side, Bool.false_eq_true, if_false]
    omega

/-- One placement never moves either end inwards. -/
theorem grow_outward (fits : a.Fits limit r) (positive : 0 < r.align) :
    (a.grow r).low ≤ a.low ∧ a.high ≤ (a.grow r).high := by
  obtain ⟨under, upper⟩ := place_beside fits positive
  cases side : r.below with
  | true =>
    have := under side
    simp only [Arena.grow, side, if_true]
    omega
  | false =>
    have := upper side
    simp only [Arena.grow, side, Bool.false_eq_true, if_false]
    omega

private theorem growAll_outward (fits : a.FitsAll limit rs) (positive : ∀ r ∈ rs, 0 < r.align) :
    (a.growAll rs).low ≤ a.low ∧ a.high ≤ (a.growAll rs).high := by
  induction rs generalizing a with
  | nil => exact ⟨le_rfl, le_rfl⟩
  | cons r rs ih =>
    have first := grow_outward fits.1 (positive r (by simp))
    have rest := ih fits.2 (fun s member => positive s (by simp [member]))
    exact ⟨Nat.le_trans rest.1 first.1, Nat.le_trans first.2 rest.2⟩

/-- Where a block of the run lies: on its side, between the arena before the
run and the one after it. -/
def Placement.Between (p : Placement) (before after : Arena) : Prop :=
  if p.request.below then after.low ≤ p.addr ∧ p.addr + p.request.size ≤ before.low
  else before.high ≤ p.addr ∧ p.addr + p.request.size ≤ after.high

theorem placements_between (fits : a.FitsAll limit rs) (positive : ∀ r ∈ rs, 0 < r.align) :
    ∀ p ∈ a.placements rs, p.Between a (a.growAll rs) := by
  induction rs generalizing a with
  | nil => simp [Arena.placements]
  | cons r rs ih =>
    have tailPositive : ∀ s ∈ rs, 0 < s.align := fun s member => positive s (by simp [member])
    have beside := place_beside fits.1 (positive r (by simp))
    have first := grow_outward fits.1 (positive r (by simp))
    have rest := growAll_outward fits.2 tailPositive
    intro p member
    rcases List.mem_cons.mp member with rfl | member
    · cases side : r.below with
      | true =>
        simp only [Arena.grow, side, if_true] at rest
        simpa [Placement.Between, side, Arena.growAll, Arena.grow] using ⟨rest.1, beside.1 side⟩
      | false =>
        simp only [Arena.grow, side, Bool.false_eq_true, if_false] at rest
        simpa [Placement.Between, side, Arena.growAll, Arena.grow] using ⟨beside.2 side, rest.2⟩
    · have inner := ih fits.2 tailPositive p member
      simp only [Placement.Between, growAll_cons] at inner ⊢
      by_cases side : p.request.below
      · simp only [side, if_true] at inner ⊢
        omega
      · simp only [side, Bool.false_eq_true, if_false] at inner ⊢
        omega

/-- Two blocks share no byte. -/
def Placement.Disjoint (p q : Placement) : Prop :=
  p.addr + p.request.size ≤ q.addr ∨ q.addr + q.request.size ≤ p.addr

/-- No two blocks of a run overlap. -/
theorem placements_disjoint (fits : a.FitsAll limit rs) (positive : ∀ r ∈ rs, 0 < r.align)
    (ordered : a.low ≤ a.high) : (a.placements rs).Pairwise Placement.Disjoint := by
  induction rs generalizing a with
  | nil => exact List.Pairwise.nil
  | cons r rs ih =>
    have tailPositive : ∀ s ∈ rs, 0 < s.align := fun s member => positive s (by simp [member])
    have beside := place_beside fits.1 (positive r (by simp))
    have first := grow_outward fits.1 (positive r (by simp))
    refine List.pairwise_cons.mpr ⟨?_, ih fits.2 tailPositive (by omega)⟩
    intro q member
    have later := placements_between fits.2 tailPositive q member
    cases side : r.below with
    | true =>
      simp only [Arena.grow, side, if_true, Placement.Between] at later
      have under := beside.1 side
      simp only [Placement.Disjoint]
      split at later <;> omega
    | false =>
      simp only [Arena.grow, side, Bool.false_eq_true, if_false, Placement.Between] at later
      have upper := beside.2 side
      simp only [Placement.Disjoint]
      split at later <;> omega

/-- Every arena along a run lies between the one before it and the one after. -/
theorem placements_nested (fits : a.FitsAll limit rs) (positive : ∀ r ∈ rs, 0 < r.align) :
    ∀ q ∈ a.placements rs,
      (a.growAll rs).low ≤ q.after.low ∧ q.after.low ≤ a.low ∧
        a.high ≤ q.after.high ∧ q.after.high ≤ (a.growAll rs).high := by
  induction rs generalizing a with
  | nil => simp [Arena.placements]
  | cons r rs ih =>
    have tailPositive : ∀ s ∈ rs, 0 < s.align := fun s member => positive s (by simp [member])
    have first := grow_outward fits.1 (positive r (by simp))
    have rest := growAll_outward fits.2 tailPositive
    intro q member
    rcases List.mem_cons.mp member with rfl | member
    · exact ⟨rest.1, first.1, first.2, rest.2⟩
    · obtain ⟨low, below, above, high⟩ := ih fits.2 tailPositive q member
      exact ⟨low, Nat.le_trans below first.1, Nat.le_trans first.2 above, high⟩

/-- Along a run the low end only falls and the high end only rises. -/
theorem placements_outward (fits : a.FitsAll limit rs) (positive : ∀ r ∈ rs, 0 < r.align) :
    (a.placements rs).Pairwise
      (fun p q => q.after.low ≤ p.after.low ∧ p.after.high ≤ q.after.high) := by
  induction rs generalizing a with
  | nil => exact List.Pairwise.nil
  | cons r rs ih =>
    have tailPositive : ∀ s ∈ rs, 0 < s.align := fun s member => positive s (by simp [member])
    refine List.pairwise_cons.mpr ⟨fun q member => ?_, ih fits.2 tailPositive⟩
    have nested := placements_nested fits.2 tailPositive q member
    exact ⟨nested.2.1, nested.2.2.1⟩

theorem placements_aligned : ∀ p ∈ a.placements rs, p.request.align ∣ p.addr := by
  induction rs generalizing a with
  | nil => simp [Arena.placements]
  | cons r rs ih =>
    intro p member
    rcases List.mem_cons.mp member with rfl | member
    · simp only [Arena.place]
      split <;> exact alignDown_multiple ..
    · exact ih p member

end TwoEndedBump
