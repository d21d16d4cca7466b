import Parthenope.SfsLoops

/-! The objects of a block. An object ends behind its name and its comment, each with
its zero byte, and the next one begins at an even distance from it; the search of a
block ends at an object with the node number zero, or at one that matches. -/
namespace Parthenope.Sfs
open CString Buffer StepLoop

/-- The first zero byte from an offset on. -/
def FirstZero (block : Nat → Byte) (p q : Nat) : Prop :=
  p ≤ q ∧ block q = 0 ∧ ∀ x, p ≤ x → x < q → block x ≠ 0

/-- Where the next object begins, behind the two strings of an object. -/
def NextObject (block : Nat → Byte) (o next : Nat) : Prop :=
  ∃ name comment, FirstZero block (o + soName) name ∧ FirstZero block (name + 1) comment ∧
    next = if (comment + 1 - o) % 2 = 1 then comment + 2 else comment + 1

/-- The objects of a block from an offset on come to an end, or to a match. -/
inductive ObjectsEnd (block : Nat → Byte) (dirname : List Byte) (type : Byte) : Nat → Prop
  | last {o : Nat} : be32 (member block o) soObjectnode = 0 → ObjectsEnd block dirname type o
  | found {o : Nat} : matchesObject (member block o) dirname type = true → ObjectsEnd block dirname type o
  | next {o next : Nat} : NextObject block o next → ObjectsEnd block dirname type next →
      ObjectsEnd block dirname type o

variable {block : Nat → Byte} {dirname : List Byte} {type : Byte} {o next p q i r fuel : Nat}

theorem FirstZero.unique {q' : Nat} (first : FirstZero block p q) (first' : FirstZero block p q') : q = q' := by
  obtain ⟨begun, zero, before⟩ := first
  obtain ⟨begun', zero', before'⟩ := first'
  rcases Nat.lt_trichotomy q q' with less | same | more
  · exact absurd zero (before' q begun less)
  · exact same
  · exact absurd zero' (before q' begun' more)

theorem FirstZero.here (zero : block p = 0) : FirstZero block p p :=
  ⟨le_rfl, zero, fun _ above below => absurd below (Nat.not_lt.mpr above)⟩

theorem FirstZero.before (other : block p ≠ 0) (first : FirstZero block (p + 1) q) : FirstZero block p q := by
  obtain ⟨begun, zero, before⟩ := first
  refine ⟨Nat.le_of_succ_le begun, zero, fun x above below => ?_⟩
  rcases Nat.eq_or_lt_of_le above with rfl | further
  · exact other
  · exact before x further below

/-- What holds at a zero byte, and before a byte other than zero wherever it holds behind it. -/
theorem FirstZero.induction {motive : Nat → Prop} (first : FirstZero block p q) (here : block q = 0 → motive q)
    (before : ∀ p, block p ≠ 0 → motive (p + 1) → motive p) : motive p := by
  obtain ⟨begun, zero, earlier⟩ := first
  obtain ⟨k, rfl⟩ := Nat.exists_eq_add_of_le begun
  induction k generalizing p with
  | zero => exact here zero
  | succ k ih =>
    have shift : p + 1 + k = p + (k + 1) := by omega
    refine before p (earlier p le_rfl (by omega)) (ih (p := p + 1) ?_ (by omega) ?_ ?_)
    · rwa [shift]
    · rwa [shift]
    · rw [shift]
      exact fun x above below => earlier x (by omega) below

theorem NextObject.unique {next' : Nat} (follows : NextObject block o next)
    (follows' : NextObject block o next') : next = next' := by
  obtain ⟨name, comment, named, commented, rfl⟩ := follows
  obtain ⟨name', comment', named', commented', rfl⟩ := follows'
  cases named.unique named'
  cases commented.unique commented'
  rfl

theorem stringsTurn_next (p : Nat) :
    stringsTurn block (i + 1, p) = .inr (if block p = 0 then i else i + 1, p + 1) := by
  rw [stringsTurn, if_pos (Nat.succ_pos i), Nat.add_sub_cancel]

theorem stringsTurn_ends (p : Nat) : stringsTurn block (0, p) = .inl p := by
  rw [stringsTurn, if_neg (Nat.lt_irrefl 0)]

/-- One string more is passed over up to its zero byte. -/
theorem strings_iff :
    (∃ n, run (stringsTurn block) n (i + 1, p) = some r) ↔
      ∃ q, FirstZero block p q ∧ ∃ n, run (stringsTurn block) n (i, q + 1) = some r := by
  constructor
  · rintro ⟨n, runs⟩
    induction n generalizing p with
    | zero => cases runs
    | succ n ih =>
      rw [run_turns (stringsTurn_next p)] at runs
      by_cases zero : block p = 0
      · rw [if_pos zero] at runs
        exact ⟨p, .here zero, n, runs⟩
      · rw [if_neg zero] at runs
        obtain ⟨q, first, rest⟩ := ih runs
        exact ⟨q, first.before zero, rest⟩
  · rintro ⟨q, first, n, runs⟩
    refine first.induction (motive := fun p => ∃ n, run (stringsTurn block) n (i + 1, p) = some r) ?_ ?_
    · intro zero
      refine ⟨n + 1, ?_⟩
      rw [run_turns (stringsTurn_next q), if_pos zero]
      exact runs
    · rintro p other ⟨m, rest⟩
      refine ⟨m + 1, ?_⟩
      rw [run_turns (stringsTurn_next p), if_neg other]
      exact rest

private theorem strings_over : (∃ n, run (stringsTurn block) n (0, p) = some r) ↔ r = p := by
  constructor
  · rintro ⟨n, runs⟩
    cases n with
    | zero => cases runs
    | succ n =>
      rw [run_ends (stringsTurn_ends p)] at runs
      exact (Option.some.inj runs).symm
  · rintro rfl
    exact ⟨1, run_ends (stringsTurn_ends _)⟩

/-- `sfs_nextobject` finds the next object, if there is one. -/
theorem nextobject_iff : (∃ fuel, sfsNextobject block o fuel = some next) ↔ NextObject block o next := by
  constructor
  · rintro ⟨fuel, found⟩
    obtain ⟨r, runs, place⟩ := Option.map_eq_some_iff.mp found
    obtain ⟨name, named, rest⟩ := strings_iff.mp ⟨fuel, runs⟩
    obtain ⟨comment, commented, done⟩ := strings_iff.mp rest
    cases strings_over.mp done
    exact ⟨name, comment, named, commented, place.symm⟩
  · rintro ⟨name, comment, named, commented, place⟩
    obtain ⟨fuel, runs⟩ :=
      strings_iff.mpr ⟨name, named, strings_iff.mpr ⟨comment, commented, strings_over.mpr rfl⟩⟩
    exact ⟨fuel, Option.map_eq_some_iff.mpr ⟨comment + 1, runs, place.symm⟩⟩

theorem objectTurn_last (last : be32 (member block o) soObjectnode = 0) :
    objectTurn block dirname type fuel o = .inl (some none) := by
  rw [objectTurn, if_neg (by rw [last]; decide)]

theorem objectTurn_found (used : be32 (member block o) soObjectnode ≠ 0)
    (found : matchesObject (member block o) dirname type = true) :
    objectTurn block dirname type fuel o = .inl (some (some (member block o))) := by
  have positive : 0 < be32 (member block o) soObjectnode := (BitVec.pos_iff_ne_zero _).mpr used
  rw [objectTurn, if_pos positive, if_pos found]

theorem objectTurn_next (used : be32 (member block o) soObjectnode ≠ 0)
    (other : matchesObject (member block o) dirname type = false)
    (follows : sfsNextobject block o fuel = some next) : objectTurn block dirname type fuel o = .inr next := by
  have positive : 0 < be32 (member block o) soObjectnode := (BitVec.pos_iff_ne_zero _).mpr used
  rw [objectTurn, if_pos positive, other, if_neg Bool.false_ne_true, follows]

theorem objectTurn_undone (used : be32 (member block o) soObjectnode ≠ 0)
    (other : matchesObject (member block o) dirname type = false)
    (endless : sfsNextobject block o fuel = none) : objectTurn block dirname type fuel o = .inl none := by
  have positive : 0 < be32 (member block o) soObjectnode := (BitVec.pos_iff_ne_zero _).mpr used
  rw [objectTurn, if_pos positive, other, if_neg Bool.false_ne_true, endless]

/-- The search of a block ends if and only if its objects do. -/
theorem objects_end_iff :
    (∃ fuel r, nested (objectTurn block dirname type) fuel o = some r) ↔ ObjectsEnd block dirname type o := by
  constructor
  · rintro ⟨fuel, r, ended⟩
    have runs := Option.join_eq_some_iff.mp ended
    -- The induction is on the objects looked at, all of them with the same fuel.
    suffices ∀ n o, run (objectTurn block dirname type fuel) n o = some (some r) →
        ObjectsEnd block dirname type o from this fuel o runs
    intro n
    induction n with
    | zero =>
      intro o runs
      cases runs
    | succ n ih =>
      intro o runs
      by_cases last : be32 (member block o) soObjectnode = 0
      · exact .last last
      · cases found : matchesObject (member block o) dirname type with
        | true => exact .found found
        | false =>
          cases follows : sfsNextobject block o fuel with
          | none =>
            rw [run_ends (objectTurn_undone last found follows)] at runs
            cases runs
          | some next =>
            rw [run_turns (objectTurn_next last found follows)] at runs
            exact .next (nextobject_iff.mp ⟨fuel, follows⟩) (ih next runs)
  · intro ends
    induction ends with
    | last last => exact ⟨1, _, Option.join_eq_some_iff.mpr (run_ends (objectTurn_last last))⟩
    | @found o found =>
      by_cases last : be32 (member block o) soObjectnode = 0
      · exact ⟨1, _, Option.join_eq_some_iff.mpr (run_ends (objectTurn_last last))⟩
      · exact ⟨1, _, Option.join_eq_some_iff.mpr (run_ends (objectTurn_found last found))⟩
    | @next o next follows _ ih =>
      by_cases last : be32 (member block o) soObjectnode = 0
      · exact ⟨1, _, Option.join_eq_some_iff.mpr (run_ends (objectTurn_last last))⟩
      · cases found : matchesObject (member block o) dirname type with
        | true => exact ⟨1, _, Option.join_eq_some_iff.mpr (run_ends (objectTurn_found last found))⟩
        | false =>
          obtain ⟨n, here⟩ := nextobject_iff.mpr follows
          obtain ⟨m, r, rest⟩ := ih
          exact ⟨_, r, nested_before objectTurn_steady (objectTurn_next last found here) rest⟩

end Parthenope.Sfs
