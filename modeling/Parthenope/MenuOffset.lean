import Parthenope.MenuList
import Parthenope.MenuTurn

/-! The offset of the parser in its text. A title line inside an entry takes it back, by
what is left of the line after cleaning and one byte more. A line has been read since the
entry was opened, so that there is as much in front of the offset. -/
namespace Parthenope.Menu
open CString StepLoop

/-- No offset is in front of the buffer, and none in an entry at its beginning. -/
structure Parser.Inside (p : Parser) : Prop where
  nonnegative : 0 ≤ p.offset
  behind : p.status.opened = true → 1 ≤ p.offset

/-- The next line, if there is one, begins inside the buffer. -/
def Parser.ReadsInside (d : Dialect) (src : List Byte) (srcLen : Nat) (p : Parser) : Prop :=
  0 ≤ p.offset ∧ ∀ line p', p.nextLine d src srcLen = .ok (some (line, p')) → p.offset < srcLen

section
variable {d : Dialect} {src line : List Byte} {srcLen n : Nat} {menu : Addr} {scratch : Word × Word}
  {p p' : Parser}

/-- What is left of a line is no longer than the line, and in an entry the line does not
begin the buffer. -/
theorem Parser.Inside.moves (inside : p.Inside) (moves : Moves d src srcLen p p') : p'.Inside := by
  have first := inside.nonnegative
  cases moves with
  | stays same opened =>
    refine ⟨same ▸ first, fun reading => ?_⟩
    rw [same]
    exact inside.behind (opened reading)
  | reads found place =>
    have bounds := getline_bounds found
    constructor <;> omega
  | @returns raw after found waits place closed =>
    have bounds := getline_bounds found
    have short := d.clean_length raw
    have behind := inside.behind (waits ▸ rfl)
    refine ⟨by omega, fun reading => ?_⟩
    rw [closed] at reading
    cases reading

theorem Parser.Inside.reads (inside : p.Inside) : p.ReadsInside d src srcLen := by
  refine ⟨inside.nonnegative, fun line p' read => ?_⟩
  obtain ⟨nonnegative, raw, after, found, -⟩ := nextLine_held read
  have bounds := getline_bounds found
  omega

private theorem reached_inside {heap : Heap} (reached : Reaches (step d src srcLen menu scratch) (.start heap) p) :
    p.Inside := by
  refine reached.invariant Parser.Inside ?_ ⟨le_rfl, nofun⟩
  exact fun p p' inside turn => inside.moves (turn_cases (step_turn turn)).2

end

/-- The parser comes to an end, by itself or at a module that its entry has no room for. -/
def EndsOrOverflows (parse : Nat → Option (Except Fault (Nat × Parser))) : Prop :=
  (∃ fuel r, parse fuel = some r) ∧
    ∀ fuel r, parse fuel = some r → (∃ n p, r = .ok (n, p)) ∨ r = .error .moduleOverflow

section
variable {d : Dialect} {src : List Byte} {srcLen n : Nat} {heap : Heap} {menu : Addr} {old : List Addr}

theorem insideLine_overflow {b : Book} {line : List Byte} {entry : Entry} {fault : Fault}
    (taken : b.insideLine d line entry = .error fault) : fault = .moduleOverflow := by
  unfold Book.insideLine at taken
  dsimp only at taken
  split at taken
  · cases taken
  · split at taken
    · cases taken
    · split at taken
      · cases taken
        rfl
      · cases taken

private theorem parse_ends (src : List Byte) (srcLen : Nat) (scratch : Word × Word) (regular : d.Regular)
    (lists : heap.Lists menu old) : EndsOrOverflows (parse d src srcLen heap menu scratch) := by
  obtain ⟨m, r, runs⟩ := reader_terminates regular src srcLen ⟨0, .start (heap.numbers menu)⟩
  obtain ⟨fuel, r', result, agrees⟩ := parse_follows scratch regular lists runs
  refine ⟨⟨fuel, r', result⟩, fun fuel' r'' result' => ?_⟩
  cases run_unique result result'
  cases r' with
  | ok pair => exact .inl ⟨pair.1, pair.2, rfl⟩
  | error fault =>
    obtain ⟨q, -, ends⟩ := run_exit runs
    rcases Reader.step_stops ends with ⟨-, rfl⟩ | ⟨raw, after, entry, fault', -, -, -, -, taken, rfl⟩
    · exact agrees.elim
    · have same : fault = fault' := agrees
      rw [same, insideLine_overflow taken]
      exact .inr rfl

/-- Whatever the buffer holds both parsers end, never go in front of it and read every
line from inside it. -/
theorem parsers_end_inside (src : List Byte) (srcLen : Nat) (scratch : Word × Word)
    (lists : heap.Lists menu old) :
    (EndsOrOverflows (fsm src srcLen heap menu scratch) ∧
      ∀ p, Reaches (step menuLst src srcLen menu scratch) (.start heap) p →
        p.ReadsInside menuLst src srcLen) ∧
    EndsOrOverflows (kickFsm src srcLen heap menu scratch) ∧
      ∀ p, Reaches (step kicklayout src srcLen menu scratch) (.start heap) p →
        p.ReadsInside kicklayout src srcLen :=
  ⟨⟨parse_ends src srcLen scratch menuLst_regular lists, fun _ reached => (reached_inside reached).reads⟩,
    parse_ends src srcLen scratch kicklayout_regular lists, fun _ reached => (reached_inside reached).reads⟩

end

/-- A second title line, with a comment and without a newline behind it. -/
theorem secondTitle_ends :
    EndsOrOverflows (fsm (chars "title a\nkernel k\ntitle b # last") 33 headOnly 0 (0, 0)) ∧
      EndsOrOverflows (kickFsm (chars "LABEL a\nEXEC k\nLABEL b ; last") 31 headOnly 0 (0, 0)) := by
  have titles := parsers_end_inside (chars "title a\nkernel k\ntitle b # last") 33 (0, 0) headOnly_lists
  have labels := parsers_end_inside (chars "LABEL a\nEXEC k\nLABEL b ; last") 31 (0, 0) headOnly_lists
  exact ⟨titles.1.1, labels.2.1⟩

end Parthenope.Menu
