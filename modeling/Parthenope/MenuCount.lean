import Parthenope.MenuBeyond
import Parthenope.MenuTurn

/-! What the parsers return. `n` counts the entries added in state `A`, but most of
their `return` statements do not look at it. -/
namespace Parthenope.Menu
open CString StepLoop

/-- The count is right. -/
def Parser.Counts (p : Parser) : Prop := p.n = (appendedOf p.events).length

theorem Parser.Counts.turn {d : Dialect} {src : List Byte} {srcLen : Nat} {menu : Addr} {scratch : Word × Word}
    {p p' : Parser} (counts : p.Counts) (turn : p.turn d src srcLen menu scratch = .ok (.inr p')) : p'.Counts := by
  unfold Parser.Counts at counts ⊢
  rcases (turn_cases turn).1 with ⟨same, kept⟩ | ⟨same, added⟩
  · rw [same, kept, counts]
  · rw [same, added, List.length_append, counts]
    rfl

section
variable {d : Dialect} {src : List Byte} {srcLen : Nat} {heap : Heap} {menu : Addr} {old : List Addr}
  {q : Reader}

/-- The parser of a text that the reader has come to the end of. -/
theorem parse_returns (scratch : Word × Word) (regular : d.Regular) (lists : heap.Lists menu old)
    (reached : Reaches (Reader.step d src srcLen) ⟨0, .start (heap.numbers menu)⟩ q)
    (finished : getline src srcLen q.offset = none) :
    ∃ fuel p, parse d src srcLen heap menu scratch fuel =
        some (.ok (d.returns q.book.added.length q.book, p)) ∧
      Listed heap menu old (appendedOf p.events) p.heap q.book.close ∧
      Accounted heap old [] p.heap p.events := by
  have first : Reader.Placed ⟨0, .start (heap.numbers menu)⟩ := fun reading => absurd rfl reading
  obtain ⟨p, before, rel, -⟩ := reaches_simulated
    (fun p q => Follows heap menu old p q ∧ q.Placed) (fun p q q' both turn => by
      obtain ⟨p', turns, rel⟩ := reader_turns scratch regular both.1 both.2 turn
      exact ⟨p', turns, rel, Reader.placed_step turn⟩) ⟨start_follows lists, first⟩ reached
  have counts : p.Counts := by
    refine before.invariant Parser.Counts ?_ rfl
    exact fun p p' counts turn => counts.turn (step_turn turn)
  have length : p.n = q.book.added.length := by
    have entries := congrArg List.length rel.listed.added
    rw [List.length_map, List.length_map] at entries
    exact counts.trans entries
  obtain ⟨n, p', result, listed⟩ := end_returns (d := d) scratch rel finished
  obtain ⟨fuel, result⟩ := run_reaches before result
  rw [length] at result
  exact ⟨fuel, p', result, listed⟩

end

end Parthenope.Menu
