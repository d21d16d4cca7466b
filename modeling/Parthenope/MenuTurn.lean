import Parthenope.MenuOwnership

/-! What a turn of the parser does to its count, its entries and its offset. Each function
of the parser is taken apart once, and every invariant of these is derived from that. -/
namespace Parthenope.Menu
open CString

/-- The states of an entry that is being opened or read. -/
def Status.opened : Status → Bool
  | .TIT | .IN | .RT | .K | .O | .RD | .DTB | .M => true
  | _ => false

/-- A turn that neither counts nor adds. -/
def Quiet (p p' : Parser) : Prop := p'.n = p.n ∧ appendedOf p'.events = appendedOf p.events

/-- A turn that leaves the heap and the entry as they were. -/
def Untouched (p p' : Parser) : Prop := p'.heap = p.heap ∧ p'.entry = p.entry

/-- What a turn does to the offset: it leaves it alone, goes behind a line, or goes back
from there over a title line. -/
inductive Moves (d : Dialect) (src : List Byte) (srcLen : Nat) (p p' : Parser) : Prop
  | stays : p'.offset = p.offset → (p'.status.opened = true → p.status.opened = true) →
      Moves d src srcLen p p'
  | reads {raw : List Byte} {after : Nat} : getline src srcLen p.offset.toNat = some (raw, after) →
      p'.offset = after → Moves d src srcLen p p'
  | returns {raw : List Byte} {after : Nat} : getline src srcLen p.offset.toNat = some (raw, after) →
      p.status = .IN → p'.offset = after - ((d.clean raw).length + 1) → p'.status.opened = false →
      Moves d src srcLen p p'

/-- A turn that adds the entry and counts it. -/
def Adds (p p' : Parser) : Prop := p'.n = p.n + 1 ∧ appendedOf p'.events = appendedOf p.events ++ [p.entry]

section
variable {ε α β : Type} {d : Dialect} {src line : List Byte} {srcLen : Nat} {menu : Addr}
  {scratch : Word × Word} {p p' : Parser} {store : Word → Node → Node}

theorem bind_ok {x : Except ε α} {f : α → Except ε β} {r : β} (result : (x >>= f) = .ok r) :
    ∃ a, x = .ok a ∧ f a = .ok r := by
  cases x with
  | error fault => cases result
  | ok a => exact ⟨a, rfl, result⟩

private theorem closing_opened (kernel : Bool) : (if kernel = true then Status.A else Status.R).opened = false := by
  cases kernel <;> rfl

private theorem freeLine_released (freed : p.freeLine = .ok p') : p' = p.release := by
  unfold Parser.freeLine at freed
  split at freed
  · cases freed
  · cases freed
    rfl

/-- What follows once the line is freed. -/
theorem freeLine_bind {f : Parser → Except Fault ρ} {r : ρ} (turn : (p.freeLine >>= f) = .ok r) :
    f p.release = .ok r := by
  obtain ⟨freed, released, turn⟩ := bind_ok turn
  cases freeLine_released released
  exact turn

theorem nextLine_held (read : p.nextLine d src srcLen = .ok (some (line, p'))) :
    0 ≤ p.offset ∧ ∃ raw after, getline src srcLen p.offset.toNat = some (raw, after) ∧
      line = d.clean raw ∧ p' = p.hold line after := by
  unfold Parser.nextLine at read
  split at read
  · cases read
  · rename_i nonnegative
    split at read
    · cases read
    · rename_i raw after found
      cases read
      exact ⟨Int.not_lt.mp nonnegative, raw, after, found, rfl, rfl⟩

theorem outside_turned (turn : p.outside d src srcLen = .ok (.inr p')) :
    Untouched p p' ∧ Quiet p p' ∧ Moves d src srcLen p p' := by
  obtain ⟨next, read, turn⟩ := bind_ok turn
  cases next with
  | none => cases turn
  | some pair =>
    obtain ⟨line, held⟩ := pair
    obtain ⟨-, raw, after, found, rfl, rfl⟩ := nextLine_held read
    dsimp only at turn
    split at turn
    · replace turn := freeLine_bind turn
      cases turn
      exact ⟨⟨rfl, rfl⟩, ⟨rfl, rfl⟩, .reads found rfl⟩
    · split at turn
      · cases turn
        exact ⟨⟨rfl, rfl⟩, ⟨rfl, rfl⟩, .reads found rfl⟩
      · cases turn
        exact ⟨⟨rfl, rfl⟩, ⟨rfl, rfl⟩, .reads found rfl⟩

theorem inside_turned (waits : p.status = .IN) (turn : p.inside d src srcLen = .ok p') :
    Untouched p p' ∧ Quiet p p' ∧ Moves d src srcLen p p' := by
  obtain ⟨next, read, turn⟩ := bind_ok turn
  cases next with
  | none =>
    cases turn
    exact ⟨⟨rfl, rfl⟩, ⟨rfl, rfl⟩, .stays rfl fun _ => waits ▸ rfl⟩
  | some pair =>
    obtain ⟨line, held⟩ := pair
    obtain ⟨-, raw, after, found, rfl, rfl⟩ := nextLine_held read
    dsimp only at turn
    split at turn
    · replace turn := freeLine_bind turn
      cases turn
      exact ⟨⟨rfl, rfl⟩, ⟨rfl, rfl⟩, .reads found rfl⟩
    · split at turn
      · cases turn
        exact ⟨⟨rfl, rfl⟩, ⟨rfl, rfl⟩, .reads found rfl⟩
      · replace turn := freeLine_bind turn
        split at turn
        · cases turn
          exact ⟨⟨rfl, rfl⟩, ⟨rfl, rfl⟩, .returns found waits rfl (closing_opened p.kernel)⟩
        · cases turn
          exact ⟨⟨rfl, rfl⟩, ⟨rfl, rfl⟩, .reads found rfl⟩

private theorem number_turned (turn : p.number menu store = .ok p') : Quiet p p' ∧ Moves d src srcLen p p' := by
  obtain ⟨text, -, turn⟩ := bind_ok turn
  split at turn
  · cases turn
    exact ⟨⟨rfl, rfl⟩, .stays rfl nofun⟩
  · obtain ⟨node, -, turn⟩ := bind_ok turn
    cases turn
    exact ⟨⟨rfl, rfl⟩, .stays rfl nofun⟩

private theorem openEntry_turned (waits : p.status = .TIT) (turn : p.openEntry scratch = .ok p') :
    Quiet p p' ∧ Moves d src srcLen p p' := by
  obtain ⟨text, -, turn⟩ := bind_ok turn
  replace turn := freeLine_bind turn
  split at turn
  · cases turn
    exact ⟨⟨rfl, appendedOf_allocated _ _⟩, .stays rfl fun _ => waits ▸ rfl⟩
  · cases turn
    exact ⟨⟨rfl, rfl⟩, .stays rfl fun _ => waits ▸ rfl⟩

private theorem direct_turned (opened : p.status.opened = true) (turn : p.direct = .ok p') :
    Quiet p p' ∧ Moves d src srcLen p p' := by
  obtain ⟨text, -, turn⟩ := bind_ok turn
  obtain ⟨node, -, turn⟩ := bind_ok turn
  dsimp only at turn
  split at turn
  · replace turn := freeLine_bind turn
    cases turn
    exact ⟨⟨rfl, rfl⟩, .stays rfl nofun⟩
  · split at turn
    · cases turn
    · split at turn
      · cases turn
        exact ⟨⟨rfl, rfl⟩, .stays rfl fun _ => opened⟩
      · replace turn := freeLine_bind turn
        cases turn
        exact ⟨⟨rfl, rfl⟩, .stays rfl fun _ => opened⟩

/-- What a turn that goes on does: only the state `A` adds an entry. -/
theorem turn_cases (turn : p.turn d src srcLen menu scratch = .ok (.inr p')) :
    (Quiet p p' ∨ Adds p p') ∧ Moves d src srcLen p p' := by
  have quiet (turned : Quiet p p' ∧ Moves d src srcLen p p') :
      (Quiet p p' ∨ Adds p p') ∧ Moves d src srcLen p p' :=
    ⟨.inl turned.1, turned.2⟩
  unfold Parser.turn at turn
  split at turn
  case h_1 => exact quiet (outside_turned turn).2
  all_goals obtain ⟨next, turned, same⟩ := bind_ok turn
  all_goals cases same
  case h_2 => exact quiet (number_turned turned)
  case h_3 => exact quiet (number_turned turned)
  case h_4 waits => exact quiet (openEntry_turned waits turned)
  case h_5 waits => exact quiet (inside_turned waits turned).2
  case h_12 =>
    obtain ⟨pair, -, turned⟩ := bind_ok turned
    cases turned
    exact ⟨.inr ⟨rfl, appendedOf_appended _ _⟩, .stays rfl nofun⟩
  case h_13 =>
    obtain ⟨node, -, turned⟩ := bind_ok turned
    cases turned
    exact quiet ⟨⟨rfl, appendedOf_freed _ _⟩, .stays rfl nofun⟩
  all_goals
    rename_i waits
    exact quiet (direct_turned (waits ▸ rfl) turned)

theorem step_turn (stepped : step d src srcLen menu scratch p = .inr p') :
    p.turn d src srcLen menu scratch = .ok (.inr p') := by
  unfold step at stepped
  split at stepped
  · cases stepped
  · cases stepped
  · rename_i turned
    cases stepped
    exact turned

end

end Parthenope.Menu
