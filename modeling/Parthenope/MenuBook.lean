import Parthenope.Menu

/-! The parser without its memory: the entries added so far and the one being
read, over the offset in the text. A `Reader` takes a whole line at a time, where
the parser takes several turns. -/
namespace Parthenope.Menu
open CString

structure Book where
  current : Option Entry
  added : List Entry
  defaultOs : Word
  delay : Word

/-- What the flag `kernel` keeps: the entry names something to boot. -/
def bootable (entry : Entry) : Bool := entry.kernel.isSome || entry.other.isSome

/-- A line that ends the entry being read and opens the next. -/
def Dialect.closes (d : Dialect) (line : List Byte) : Bool :=
  (d.inside.lookup (getnextword line)).isNone && getnextword line == d.title

namespace Book

def discard (b : Book) : Book := { b with current := none }

/-- The entry being read is kept if it is bootable. -/
def close (b : Book) : Book :=
  match b.current with
  | none => b
  | some entry =>
    if bootable entry then { b with current := none, added := b.added ++ [entry] } else b.discard

def outsideLine (d : Dialect) (line : List Byte) (b : Book) : Book :=
  let word := getnextword line
  let text := line.drop word.length
  match d.outside.lookup word with
  | some .TIT =>
    if strtrim text ≠ [] then { b with current := some { entryAlloc with title := some (strtrim text) } }
    else b
  | some .DEF => { b with defaultOs := (numberLine text).getD b.defaultOs }
  | some .DLY => { b with delay := (numberLine text).getD b.delay }
  | _ => b

/-- A line that does not close the entry. -/
def insideLine (d : Dialect) (line : List Byte) (entry : Entry) (b : Book) : Except Fault Book :=
  let word := getnextword line
  match d.inside.lookup word with
  | none => .ok b.discard
  | some status =>
    match directive status (line.drop word.length) entry with
    | none => .ok b.discard
    | some entry =>
      if maxModules < entry.modules.length then .error .moduleOverflow
      else .ok { b with current := some entry }

end Book

/-- The book before the first line, with the numbers the head holds. -/
def Book.start (numbers : Word × Word) : Book where
  current := none
  added := []
  defaultOs := numbers.1
  delay := numbers.2

structure Reader where
  offset : Nat
  book : Book

/-- Inside an entry a line has been read, so a step back stays in the buffer. -/
def Reader.Placed (q : Reader) : Prop := q.book.current ≠ none → 1 ≤ q.offset

/-- One line: the book at the end of the text, or the reader after the line. A
closing line is read once more, from where the push-back leads. -/
def Reader.step (d : Dialect) (src : List Byte) (srcLen : Nat) (q : Reader) :
    Except Fault Book ⊕ Reader :=
  match getline src srcLen q.offset with
  | none => .inl (.ok q.book.close)
  | some (raw, offset) =>
    let line := d.clean raw
    if line = [] then .inr ⟨offset, q.book⟩
    else
      match q.book.current with
      | none => .inr ⟨offset, q.book.outsideLine d line⟩
      | some entry =>
        if d.closes line then .inr ⟨offset - (line.length + 1), q.book.close⟩
        else
          match q.book.insideLine d line entry with
          | .error fault => .inl (.error fault)
          | .ok book => .inr ⟨offset, book⟩

/-- The states entered by a word inside an entry. -/
def Status.Directs (status : Status) : Prop :=
  status = .K ∨ status = .RT ∨ status = .O ∨ status = .RD ∨ status = .DTB ∨ status = .M

instance (status : Status) : Decidable status.Directs := by unfold Status.Directs; infer_instance

/-- What a directive changes, and what it leaves alone. -/
structure Directed (status : Status) (entry entry' : Entry) : Prop where
  title : entry'.title = entry.title
  kernel : status ≠ .K → entry'.kernel = entry.kernel
  named : status = .K → entry'.kernel.isSome = true
  other : status ≠ .O → entry'.other = entry.other
  chained : status = .O → entry'.other.isSome = true
  modules : entry'.modules.length = entry.modules.length + if status = .M then 1 else 0

/-- The words of a dialect lead where they are meant to, and are long enough to
pay for a step back. -/
structure Dialect.Regular (d : Dialect) : Prop where
  outside : ∀ pair ∈ d.outside, 5 ≤ pair.1.length ∧ (pair.2 = .TIT ∨ pair.2 = .DEF ∨ pair.2 = .DLY)
  inside : ∀ pair ∈ d.inside, pair.2.Directs
  opens : ∀ pair ∈ d.outside, pair.2 = .TIT → pair.1 = d.title
  titled : d.title ≠ []
  apart : d.inside.lookup d.title = none
  comment : d.comment ≠ newline

theorem menuLst_regular : menuLst.Regular :=
  ⟨by decide, by decide, by decide, by decide, by decide, by decide⟩

theorem kicklayout_regular : kicklayout.Regular :=
  ⟨by decide, by decide, by decide, by decide, by decide, by decide⟩

section
variable {d : Dialect} {word : List Byte} {status : Status} {l : List (List Byte × Status)}

theorem lookup_mem (known : l.lookup word = some status) : (word, status) ∈ l := by
  obtain ⟨before, after, split, _⟩ := List.lookup_eq_some_iff.mp known
  rw [split]
  exact List.mem_append_right _ List.mem_cons_self

theorem Dialect.Regular.outside_status (regular : d.Regular)
    (known : d.outside.lookup word = some status) :
    5 ≤ word.length ∧ (status = .TIT ∨ status = .DEF ∨ status = .DLY) :=
  regular.outside _ (lookup_mem known)

theorem Dialect.Regular.inside_status (regular : d.Regular)
    (known : d.inside.lookup word = some status) : status.Directs :=
  regular.inside _ (lookup_mem known)

theorem wordLine_taken {store : List Byte → Entry → Entry} {text : List Byte} {entry entry' : Entry}
    (taken : wordLine store text entry = some entry') : ∃ name, entry' = store name entry := by
  unfold wordLine at taken
  dsimp only at taken
  split at taken
  · cases taken
  · cases taken
    exact ⟨_, rfl⟩

theorem directive_fields {text : List Byte} {entry entry' : Entry}
    (taken : directive status text entry = some entry') : Directed status entry entry' := by
  cases status with
  | K =>
    simp only [directive, kernelLine] at taken
    split at taken
    · cases taken
    · cases taken
      exact ⟨rfl, fun h => absurd rfl h, fun _ => rfl, fun _ => rfl, nofun, rfl⟩
  | RT =>
    simp only [directive, rootLine] at taken
    repeat' split at taken
    all_goals cases taken
    all_goals exact ⟨rfl, fun _ => rfl, nofun, fun _ => rfl, nofun, rfl⟩
  | O =>
    simp only [directive, otherLine] at taken
    obtain ⟨name, rfl⟩ := wordLine_taken taken
    exact ⟨rfl, fun _ => rfl, nofun, fun h => absurd rfl h, fun _ => rfl, rfl⟩
  | RD =>
    simp only [directive, initrdLine] at taken
    obtain ⟨name, rfl⟩ := wordLine_taken taken
    exact ⟨rfl, fun _ => rfl, nofun, fun _ => rfl, nofun, rfl⟩
  | DTB =>
    simp only [directive, dtbLine] at taken
    obtain ⟨name, rfl⟩ := wordLine_taken taken
    exact ⟨rfl, fun _ => rfl, nofun, fun _ => rfl, nofun, rfl⟩
  | M =>
    simp only [directive, moduleLine] at taken
    obtain ⟨name, rfl⟩ := wordLine_taken taken
    exact ⟨rfl, fun _ => rfl, nofun, fun _ => rfl, nofun, List.length_append⟩
  | _ => cases taken

theorem Dialect.clean_infix (d : Dialect) (raw : List Byte) : d.clean raw <:+: raw :=
  (strtrim_within _).trans (eatcomments_begins d.comment raw).isInfix

theorem Dialect.clean_length (d : Dialect) (raw : List Byte) : (d.clean raw).length ≤ raw.length :=
  (d.clean_infix raw).length_le

/-- A book that has dropped its entry holds none. -/
theorem Book.discard_ne {b : Book} {entry : Entry} : b.discard.current ≠ some entry :=
  (Option.some_ne_none entry).symm

theorem Book.insideLine_unknown {b : Book} {line : List Byte} {entry : Entry}
    (unknown : d.inside.lookup (getnextword line) = none) :
    b.insideLine d line entry = .ok b.discard := by
  simp only [Book.insideLine, unknown]

/-- A line with a known word is what its directive makes of it. -/
theorem Book.insideLine_known {b : Book} {line : List Byte} {entry : Entry}
    (known : d.inside.lookup (getnextword line) = some status) :
    b.insideLine d line entry =
      match directive status (line.drop (getnextword line).length) entry with
      | none => .ok b.discard
      | some entry =>
        if maxModules < entry.modules.length then .error .moduleOverflow
        else .ok { b with current := some entry } := by
  simp only [Book.insideLine, known]

@[simp] theorem Book.close_current (b : Book) : b.close.current = none := by
  unfold Book.close
  cases current : b.current with
  | none => exact current
  | some entry =>
    dsimp only
    split <;> rfl

/-- What a line can do: nothing, act outside an entry, close one or act inside it. -/
inductive Reader.Takes (d : Dialect) (q : Reader) (line : List Byte) (after : Nat) : Reader → Prop
  | blank : line = [] → Takes d q line after ⟨after, q.book⟩
  | outside : line ≠ [] → q.book.current = none → Takes d q line after ⟨after, q.book.outsideLine d line⟩
  | closing {entry : Entry} : line ≠ [] → q.book.current = some entry → d.closes line = true →
      Takes d q line after ⟨after - (line.length + 1), q.book.close⟩
  | inside {entry : Entry} {b : Book} : line ≠ [] → q.book.current = some entry →
      d.closes line = false → q.book.insideLine d line entry = .ok b → Takes d q line after ⟨after, b⟩

theorem Reader.step_takes {q q' : Reader} {src : List Byte} {srcLen : Nat}
    (turn : Reader.step d src srcLen q = .inr q') :
    ∃ raw after, getline src srcLen q.offset = some (raw, after) ∧
      Reader.Takes d q (d.clean raw) after q' := by
  unfold Reader.step at turn
  cases read : getline src srcLen q.offset with
  | none => rw [read] at turn; cases turn
  | some pair =>
    obtain ⟨raw, after⟩ := pair
    refine ⟨raw, after, rfl, ?_⟩
    simp only [read] at turn
    by_cases blank : d.clean raw = []
    · rw [if_pos blank] at turn
      cases turn
      exact .blank blank
    · rw [if_neg blank] at turn
      cases current : q.book.current with
      | none =>
        simp only [current] at turn
        cases turn
        exact .outside blank current
      | some entry =>
        simp only [current] at turn
        cases closes : d.closes (d.clean raw) with
        | true =>
          rw [if_pos closes] at turn
          cases turn
          exact .closing blank current closes
        | false =>
          rw [closes, if_neg (by decide)] at turn
          cases taken : q.book.insideLine d (d.clean raw) entry with
          | error fault => rw [taken] at turn; cases turn
          | ok b =>
            rw [taken] at turn
            cases turn
            exact .inside blank current closes taken

/-- The reader stops at the end of the text, or at a line it has no room for. -/
theorem Reader.step_stops {q : Reader} {src : List Byte} {srcLen : Nat} {r : Except Fault Book}
    (ends : Reader.step d src srcLen q = .inl r) :
    (getline src srcLen q.offset = none ∧ r = .ok q.book.close) ∨
    (∃ raw after entry fault, getline src srcLen q.offset = some (raw, after) ∧ d.clean raw ≠ [] ∧
      q.book.current = some entry ∧ d.closes (d.clean raw) = false ∧
      q.book.insideLine d (d.clean raw) entry = .error fault ∧ r = .error fault) := by
  unfold Reader.step at ends
  cases read : getline src srcLen q.offset with
  | none =>
    rw [read] at ends
    cases ends
    exact .inl ⟨rfl, rfl⟩
  | some pair =>
    obtain ⟨raw, after⟩ := pair
    simp only [read] at ends
    by_cases blank : d.clean raw = []
    · rw [if_pos blank] at ends
      cases ends
    · rw [if_neg blank] at ends
      cases current : q.book.current with
      | none => simp only [current] at ends; cases ends
      | some entry =>
        simp only [current] at ends
        cases closes : d.closes (d.clean raw) with
        | true => rw [if_pos closes] at ends; cases ends
        | false =>
          rw [closes, if_neg (by decide)] at ends
          cases taken : q.book.insideLine d (d.clean raw) entry with
          | ok b => rw [taken] at ends; cases ends
          | error fault =>
            rw [taken] at ends
            cases ends
            exact .inr ⟨raw, after, entry, fault, rfl, blank, rfl, closes, taken, rfl⟩

/-- The step back of a closing line ends in the buffer. -/
theorem Reader.Placed.back {q : Reader} {src raw : List Byte} {srcLen after : Nat}
    (placed : q.Placed) (reading : q.book.current ≠ none)
    (read : getline src srcLen q.offset = some (raw, after)) :
    (d.clean raw).length + 1 ≤ after := by
  have first := placed reading
  have bounds := getline_bounds read
  have short := d.clean_length raw
  omega

theorem Reader.placed_step {q q' : Reader} {src : List Byte} {srcLen : Nat}
    (turn : Reader.step d src srcLen q = .inr q') : q'.Placed := by
  obtain ⟨raw, after, read, takes⟩ := Reader.step_takes turn
  have forward : 1 ≤ after := Nat.one_le_of_lt (getline_bounds read).2.1
  cases takes with
  | closing => exact fun reading => absurd q.book.close_current reading
  | _ => exact fun _ => forward

end

end Parthenope.Menu
