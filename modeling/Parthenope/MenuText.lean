import Parthenope.MenuLines

/-! A text of whole lines. The reader makes of it what a fold over its lines
makes, but a line that closes an entry is then read once more from as far in front
of its newline as it is long without blanks and comment. -/
namespace Parthenope.Menu
open CString StepLoop

/-- The text of some lines, each with its newline. -/
def textOf (bodies : List (List Byte)) : List Byte := (bodies.map (· ++ [newline])).flatten

/-- One line, without newline or terminator. -/
structure Plain (body : List Byte) : Prop where
  single : newline ∉ body
  unended : nul ∉ body

/-- The book after some lines, closed at their end. -/
def foldLines (line : Book → List Byte → Except Fault Book) : List (List Byte) → Book → Except Fault Book
  | [], b => .ok b.close
  | body :: rest, b =>
    match line b body with
    | .error fault => .error fault
    | .ok b => foldLines line rest b

/-- What a closing line is read as the second time. -/
def again (d : Dialect) (body : List Byte) : List Byte :=
  d.clean (body.drop (body.length - (d.clean body).length))

/-- A line closes the entry and is then taken for `next`, or is taken inside or outside. -/
def takeLine (d : Dialect) (line next : List Byte) (b : Book) : Except Fault Book :=
  if line = [] then .ok b
  else
    match b.current with
    | none => .ok (b.outsideLine d line)
    | some entry =>
      if d.closes line then .ok (b.close.outsideLine d next) else b.insideLine d line entry

/-- What the reader makes of a line. -/
def meets (d : Dialect) (b : Book) (body : List Byte) : Except Fault Book :=
  takeLine d (d.clean body) (again d body) b

section
variable {d : Dialect} {src beyond body line raw : List Byte} {bodies : List (List Byte)}
  {srcLen after : Nat} {q : Reader} {b b' : Book} {entry : Entry} {fault : Fault}

private theorem outsideLine_blank (regular : d.Regular) : b.outsideLine d [] = b := by
  have unknown : d.outside.lookup (getnextword []) = none := by
    cases known : d.outside.lookup (getnextword []) with
    | none => rfl
    | some status => exact absurd (regular.outside_status known).1 (by decide)
  simp only [Book.outsideLine, unknown]

private theorem step_outside (regular : d.Regular) (idle : q.book.current = none)
    (read : getline src srcLen q.offset = some (raw, after)) :
    Reader.step d src srcLen q = .inr ⟨after, q.book.outsideLine d (d.clean raw)⟩ := by
  unfold Reader.step
  simp only [read]
  by_cases blank : d.clean raw = []
  · rw [if_pos blank, blank, outsideLine_blank regular]
  · rw [if_neg blank, idle]

private theorem step_blank (read : getline src srcLen q.offset = some (raw, after))
    (blank : d.clean raw = []) : Reader.step d src srcLen q = .inr ⟨after, q.book⟩ := by
  unfold Reader.step
  simp only [read, blank, if_true]

private theorem step_closing (read : getline src srcLen q.offset = some (raw, after))
    (text : d.clean raw ≠ []) (current : q.book.current = some entry)
    (closes : d.closes (d.clean raw) = true) :
    Reader.step d src srcLen q = .inr ⟨after - ((d.clean raw).length + 1), q.book.close⟩ := by
  unfold Reader.step
  simp only [read, text, if_false, current, closes, if_true]

private theorem step_inside (read : getline src srcLen q.offset = some (raw, after))
    (text : d.clean raw ≠ []) (current : q.book.current = some entry)
    (stays : d.closes (d.clean raw) = false) :
    Reader.step d src srcLen q =
      match q.book.insideLine d (d.clean raw) entry with
      | .error fault => .inl (.error fault)
      | .ok book => .inr ⟨after, book⟩ := by
  unfold Reader.step
  cases taken : q.book.insideLine d (d.clean raw) entry with
  | error fault => simp only [read, text, if_false, current, stays, Bool.false_eq_true, taken]
  | ok book => simp only [read, text, if_false, current, stays, Bool.false_eq_true, taken]

theorem textOf_cons (body : List Byte) (bodies : List (List Byte)) :
    textOf (body :: bodies) ++ beyond = body ++ newline :: (textOf bodies ++ beyond) := by
  simp only [textOf, List.map_cons, List.flatten_cons, List.append_assoc, List.cons_append,
    List.nil_append]

theorem textOf_length (body : List Byte) (bodies : List (List Byte)) :
    (textOf (body :: bodies)).length = body.length + 1 + (textOf bodies).length := by
  simp only [textOf, List.map_cons, List.flatten_cons, List.length_append, List.length_singleton]

/-- The reader behind the first line, in one step or in two. -/
theorem reader_line (regular : d.Regular) (plain : Plain body)
    (place : src.drop q.offset = body ++ newline :: beyond) (room : q.offset + body.length < srcLen) :
    match meets d q.book body with
    | .error fault => Reader.step d src srcLen q = .inl (.error fault)
    | .ok b => Reaches (Reader.step d src srcLen) q ⟨q.offset + (body.length + 1), b⟩ := by
  have read := getline_terminated (by omega : q.offset < srcLen) place plain.single plain.unended
  have cleaned := regular.clean_newline plain.unended
  unfold meets takeLine
  by_cases blank : d.clean body = []
  · rw [if_pos blank]
    exact .turn (.start q) (step_blank read (cleaned.trans blank))
  · rw [if_neg blank]
    cases current : q.book.current with
    | none =>
      have turn := step_outside regular current read
      rw [cleaned] at turn
      exact .turn (.start q) turn
    | some entry =>
      dsimp only
      rw [← cleaned] at blank
      cases closes : d.closes (d.clean body) with
      | true =>
        have turn := step_closing read blank current (cleaned ▸ closes)
        rw [cleaned] at turn
        have short := d.clean_length body
        have back : q.offset + (body.length + 1) - ((d.clean body).length + 1) =
            q.offset + (body.length - (d.clean body).length) := by omega
        rw [back] at turn
        have reread := getline_within place plain.single plain.unended
          (by omega : q.offset + (body.length - (d.clean body).length) < srcLen) (Nat.sub_le _ _)
        have unended : nul ∉ body.drop (body.length - (d.clean body).length) :=
          fun member => plain.unended (List.mem_of_mem_drop member)
        have second := step_outside (q := ⟨_, q.book.close⟩) regular q.book.close_current reread
        rw [regular.clean_newline unended] at second
        exact .turn (.turn (.start q) turn) second
      | false =>
        have turn := step_inside read blank current (cleaned ▸ closes)
        rw [cleaned] at turn
        rw [if_neg (by decide)]
        cases taken : q.book.insideLine d (d.clean body) entry with
        | error fault => rw [taken] at turn; exact turn
        | ok b => rw [taken] at turn; exact .turn (.start q) turn

/-- The reader comes to the same book as the fold. -/
theorem reader_reads (src : List Byte) (regular : d.Regular) (plain : ∀ body ∈ bodies, Plain body)
    (place : src.drop q.offset = textOf bodies ++ beyond)
    (length : q.offset + (textOf bodies).length = srcLen) :
    ∃ n, run (Reader.step d src srcLen) n q = some (foldLines (meets d) bodies q.book) := by
  induction bodies generalizing q with
  | nil =>
    have finished : getline src srcLen q.offset = none := if_pos (by simp [textOf] at length; omega)
    refine ⟨1, run_ends ?_⟩
    simp only [Reader.step, finished, foldLines]
  | cons body rest ih =>
    rw [textOf_cons] at place
    rw [textOf_length] at length
    have room : q.offset + body.length < srcLen := by omega
    have line := reader_line regular (plain body List.mem_cons_self) place room
    unfold foldLines
    cases met : meets d q.book body with
    | error fault =>
      rw [met] at line
      exact ⟨1, run_ends line⟩
    | ok b =>
      rw [met] at line
      have place' : src.drop (q.offset + (body.length + 1)) = textOf rest ++ beyond := by
        rw [← List.drop_drop, place, List.append_cons, List.drop_left']
        simp
      obtain ⟨n, runs⟩ := ih (q := ⟨q.offset + (body.length + 1), b⟩)
        (fun body inside => plain body (List.mem_cons_of_mem _ inside)) place' (by dsimp only; omega)
      exact run_reaches line runs

end

end Parthenope.Menu
