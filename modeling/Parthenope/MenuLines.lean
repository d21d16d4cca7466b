import Parthenope.MenuBook

/-! The lines of a text as the reader meets them. The reader comes to an end, and
where no title is followed by too many modules no entry gets too many: what a
step back leads to is read over the same lines as before. -/
namespace Parthenope.Menu
open CString StepLoop

section
variable (d : Dialect) (src : List Byte) (srcLen : Nat)

/-- The cleaned lines from an offset on, `fuel` of them at most. -/
def linesFrom : Nat → Nat → List (List Byte)
  | 0, _ => []
  | fuel + 1, offset =>
    match getline src srcLen offset with
    | none => []
    | some (raw, after) => d.clean raw :: linesFrom fuel after

/-- All cleaned lines from an offset on. -/
def lines (offset : Nat) : List (List Byte) := linesFrom d src srcLen (srcLen - offset) offset

def isTitle (line : List Byte) : Bool := getnextword line == d.title

def isModule (line : List Byte) : Bool := d.inside.lookup (getnextword line) == some .M

/-- The module lines before the next title. -/
def modulesAhead : List (List Byte) → Nat
  | [] => 0
  | line :: rest =>
    if isTitle d line then 0 else modulesAhead rest + if isModule d line then 1 else 0

/-- No title is followed by more module lines than an entry has room for. -/
def Fits : List (List Byte) → Prop
  | [] => True
  | line :: rest => (isTitle d line = true → modulesAhead d rest ≤ maxModules) ∧ Fits rest

/-- The lines of the buffer fit. A line that a terminator ends swallows all that
follows it, and a step back may then lead anywhere behind the terminator: there
the lines fit from every place on. -/
structure ModulesFit : Prop where
  first : Fits d (lines d src srcLen 0)
  behind : ∀ offset, offset ≤ srcLen → nul ∈ src.take offset → Fits d (lines d src srcLen offset)

end

section
variable {d : Dialect} {src raw line body rest : List Byte} {srcLen offset after fuel : Nat}
  {q q' : Reader} {b b' : Book} {entry entry' : Entry} {l : List (List Byte)}

private theorem linesFrom_enough (fuel' : Nat) (enough : srcLen - offset ≤ fuel)
    (enough' : srcLen - offset ≤ fuel') :
    linesFrom d src srcLen fuel offset = linesFrom d src srcLen fuel' offset := by
  induction fuel generalizing offset fuel' with
  | zero =>
    have finished : getline src srcLen offset = none := if_pos (by omega)
    cases fuel' with
    | zero => rfl
    | succ fuel' => simp only [linesFrom, finished]
  | succ fuel ih =>
    cases read : getline src srcLen offset with
    | none =>
      cases fuel' with
      | zero => simp only [linesFrom, read]
      | succ fuel' => simp only [linesFrom, read]
    | some pair =>
      obtain ⟨raw, after⟩ := pair
      have bounds := getline_bounds read
      obtain ⟨fuel', rfl⟩ : ∃ k, fuel' = k + 1 := ⟨fuel' - 1, by omega⟩
      simp only [linesFrom, read]
      rw [ih fuel' (by omega) (by omega)]

private theorem lines_none (finished : getline src srcLen offset = none) : lines d src srcLen offset = [] := by
  unfold lines
  cases srcLen - offset with
  | zero => rfl
  | succ n => simp only [linesFrom, finished]

theorem lines_some (read : getline src srcLen offset = some (raw, after)) :
    lines d src srcLen offset = d.clean raw :: lines d src srcLen after := by
  have bounds := getline_bounds read
  obtain ⟨n, size⟩ : ∃ n, srcLen - offset = n + 1 := ⟨srcLen - offset - 1, by omega⟩
  unfold lines
  rw [size]
  simp only [linesFrom, read]
  rw [linesFrom_enough _ (by omega) le_rfl]

theorem lines_finished (finished : srcLen ≤ offset) : lines d src srcLen offset = [] :=
  lines_none (if_pos finished)

/-- Without a newline before the terminator there is one line at most. -/
theorem lines_last (last : strchr (src.drop offset) newline = none) :
    (lines d src srcLen offset).length ≤ 1 := by
  cases read : getline src srcLen offset with
  | none => rw [lines_none read]; exact Nat.zero_le 1
  | some pair =>
    obtain ⟨raw, after⟩ := pair
    rcases getline_cases read with ⟨body, place, single, unended, -⟩ | ⟨-, rfl⟩
    · rw [place, strchr_first single unended (by decide)] at last
      cases last
    · rw [lines_some read, lines_finished le_rfl]
      exact le_rfl

private theorem modulesAhead_length (l : List (List Byte)) : modulesAhead d l ≤ l.length := by
  induction l with
  | nil => exact le_rfl
  | cons line rest ih =>
    unfold modulesAhead
    rw [List.length_cons]
    split
    · exact Nat.zero_le _
    · split <;> omega

theorem fits_short (short : l.length ≤ maxModules) : Fits d l := by
  induction l with
  | nil => trivial
  | cons line rest ih =>
    have shorter : rest.length ≤ maxModules := Nat.le_of_succ_le short
    exact ⟨fun _ => (modulesAhead_length rest).trans shorter, ih shorter⟩

/-- The newline at the end of a line is cleaned away. -/
theorem Dialect.Regular.clean_newline (regular : d.Regular) (unended : nul ∉ body) :
    d.clean (body ++ [newline]) = d.clean body := by
  unfold Dialect.clean
  rw [eatcomments_takeWhile (concat_unended unended), eatcomments_takeWhile unended, List.takeWhile_append]
  split
  · rename_i all
    have same : body.takeWhile (· != d.comment) = body :=
      (List.takeWhile_prefix _).eq_of_length all
    have last : [newline].takeWhile (· != d.comment) = [newline] :=
      List.takeWhile_cons_of_pos (by simpa using regular.comment.symm)
    rw [last, same]
    exact strtrim_concat rfl
  · rfl

/-- The end of a line is read as a line of its own, up to the same place. -/
theorem getline_within {k : Nat} (place : src.drop offset = body ++ newline :: rest)
    (single : newline ∉ body) (unended : nul ∉ body) (inside : offset + k < srcLen)
    (small : k ≤ body.length) :
    getline src srcLen (offset + k) = some (body.drop k ++ [newline], offset + (body.length + 1)) := by
  have place' : src.drop (offset + k) = body.drop k ++ newline :: rest := by
    rw [← List.drop_drop, place, List.drop_append_of_le_length small]
  rw [getline_terminated inside place' (fun member => single (List.mem_of_mem_drop member))
    (fun member => unended (List.mem_of_mem_drop member)), List.length_drop]
  congr 2
  omega

/-- Outside, only a title line opens an entry, and the entry is new. -/
theorem outsideLine_opens (regular : d.Regular) (idle : b.current = none)
    (opened : (b.outsideLine d line).current = some entry) :
    isTitle d line = true ∧ 5 ≤ line.length ∧
      ∃ name, name ≠ [] ∧ entry = { entryAlloc with title := some name } := by
  unfold Book.outsideLine at opened
  cases known : d.outside.lookup (getnextword line) with
  | none =>
    simp only [known, idle] at opened
    cases opened
  | some status =>
    obtain ⟨long, rfl | rfl | rfl⟩ := regular.outside_status known
    · have word : isTitle d line = true :=
        beq_iff_eq.mpr (regular.opens _ (lookup_mem known) rfl)
      refine ⟨word, long.trans (getnextword_begins line).length_le, ?_⟩
      simp only [known] at opened
      split at opened
      · rename_i titled
        cases opened
        exact ⟨_, titled, rfl⟩
      · rw [idle] at opened
        cases opened
    · simp only [known, idle] at opened
      cases opened
    · simp only [known, idle] at opened
      cases opened

/-- What is left of the text, with a reserve for the step back. -/
def Reader.left (src : List Byte) (srcLen : Nat) (q : Reader) : Nat :=
  max src.length srcLen - q.offset + if q.book.current = none then 0 else 2

/-- A title line is long enough to pay for the reserve, which pays for the byte a
step back may lead in front of its line. -/
theorem Reader.left_falls (regular : d.Regular) (turn : Reader.step d src srcLen q = .inr q') :
    q'.left src srcLen < q.left src srcLen := by
  obtain ⟨raw, after, read, takes⟩ := Reader.step_takes turn
  have bounds := getline_bounds read
  have short := d.clean_length raw
  have top : srcLen ≤ max src.length srcLen := le_max_right _ _
  unfold Reader.left
  cases takes with
  | blank _ => dsimp only; omega
  | outside _ idle =>
    rw [if_pos idle]
    cases opened : (q.book.outsideLine d (d.clean raw)).current with
    | none =>
      rw [if_pos rfl]
      dsimp only
      omega
    | some entry =>
      have title := outsideLine_opens regular idle opened
      rw [if_neg (Option.some_ne_none entry)]
      dsimp only
      omega
  | closing _ current _ =>
    rw [if_pos q.book.close_current, if_neg (by rw [current]; exact Option.some_ne_none _)]
    dsimp only
    omega
  | inside _ current _ _ =>
    rw [if_neg (by rw [current]; exact Option.some_ne_none _ : q.book.current ≠ none)]
    dsimp only
    split <;> omega

/-- The reader comes to an end whatever the text is. -/
theorem reader_terminates (regular : d.Regular) (src : List Byte) (srcLen : Nat) (q : Reader) :
    ∃ n r, run (Reader.step d src srcLen) n q = some r := by
  refine ⟨q.left src srcLen + 1, ?_⟩
  exact run_terminates (Reader.step d src srcLen) (fun _ => True) (Reader.left src srcLen)
    (fun _ _ _ _ => trivial) (fun _ _ _ turn => Reader.left_falls regular turn) trivial
    (Nat.lt_succ_self _)

/-- A line of the text begins here, or nothing does. -/
def LineStart (src : List Byte) (srcLen offset : Nat) : Prop :=
  srcLen ≤ offset ∨ ∃ before, src.drop before = newline :: src.drop offset ∧ offset = before + 1

/-- The lines ahead fit, and the entry being read has room for its modules. -/
structure Reader.Fitting (d : Dialect) (src : List Byte) (srcLen : Nat) (q : Reader) : Prop where
  ahead : Fits d (lines d src srcLen q.offset)
  room : ∀ entry, q.book.current = some entry →
    entry.modules.length + modulesAhead d (lines d src srcLen q.offset) ≤ maxModules
  starts : q.book.current ≠ none → LineStart src srcLen q.offset

private theorem getline_starts (read : getline src srcLen offset = some (raw, after)) :
    LineStart src srcLen after := by
  rcases getline_cases read with ⟨body, place, -, -, -, length⟩ | ⟨-, rfl⟩
  · refine .inr ⟨offset + body.length, ?_, length⟩
    rw [← List.drop_drop, place, List.drop_left]
  · exact .inl le_rfl

/-- The last line without a newline may be read once more, from inside or from the
newline in front of it. -/
theorem back_short (starts : LineStart src srcLen offset)
    (read : getline src srcLen offset = some (raw, after))
    (last : strchr (src.drop offset) newline = none)
    (unended : nul ∉ src.take (after - ((d.clean raw).length + 1))) :
    (lines d src srcLen (after - ((d.clean raw).length + 1))).length ≤ 2 := by
  have bounds := getline_bounds read
  have short := d.clean_length raw
  by_cases inside : offset ≤ after - ((d.clean raw).length + 1)
  · obtain ⟨k, back⟩ := Nat.exists_eq_add_of_le inside
    rw [back] at unended ⊢
    have part : (src.drop offset).take k = (src.take (offset + k)).drop offset := by
      rw [List.drop_take, Nat.add_sub_cancel_left]
    have clear : nul ∉ (src.drop offset).take k := by
      rw [part]
      exact fun member => unended (List.mem_of_mem_drop member)
    have again : strchr (src.drop (offset + k)) newline = none := by
      rw [← List.take_append_drop k (src.drop offset), List.drop_drop] at last
      exact strchr_behind last clear
    exact (lines_last again).trans (by decide)
  · rcases starts with finished | ⟨before, place, rfl⟩
    · omega
    · have back : after - ((d.clean raw).length + 1) = before := by omega
      have empty := getline_terminated (by omega : before < srcLen) place
        List.not_mem_nil List.not_mem_nil
      rw [back, lines_some empty, List.length_cons]
      exact Nat.succ_le_succ (lines_last last)

/-- What follows a step back fits as what followed the line did. -/
theorem back_fits (regular : d.Regular) (fit : ModulesFit d src srcLen)
    (ahead : Fits d (lines d src srcLen offset)) (starts : LineStart src srcLen offset)
    (read : getline src srcLen offset = some (raw, after)) (title : isTitle d (d.clean raw) = true) :
    Fits d (lines d src srcLen (after - ((d.clean raw).length + 1))) := by
  have bounds := getline_bounds read
  have short := d.clean_length raw
  rw [lines_some read] at ahead
  rcases getline_cases read with ⟨body, place, single, unended, rfl, length⟩ | ⟨last, rfl⟩
  · -- the end of the same line
    rw [regular.clean_newline unended] at ahead title short ⊢
    have shorter : (d.clean body).length ≤ body.length := d.clean_length body
    obtain ⟨k, small, back⟩ : ∃ k, k ≤ body.length ∧
        after - ((d.clean body).length + 1) = offset + k :=
      ⟨body.length - (d.clean body).length, Nat.sub_le _ _, by omega⟩
    rw [back]
    by_cases inside : offset + k < srcLen
    · have again := getline_within place single unended inside small
      rw [lines_some again, ← length]
      exact ⟨fun _ => ahead.1 title, ahead.2⟩
    · rw [lines_finished (Nat.not_lt.mp inside)]
      trivial
  · by_cases behind : nul ∈ src.take (after - ((d.clean raw).length + 1))
    · exact fit.behind _ (Nat.sub_le _ _) behind
    · exact fits_short ((back_short starts read last behind).trans (by decide))

/-- A line inside an entry either ends it or follows a directive, which may have one module
too many. -/
theorem insideLine_follows (b : Book) (line : List Byte) (entry : Entry) :
    b.insideLine d line entry = .ok b.discard ∨ ∃ status entry',
      d.inside.lookup (getnextword line) = some status ∧ Directed status entry entry' ∧
      b.insideLine d line entry = if maxModules < entry'.modules.length then .error .moduleOverflow
        else .ok { b with current := some entry' } := by
  cases known : d.inside.lookup (getnextword line) with
  | none => exact .inl (Book.insideLine_unknown known)
  | some status =>
    rw [Book.insideLine_known known]
    cases directed : directive status (line.drop (getnextword line).length) entry with
    | none => exact .inl rfl
    | some entry' => exact .inr ⟨status, entry', rfl, directive_fields directed, rfl⟩

theorem insideLine_cases (taken : b.insideLine d line entry = .ok b') :
    b' = b.discard ∨ ∃ status entry', d.inside.lookup (getnextword line) = some status ∧
      Directed status entry entry' ∧ entry'.modules.length ≤ maxModules ∧
      b' = { b with current := some entry' } := by
  rcases insideLine_follows b line entry with discarded | ⟨status, entry', known, directed, follows⟩
  · rw [discarded] at taken
    cases taken
    exact .inl rfl
  · rw [follows] at taken
    split at taken
    · cases taken
    · rename_i room
      cases taken
      exact .inr ⟨status, entry', known, directed, Nat.not_lt.mp room, rfl⟩

private theorem insideLine_fault {fault : Fault} (taken : b.insideLine d line entry = .error fault) :
    ∃ status entry', d.inside.lookup (getnextword line) = some status ∧
      Directed status entry entry' ∧ maxModules < entry'.modules.length := by
  rcases insideLine_follows b line entry with discarded | ⟨status, entry', known, directed, follows⟩
  · rw [discarded] at taken
    cases taken
  · rw [follows] at taken
    split at taken
    · rename_i full
      exact ⟨status, entry', known, directed, full⟩
    · cases taken

/-- A directive is no title. -/
theorem modulesAhead_known (regular : d.Regular) {status : Status}
    (known : d.inside.lookup (getnextword line) = some status) :
    modulesAhead d (line :: l) = modulesAhead d l + if status = .M then 1 else 0 := by
  have plain : isTitle d line = false := by
    rw [isTitle, beq_eq_false_iff_ne]
    intro title
    rw [title, regular.apart] at known
    cases known
  have counted : isModule d line = decide (status = .M) := by
    rw [isModule, known]
    cases status <;> rfl
  simp only [modulesAhead, plain, counted, Bool.false_eq_true, if_false, decide_eq_true_eq]

theorem Reader.Fitting.step (regular : d.Regular) (fit : ModulesFit d src srcLen)
    (fitting : q.Fitting d src srcLen) (turn : Reader.step d src srcLen q = .inr q') :
    q'.Fitting d src srcLen := by
  obtain ⟨raw, after, read, takes⟩ := Reader.step_takes turn
  have ahead := fitting.ahead
  have starts := getline_starts read
  rw [lines_some read] at ahead
  cases takes with
  | blank blank =>
    refine ⟨ahead.2, ?_, fun _ => starts⟩
    intro entry current
    have room := fitting.room entry current
    rw [lines_some read, blank] at room
    have plain : isTitle d [] = false := beq_eq_false_iff_ne.mpr regular.titled.symm
    simp only [modulesAhead, plain, Bool.false_eq_true, if_false] at room
    dsimp only
    omega
  | outside text idle =>
    refine ⟨ahead.2, ?_, fun _ => starts⟩
    intro entry opened
    obtain ⟨title, -, name, -, rfl⟩ := outsideLine_opens regular idle opened
    have few := ahead.1 title
    exact (Nat.zero_add _).trans_le few
  | closing text current closes =>
    have title : isTitle d (d.clean raw) = true := (Bool.and_eq_true_iff.mp closes).2
    have reading : q.book.current ≠ none := by rw [current]; exact Option.some_ne_none _
    refine ⟨back_fits regular fit fitting.ahead (fitting.starts reading) read title, ?_, ?_⟩
    · intro entry current
      rw [q.book.close_current] at current
      cases current
    · intro current
      exact absurd q.book.close_current current
  | inside text current closes taken =>
    refine ⟨ahead.2, ?_, fun _ => starts⟩
    intro entry' current'
    have room := fitting.room _ current
    rw [lines_some read] at room
    rcases insideLine_cases taken with rfl | ⟨status, entry, known, fields, -, rfl⟩
    · cases current'
    · cases current'
      rw [modulesAhead_known regular known] at room
      dsimp only
      rw [fields.modules]
      omega

/-- A reader that fits never meets a line it has no room for. -/
theorem Reader.Fitting.completes (regular : d.Regular) (fitting : q.Fitting d src srcLen)
    {r : Except Fault Book} (ends : Reader.step d src srcLen q = .inl r) : r = .ok q.book.close := by
  rcases Reader.step_stops ends with
    ⟨-, rfl⟩ | ⟨raw, after, entry, fault, read, text, current, closes, taken, rfl⟩
  · rfl
  · have room := fitting.room entry current
    rw [lines_some read] at room
    obtain ⟨status, entry', known, fields, full⟩ := insideLine_fault taken
    rw [modulesAhead_known regular known] at room
    have length := fields.modules
    omega

end

end Parthenope.Menu
