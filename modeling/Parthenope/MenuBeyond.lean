import Parthenope.MenuFormat

/-! What lies behind a file in its buffer. A line is looked for up to a newline or
a terminator, with no regard for the length of the file, so a last line that the
file does not end goes on into what the buffer held before. -/
namespace Parthenope.Menu
open CString StepLoop

/-- A line that begins here ends in the file, or the file ends before. -/
def LineEnds (file : List Byte) (offset : Nat) : Prop :=
  file.length ≤ offset ∨ newline ∈ file.drop offset ∨ nul ∈ file.drop offset

/-- Every line read from the file ends in the file. -/
def EndsLines (d : Dialect) (file : List Byte) (numbers : Word × Word) : Prop :=
  ∀ q, Reaches (Reader.step d file file.length) ⟨0, .start numbers⟩ q → LineEnds file q.offset

section
variable {d : Dialect} {file rest rest' u : List Byte} {offset : Nat} {heap : Heap} {menu : Addr}
  {old : List Addr}

private theorem cstring_ended (ended : nul ∈ u) (rest : List Byte) : cstring (u ++ rest) = cstring u := by
  induction u with
  | nil => cases ended
  | cons b u ih =>
    unfold cstring
    by_cases last : b = nul
    · rw [List.cons_append, List.takeWhile_cons_of_neg (by simpa using last),
        List.takeWhile_cons_of_neg (by simpa using last)]
    · have later : nul ∈ u := (List.mem_cons.mp ended).resolve_left (Ne.symm last)
      rw [List.cons_append, List.takeWhile_cons_of_pos (by simpa using last),
        List.takeWhile_cons_of_pos (by simpa using last)]
      exact congrArg (b :: ·) (ih later)

/-- The end of a line is found before what follows the text. -/
theorem strchr_ended (ended : newline ∈ u ∨ nul ∈ u) (rest : List Byte) :
    strchr (u ++ rest) newline = strchr u newline := by
  by_cases terminated : nul ∈ u
  · rw [strchr, strchr, cstring_ended terminated]
  · obtain ⟨before, behind, rfl, first⟩ := List.eq_append_cons_of_mem (ended.resolve_right terminated)
    have unended : nul ∉ before := fun inside => terminated (List.mem_append_left _ inside)
    rw [List.append_assoc, List.cons_append, strchr_first first unended (by decide),
      strchr_first first unended (by decide)]

private theorem getline_file (ends : LineEnds file offset) (rest : List Byte) :
    getline (file ++ rest) file.length offset = getline file file.length offset := by
  unfold getline
  by_cases finished : file.length ≤ offset
  · rw [if_pos finished, if_pos finished]
  · have ended := ends.resolve_left finished
    have split : (file ++ rest).drop offset = file.drop offset ++ rest :=
      List.drop_append_of_le_length (Nat.le_of_not_le finished)
    rw [if_neg finished, if_neg finished, split, strchr_ended ended]
    have same {len : Nat} (short : len ≤ (file.drop offset).length) :
        (file.drop offset ++ rest).take len = (file.drop offset).take len :=
      List.take_append_of_le_length short
    cases found : strchr (file.drop offset) newline with
    | none =>
      dsimp only
      rw [same List.length_drop.ge]
    | some i =>
      dsimp only
      rw [same (strchr_lt found)]

/-- Where the file does not end the line, the line depends on what follows. -/
theorem getline_file_iff :
    (∀ rest, getline (file ++ rest) file.length offset = getline file file.length offset) ↔
      LineEnds file offset := by
  refine ⟨?_, getline_file⟩
  intro same
  by_contra unended
  simp only [LineEnds, not_or] at unended
  obtain ⟨inside, single, unended⟩ := unended
  have split (rest : List Byte) : (file ++ rest).drop offset = file.drop offset ++ rest :=
    List.drop_append_of_le_length (Nat.le_of_not_le inside)
  -- two tails that end the line at different places
  have place : (file ++ [blank, newline]).drop offset = (file.drop offset ++ [blank]) ++ newline :: [] :=
    (split [blank, newline]).trans (List.append_cons _ _ _)
  have short := getline_terminated (Nat.lt_of_not_le inside) (split [newline]) single unended
  have long := getline_terminated (Nat.lt_of_not_le inside) place (by simpa using ⟨single, by decide⟩)
    (by simpa using ⟨unended, by decide⟩)
  rw [same, ← same [newline], short] at long
  have after := congrArg Prod.snd (Option.some.inj long)
  rw [List.length_append, List.length_singleton] at after
  dsimp only at after
  omega

/-- The reader of a file whose lines end in it reads nothing else. -/
theorem reader_file (numbers : Word × Word) (ends : EndsLines d file numbers) (rest : List Byte) (n : Nat) :
    run (Reader.step d (file ++ rest) file.length) n ⟨0, .start numbers⟩ =
      run (Reader.step d file file.length) n ⟨0, .start numbers⟩ := by
  apply run_congr
  intro q reached
  unfold Reader.step
  rw [getline_file (ends q reached)]

/-- The last byte of a file ends all its lines. -/
theorem endsLines_of_last (last : file = [] ∨ file.getLast? = some newline ∨ file.getLast? = some nul)
    (numbers : Word × Word) : EndsLines d file numbers := by
  intro q _
  by_cases finished : file.length ≤ q.offset
  · exact .inl finished
  · have text : file ≠ [] := by
      rintro rfl
      exact finished (Nat.zero_le _)
    have final : (file.drop q.offset).getLast? = file.getLast? := by
      rw [List.getLast?_drop, if_neg finished]
    rw [← final] at last
    rcases last with empty | ending | ending
    · exact absurd empty text
    · exact .inr (.inl (List.mem_of_getLast? ending))
    · exact .inr (.inr (List.mem_of_getLast? ending))

private theorem parse_reads_file_only (scratch scratch' : Word × Word) (regular : d.Regular)
    (lists : heap.Lists menu old) (ends : EndsLines d file (heap.numbers menu)) (rest rest' : List Byte) :
    SameOutcome menu menu (parse d (file ++ rest) file.length heap menu scratch)
      (parse d (file ++ rest') file.length heap menu scratch') := by
  obtain ⟨n, k, runs⟩ := reader_terminates regular file file.length ⟨0, .start (heap.numbers menu)⟩
  obtain ⟨fuel, r, result, agrees⟩ := parse_follows scratch regular lists
    ((reader_file _ ends rest n).trans runs)
  obtain ⟨fuel', r', result', agrees'⟩ := parse_follows scratch' regular lists
    ((reader_file _ ends rest' n).trans runs)
  exact ⟨fuel, r, fuel', r', result, result', agrees.outcome.trans agrees'.outcome.symm⟩

/-- Both parsers make the same menu of a file whatever lies behind it, where every
line they read ends in the file. -/
theorem parsers_read_file_only (file rest rest' : List Byte) (scratch scratch' : Word × Word)
    (lists : heap.Lists menu old) :
    (EndsLines menuLst file (heap.numbers menu) →
      SameOutcome menu menu (fsm (file ++ rest) file.length heap menu scratch)
        (fsm (file ++ rest') file.length heap menu scratch')) ∧
    (EndsLines kicklayout file (heap.numbers menu) →
      SameOutcome menu menu (kickFsm (file ++ rest) file.length heap menu scratch)
        (kickFsm (file ++ rest') file.length heap menu scratch')) :=
  ⟨fun ends => parse_reads_file_only scratch scratch' menuLst_regular lists ends rest rest',
    fun ends => parse_reads_file_only scratch scratch' kicklayout_regular lists ends rest rest'⟩

end

def endedTitle : List Byte := chars "title a\nkernel k\n"

def endedLabel : List Byte := chars "LABEL a\nEXEC k\n"

theorem endedTitle_reads_file_only :
    SameOutcome 0 0 (fsm (endedTitle ++ []) endedTitle.length headOnly 0 (0, 0))
      (fsm (endedTitle ++ chars "x\n") endedTitle.length headOnly 0 (0, 0)) ∧
    SameOutcome 0 0 (kickFsm (endedLabel ++ []) endedLabel.length headOnly 0 (0, 0))
      (kickFsm (endedLabel ++ chars "x\n") endedLabel.length headOnly 0 (0, 0)) :=
  ⟨(parsers_read_file_only endedTitle [] (chars "x\n") (0, 0) (0, 0) headOnly_lists).1
      (endsLines_of_last (.inr (.inl (by decide))) _),
    (parsers_read_file_only endedLabel [] (chars "x\n") (0, 0) (0, 0) headOnly_lists).2
      (endsLines_of_last (.inr (.inl (by decide))) _)⟩

def unendedTitle : List Byte := chars "title a\nkernel k"

def unendedLabel : List Byte := chars "LABEL a\nEXEC k"

/-- Without the last newline the name of the kernel goes on behind the file, in
both parsers. -/
theorem unended_kernel_goes_on :
    ¬ SameOutcome 0 0 (fsm (unendedTitle ++ []) unendedTitle.length headOnly 0 (0, 0))
      (fsm (unendedTitle ++ chars "x\n") unendedTitle.length headOnly 0 (0, 0)) ∧
    ¬ SameOutcome 0 0 (kickFsm (unendedLabel ++ []) unendedLabel.length headOnly 0 (0, 0))
      (kickFsm (unendedLabel ++ chars "x\n") unendedLabel.length headOnly 0 (0, 0)) := by
  let named (kernel : List Byte) : Option (List Entry) :=
    some [{ entryAlloc with title := some (chars "a"), kernel := some kernel }]
  have read (d : Dialect) (file rest kernel : List Byte)
      (reads : (run (Reader.step d (file ++ rest) file.length) 3 ⟨0, .start (headOnly.numbers 0)⟩).map
        addedOf = some (named kernel)) :
      ∃ r, run (Reader.step d (file ++ rest) file.length) 3 ⟨0, .start (headOnly.numbers 0)⟩ = some r ∧
        addedOf r = named kernel := Option.map_eq_some_iff.mp reads
  constructor
  · obtain ⟨r, runs, added⟩ := read menuLst unendedTitle [] (chars "k") (by decide)
    obtain ⟨r', runs', added'⟩ := read menuLst unendedTitle (chars "x\n") (chars "kx") (by decide)
    exact different_entries menuLst_regular runs runs' (by rw [added, added']; decide)
  · obtain ⟨r, runs, added⟩ := read kicklayout unendedLabel [] (chars "k") (by decide)
    obtain ⟨r', runs', added'⟩ := read kicklayout unendedLabel (chars "x\n") (chars "kx") (by decide)
    exact different_entries kicklayout_regular runs runs' (by rw [added, added']; decide)

end Parthenope.Menu
