import Parthenope.MenuReference

/-! Where a line is taken apart. A word ends at the first space of the line, and at a tab
only if the line has no space; so a word is what stands before the first blank of either
kind where no tab comes before the first space. -/
namespace Parthenope.Menu
open CString

def isBlank (c : Byte) : Bool := c == blank || c == tab

/-- The longest beginning of a text without blanks. -/
def firstWord (text : List Byte) : List Byte := text.takeWhile (!isBlank ·)

/-- No tab comes before the first space, if there is one. -/
def SpaceFirst (text : List Byte) : Prop := blank ∈ text → tab ∉ text.takeWhile (· != blank)

instance (text : List Byte) : Decidable (SpaceFirst text) := by unfold SpaceFirst; infer_instance

/-- A run of spaces and tabs. -/
structure BlankRun (run : List Byte) : Prop where
  text : run ≠ []
  blanks : ∀ c ∈ run, isBlank c = true

/-- The text after the keyword of a line. -/
def behindKeyword (line : List Byte) : List Byte := strtrim (line.drop (getnextword line).length)

/-- The keyword, the first argument and the rest of two lines are the same; title lines
have nothing but a keyword and a title. -/
structure SameWords (d : Dialect) (line line' : List Byte) : Prop where
  keyword : getnextword line = getnextword line'
  argument : getnextword (behindKeyword line) = getnextword (behindKeyword line')
  rest : behindKeyword (behindKeyword line) = behindKeyword (behindKeyword line')
  title : getnextword line = d.title → behindKeyword line = behindKeyword line'

section
variable {d : Dialect} {text line line' word run run' tail : List Byte} {c : Byte} {b : Book} {entry : Entry}
  {status : Status}

/-- What a word is, whatever the blanks. -/
theorem getnextword_cases (unended : nul ∉ text) :
    getnextword text = if blank ∈ text then text.takeWhile (· != blank) else text.takeWhile (· != tab) := by
  have spaces := strchr_span (c := blank) unended
  have tabs := strchr_span (c := tab) unended
  unfold getnextword
  cases found : strchr text blank with
  | some len =>
    rw [found] at spaces
    have inside : blank ∈ text := by
      have suffix : blank :: text.drop (len + 1) <:+ text := spaces.1 ▸ List.dropWhile_suffix _
      exact suffix.subset List.mem_cons_self
    rw [if_pos inside, spaces.2]
  | none =>
    rw [found] at spaces
    have outside : blank ∉ text := fun inside => by
      have other := List.dropWhile_eq_nil_iff.mp spaces blank inside
      simp at other
    rw [if_neg outside]
    cases second : strchr text tab with
    | some len =>
      rw [second] at tabs
      exact tabs.2.symm
    | none =>
      rw [second] at tabs
      exact (List.takeWhile_eq_self_iff.mpr (List.dropWhile_eq_nil_iff.mp tabs)).symm

/-- Words end at blanks exactly where no tab comes before the first space. -/
theorem getnextword_firstWord (unended : nul ∉ text) : getnextword text = firstWord text ↔ SpaceFirst text := by
  have both : firstWord text = (text.takeWhile (· != blank)).takeWhile (· != tab) := by
    rw [List.takeWhile_takeWhile]
    refine congrArg (List.takeWhile · text) (funext fun c => ?_)
    by_cases space : c = blank <;> by_cases tabbed : c = tab <;> simp [isBlank, space, tabbed]
  rw [getnextword_cases unended, both, SpaceFirst]
  by_cases inside : blank ∈ text
  · rw [if_pos inside, eq_comm, List.takeWhile_eq_self_iff]
    simp only [inside, forall_const]
    constructor
    · intro apart member
      simpa using apart tab member
    · intro absent c member
      simpa using ne_of_mem_of_not_mem member absent
  · have whole : text.takeWhile (· != blank) = text :=
      List.takeWhile_eq_self_iff.mpr fun c member => bne_iff_ne.mpr (ne_of_mem_of_not_mem member inside)
    rw [if_neg inside, whole]
    simp [inside]

/-- A word in front of a run of blanks. -/
theorem getnextword_run (spaced : SpaceFirst (word ++ (run ++ tail))) (unended : nul ∉ word ++ (run ++ tail))
    (letters : ∀ c ∈ word, isBlank c = false) (blanks : BlankRun run) :
    getnextword (word ++ (run ++ tail)) = word := by
  obtain ⟨first, more, rfl⟩ := List.exists_cons_of_ne_nil blanks.text
  have space := blanks.blanks first List.mem_cons_self
  rw [(getnextword_firstWord unended).mpr spaced, firstWord, List.takeWhile_append_of_pos, List.cons_append,
    List.takeWhile_cons_of_neg, List.append_nil]
  · simp [space]
  · intro c member
    simp [letters c member]

theorem isBlank_space (space : isBlank c = true) : isspace c = true := by
  simp only [isBlank, Bool.or_eq_true, beq_iff_eq] at space
  rcases space with rfl | rfl <;> decide

theorem BlankRun.spaces (blanks : BlankRun run) : ∀ c ∈ run, isspace c = true := fun c member =>
  isBlank_space (blanks.blanks c member)

/-- Blanks end neither a line nor a text, and begin no comment. -/
theorem BlankRun.plain (blanks : BlankRun run) (comment : isspace d.comment = false) :
    ∀ c ∈ run, c ≠ newline ∧ c ≠ nul ∧ c ≠ d.comment := by
  intro c member
  have space := blanks.blanks c member
  refine ⟨?_, ?_, ?_⟩
  · rintro rfl
    cases space
  · rintro rfl
    cases space
  · rintro rfl
    exact Bool.false_ne_true (comment.symm.trans (isBlank_space space))

theorem strtrim_spaces (spaces : ∀ c ∈ run, isspace c = true) : strtrim (run ++ tail) = strtrim tail := by
  unfold strtrim
  rw [List.dropWhile_append_of_pos spaces]

/-- White space at the end of a text, or what it is followed by. -/
theorem rdropWhile_run (spaces : ∀ c ∈ run, isspace c = true) :
    (word ++ (run ++ tail)).rdropWhile isspace =
      if tail.rdropWhile isspace = [] then word.rdropWhile isspace
      else word ++ (run ++ tail.rdropWhile isspace) := by
  have empty : tail.rdropWhile isspace = [] ↔ (tail.reverse.dropWhile isspace).isEmpty = true := by
    rw [List.rdropWhile, List.reverse_eq_nil_iff, List.isEmpty_iff]
  unfold List.rdropWhile at empty ⊢
  rw [List.reverse_append, List.reverse_append, List.append_assoc, List.dropWhile_append]
  simp only [← empty]
  split
  · rw [List.dropWhile_append_of_pos fun c member => spaces c (List.mem_reverse.mp member)]
  · simp

/-- A text that no white space begins, in front of a run of blanks. -/
theorem strtrim_run (first : ∀ c, word.head? = some c → isspace c = false) (text : word ≠ [])
    (spaces : ∀ c ∈ run, isspace c = true) :
    strtrim (word ++ (run ++ tail)) =
      if tail.rdropWhile isspace = [] then strtrim word else word ++ (run ++ tail.rdropWhile isspace) := by
  obtain ⟨c, more, rfl⟩ := List.exists_cons_of_ne_nil text
  have front (rest : List Byte) : (c :: more ++ rest).dropWhile isspace = c :: more ++ rest :=
    List.dropWhile_cons_of_neg (by simp [first c rfl])
  have same := front []
  rw [List.append_nil] at same
  unfold strtrim
  rw [front, same, rdropWhile_run spaces]

private theorem numberLine_text (text : List Byte) :
    numberLine text = if getnextword (strtrim text) = [] then none else some (strtol (getnextword (strtrim text))) := by
  unfold numberLine
  by_cases empty : text = []
  · subst empty
    rfl
  · rw [if_neg empty]

/-- A directive looks at the first argument and the rest only. -/
theorem SameWords.directive (same : SameWords d line line') (status : Status) (entry : Entry) :
    directive status (line.drop (getnextword line).length) entry =
      Menu.directive status (line'.drop (getnextword line').length) entry := by
  have argument := same.argument
  have rest := same.rest
  unfold behindKeyword at argument rest
  rw [argument] at rest
  cases status <;>
    simp only [Menu.directive, kernelLine, rootLine, otherLine, initrdLine, dtbLine, moduleLine,
      wordLine, argument, rest]

theorem SameWords.numberLine (same : SameWords d line line') :
    numberLine (line.drop (getnextword line).length) = Menu.numberLine (line'.drop (getnextword line').length) := by
  have argument := same.argument
  unfold behindKeyword at argument
  rw [numberLine_text, numberLine_text, argument]

theorem SameWords.closes (same : SameWords d line line') : d.closes line = d.closes line' := by
  unfold Dialect.closes
  rw [same.keyword]

theorem SameWords.insideLine (same : SameWords d line line') (b : Book) (entry : Entry) :
    b.insideLine d line entry = b.insideLine d line' entry := by
  unfold Book.insideLine
  dsimp only
  rw [← same.keyword]
  cases d.inside.lookup (getnextword line) with
  | none => rfl
  | some status =>
    have taken := same.directive status entry
    rw [← same.keyword] at taken
    dsimp only
    rw [taken]

theorem SameWords.outsideLine (regular : d.Regular) (same : SameWords d line line') (b : Book) :
    b.outsideLine d line = b.outsideLine d line' := by
  have number := same.numberLine
  have title := same.title
  unfold behindKeyword at title
  unfold Book.outsideLine
  dsimp only
  rw [← same.keyword] at number title ⊢
  cases known : d.outside.lookup (getnextword line) with
  | none => rfl
  | some status =>
    obtain ⟨-, rfl | rfl | rfl⟩ := regular.outside_status known
    · have word := regular.opens _ (lookup_mem known) rfl
      simp only [title word]
    · simp only [number]
    · simp only [number]

theorem SameWords.rfl (line : List Byte) : SameWords d line line :=
  ⟨Eq.refl _, Eq.refl _, Eq.refl _, fun _ => Eq.refl _⟩

end

/-- A word that no white space begins. -/
structure Begins (d : Dialect) (word : List Byte) : Prop where
  text : word ≠ []
  first : ∀ c, word.head? = some c → isspace c = false
  letters : ∀ c ∈ word, isBlank c = false ∧ c ≠ newline ∧ c ≠ nul ∧ c ≠ d.comment

/-- What may stand in front of a run of blanks: a keyword, or a keyword and a first
argument. A title is one argument with all that follows. -/
inductive Opening (d : Dialect) : List Byte → Prop
  | keyword {word : List Byte} : Begins d word → Opening d word
  | argument {word gap argument : List Byte} : Begins d word → word ≠ d.title → BlankRun gap →
      Begins d argument → Opening d (word ++ (gap ++ argument))

/-- The keyword and the first argument of a line end at their first blank. -/
structure SplitsAtBlanks (line : List Byte) : Prop where
  keyword : SpaceFirst line
  argument : SpaceFirst (behindKeyword line)

/-- The keyword and the first argument of a line are the longest beginnings without blanks. -/
structure WordsAtBlanks (line : List Byte) : Prop where
  keyword : getnextword line = firstWord line
  argument : getnextword (behindKeyword line) = firstWord (behindKeyword line)

section
variable {d : Dialect} {opening run run' tail line : List Byte}

theorem wordsAtBlanks_iff (unended : nul ∉ line) : WordsAtBlanks line ↔ SplitsAtBlanks line := by
  have shorter : nul ∉ behindKeyword line := fun inside =>
    unended (List.mem_of_mem_drop ((strtrim_within _).subset inside))
  have keyword := getnextword_firstWord unended
  have argument := getnextword_firstWord shorter
  constructor
  · exact fun words => ⟨keyword.mp words.keyword, argument.mp words.argument⟩
  · exact fun splits => ⟨keyword.mpr splits.keyword, argument.mpr splits.argument⟩

theorem Opening.text (opens : Opening d opening) : opening ≠ [] := by
  cases opens with
  | keyword begins => exact begins.text
  | argument begins => exact List.append_ne_nil_of_left_ne_nil begins.text _

theorem Opening.first (opens : Opening d opening) : ∀ c, opening.head? = some c → isspace c = false := by
  cases opens with
  | keyword begins => exact begins.first
  | argument begins =>
    intro c head
    rw [List.head?_append_of_ne_nil _ begins.text] at head
    exact begins.first c head

/-- No line and no comment begins before the run. -/
theorem Opening.plain (opens : Opening d opening) (comment : isspace d.comment = false) :
    ∀ c ∈ opening, c ≠ newline ∧ c ≠ nul ∧ c ≠ d.comment := by
  cases opens with
  | keyword begins => exact fun c member => (begins.letters c member).2
  | argument begins _ gap argument =>
    intro c member
    rcases List.mem_append.mp member with earlier | later
    · exact (begins.letters c earlier).2
    · rcases List.mem_append.mp later with between | later
      · exact gap.plain comment c between
      · exact (argument.letters c later).2

/-- What is behind a keyword and a run of blanks. -/
theorem behindKeyword_run {word : List Byte} (begins : Begins d word) (blanks : BlankRun run)
    (unended : nul ∉ word ++ (run ++ tail)) (spaced : SpaceFirst (word ++ (run ++ tail))) :
    getnextword (word ++ (run ++ tail)) = word ∧ behindKeyword (word ++ (run ++ tail)) = strtrim tail := by
  have keyword := getnextword_run spaced unended (fun c member => (begins.letters c member).1) blanks
  refine ⟨keyword, ?_⟩
  rw [behindKeyword, keyword, List.drop_left, strtrim_spaces blanks.spaces]

/-- What is behind a keyword and a first argument. -/
theorem behindArgument_run {word gap argument : List Byte} (begins : Begins d word) (between : BlankRun gap)
    (second : Begins d argument) (blanks : BlankRun run) (more : tail ≠ []) (trimmed : tail.rdropWhile isspace = tail)
    (unended : nul ∉ word ++ (gap ++ (argument ++ (run ++ tail))))
    (splits : SplitsAtBlanks (word ++ (gap ++ (argument ++ (run ++ tail))))) :
    getnextword (word ++ (gap ++ (argument ++ (run ++ tail)))) = word ∧
      getnextword (behindKeyword (word ++ (gap ++ (argument ++ (run ++ tail))))) = argument ∧
      behindKeyword (behindKeyword (word ++ (gap ++ (argument ++ (run ++ tail))))) = strtrim tail := by
  obtain ⟨keyword, behind⟩ := behindKeyword_run begins between unended splits.keyword
  have spaced := splits.argument
  rw [strtrim_run second.first second.text blanks.spaces, trimmed, if_neg more] at behind
  rw [behind] at spaced ⊢
  have later : nul ∉ argument ++ (run ++ tail) := fun inside =>
    unended (List.mem_append_right _ (List.mem_append_right _ inside))
  exact ⟨keyword, behindKeyword_run second blanks later spaced⟩

/-- Two lines that differ in a run of blanks have the same words. -/
theorem Opening.sameWords (opens : Opening d opening) (comment : isspace d.comment = false) (blanks : BlankRun run)
    (blanks' : BlankRun run') (unended : nul ∉ tail)
    (splits : SplitsAtBlanks (strtrim (opening ++ (run ++ tail))))
    (splits' : SplitsAtBlanks (strtrim (opening ++ (run' ++ tail)))) :
    SameWords d (strtrim (opening ++ (run ++ tail))) (strtrim (opening ++ (run' ++ tail))) := by
  rw [strtrim_run opens.first opens.text blanks.spaces] at splits ⊢
  rw [strtrim_run opens.first opens.text blanks'.spaces] at splits' ⊢
  by_cases empty : tail.rdropWhile isspace = []
  · rw [if_pos empty, if_pos empty]
    exact .rfl _
  rw [if_neg empty] at splits splits'
  rw [if_neg empty, if_neg empty]
  have trimmed : (tail.rdropWhile isspace).rdropWhile isspace = tail.rdropWhile isspace :=
    List.rdropWhile_idempotent _ _
  have shorter : nul ∉ tail.rdropWhile isspace := fun inside =>
    unended ((List.rdropWhile_prefix _ _).subset inside)
  have clear {run : List Byte} (blanks : BlankRun run) : nul ∉ opening ++ (run ++ tail.rdropWhile isspace) := by
    simp only [List.mem_append, not_or]
    exact ⟨fun inside => (opens.plain comment nul inside).2.1 rfl,
      fun inside => (blanks.plain comment nul inside).2.1 rfl, shorter⟩
  have clear' := clear blanks'
  replace clear := clear blanks
  cases opens with
  | keyword begins =>
    obtain ⟨keyword, behind⟩ := behindKeyword_run begins blanks clear splits.keyword
    obtain ⟨keyword', behind'⟩ := behindKeyword_run begins blanks' clear' splits'.keyword
    refine ⟨keyword.trans keyword'.symm, ?_, ?_, fun _ => behind.trans behind'.symm⟩
    · rw [behind, behind']
    · rw [behind, behind']
  | argument begins other between second =>
    rw [List.append_assoc, List.append_assoc] at splits splits' clear clear' ⊢
    rw [List.append_assoc, List.append_assoc]
    obtain ⟨keyword, argument, rest⟩ := behindArgument_run begins between second blanks empty trimmed clear splits
    obtain ⟨keyword', argument', rest'⟩ := behindArgument_run begins between second blanks' empty trimmed clear' splits'
    exact ⟨keyword.trans keyword'.symm, argument.trans argument'.symm, rest.trans rest'.symm,
      fun title => absurd (keyword.symm.trans title) other⟩

end

end Parthenope.Menu
