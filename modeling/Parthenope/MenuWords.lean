import Parthenope.MenuFormat

/-! Canonical lines. A line is empty or a few words with one blank between them,
and cleaning leaves it as it is. -/
namespace Parthenope.Menu
open CString StepLoop

/-- Text without blanks, tabs and comments, that white space neither begins nor ends. -/
structure IsWord (d : Dialect) (word : List Byte) : Prop where
  text : word ≠ []
  plain : Plain word
  unspaced : blank ∉ word
  untabbed : tab ∉ word
  comment : d.comment ∉ word
  trimmed : Trimmed word

/-- Words, each with the blank before it. -/
def spaced (words : List (List Byte)) : List Byte := (words.map (blank :: ·)).flatten

def unwords : List (List Byte) → List Byte
  | [] => []
  | word :: rest => word ++ spaced rest

/-- Lines of words. -/
def Canonical (d : Dialect) (lines : List (List (List Byte))) : Prop :=
  ∀ words ∈ lines, ∀ word ∈ words, IsWord d word

section
variable {d : Dialect} {word : List Byte} {words rest : List (List Byte)} {c : Byte}

theorem isWord_of_letters (text : word ≠ [])
    (letters : ∀ c ∈ word, isspace c = false ∧ c ≠ nul ∧ c ≠ d.comment) : IsWord d word := by
  have apart {c : Byte} (space : isspace c = true) : c ∉ word := fun inside =>
    Bool.false_ne_true ((letters c inside).1.symm.trans space)
  refine ⟨text, ⟨apart (by decide), fun inside => (letters _ inside).2.1 rfl⟩, apart (by decide),
    apart (by decide), fun inside => (letters _ inside).2.2 rfl, ?_, ?_⟩
  · intro c first
    exact (letters c (List.mem_of_head? first)).1
  · intro c last
    exact (letters c (List.mem_of_getLast? last)).1

theorem canonical_of_letters {lines : List (List (List Byte))}
    (letters : (lines.all fun words => words.all fun word =>
      !word.isEmpty && word.all fun c => !isspace c && c != nul && c != d.comment) = true) :
    Canonical d lines := by
  intro words inLines word inWords
  have both := List.all_eq_true.mp (List.all_eq_true.mp letters words inLines) word inWords
  rw [Bool.and_eq_true] at both
  apply isWord_of_letters
  · rintro rfl
    exact Bool.false_ne_true both.1
  · intro c inside
    simpa [and_assoc] using List.all_eq_true.mp both.2 c inside

theorem spaced_cons : spaced (word :: rest) = blank :: unwords (word :: rest) := rfl

private theorem mem_spaced (inside : c ∈ spaced words) : c = blank ∨ ∃ word ∈ words, c ∈ word := by
  obtain ⟨piece, member, letter⟩ := List.mem_flatten.mp inside
  obtain ⟨word, inWords, rfl⟩ := List.mem_map.mp member
  rcases List.mem_cons.mp letter with rfl | inWord
  · exact .inl rfl
  · exact .inr ⟨word, inWords, inWord⟩

private theorem mem_unwords (inside : c ∈ unwords words) : c = blank ∨ ∃ word ∈ words, c ∈ word := by
  cases words with
  | nil => cases inside
  | cons word rest =>
    rcases List.mem_append.mp inside with inWord | later
    · exact .inr ⟨word, List.mem_cons_self, inWord⟩
    · rcases mem_spaced later with space | ⟨other, member, letter⟩
      · exact .inl space
      · exact .inr ⟨other, List.mem_cons_of_mem _ member, letter⟩

private theorem not_mem_unwords (other : c ≠ blank) (apart : ∀ word ∈ words, c ∉ word) :
    c ∉ unwords words := by
  intro inside
  rcases mem_unwords inside with space | ⟨word, member, letter⟩
  · exact other space
  · exact apart word member letter

theorem unwords_ne_nil (isWord : ∀ w ∈ word :: rest, IsWord d w) : unwords (word :: rest) ≠ [] :=
  List.append_ne_nil_of_left_ne_nil (isWord word List.mem_cons_self).text _

theorem unwords_plain (isWord : ∀ w ∈ words, IsWord d w) : Plain (unwords words) :=
  ⟨not_mem_unwords (by decide) fun w member => (isWord w member).plain.single,
    not_mem_unwords (by decide) fun w member => (isWord w member).plain.unended⟩

private theorem unwords_trimmed (isWord : ∀ w ∈ words, IsWord d w) : Trimmed (unwords words) := by
  induction words with
  | nil => exact ⟨fun _ none => (nomatch none), fun _ none => (nomatch none)⟩
  | cons word rest ih =>
    have first := isWord word List.mem_cons_self
    constructor
    · intro c head
      apply first.trimmed.first
      rw [unwords, List.head?_append_of_ne_nil _ first.text] at head
      exact head
    · intro c last
      cases rest with
      | nil =>
        rw [unwords, spaced, List.map_nil, List.flatten_nil, List.append_nil] at last
        exact first.trimmed.last c last
      | cons other rest =>
        have later : ∀ w ∈ other :: rest, IsWord d w := fun w member =>
          isWord w (List.mem_cons_of_mem _ member)
        apply (ih later).last
        rw [unwords, spaced_cons, List.append_cons, List.getLast?_append_of_ne_nil _ (unwords_ne_nil later)]
          at last
        exact last

/-- Words are what cleaning leaves. -/
theorem unwords_clean (isWord : ∀ w ∈ words, IsWord d w) (comment : d.comment ≠ blank) :
    d.clean (unwords words) = unwords words := by
  have plain := unwords_plain isWord
  have uncommented : d.comment ∉ unwords words :=
    not_mem_unwords comment fun w member => (isWord w member).comment
  have whole : eatcomments d.comment (unwords words) = unwords words := by
    rw [eatcomments_takeWhile plain.unended, List.takeWhile_eq_self_iff]
    intro c inside
    exact bne_iff_ne.mpr (ne_of_mem_of_not_mem inside uncommented)
  rw [Dialect.clean, whole]
  exact (unwords_trimmed isWord).strtrim

theorem strtrim_spaced (isWord : ∀ w ∈ words, IsWord d w) : strtrim (spaced words) = unwords words := by
  cases words with
  | nil => rfl
  | cons word rest =>
    have skipped : strtrim (spaced (word :: rest)) = strtrim (unwords (word :: rest)) := by
      unfold strtrim
      rw [spaced_cons, List.dropWhile_cons_of_pos (by decide)]
    rw [skipped]
    exact (unwords_trimmed isWord).strtrim

theorem getnextword_unwords (isWord : ∀ w ∈ word :: rest, IsWord d w) :
    getnextword (unwords (word :: rest)) = word := by
  have first := isWord word List.mem_cons_self
  cases rest with
  | nil =>
    have alone : unwords [word] = word := List.append_nil word
    have absent {c : Byte} (apart : c ∉ word) : strchr word c = none := by
      rw [strchr, cstring_unended first.plain.unended, List.findIdx?_eq_none_iff]
      intro b inside
      exact beq_eq_false_iff_ne.mpr (ne_of_mem_of_not_mem inside apart)
    rw [alone, getnextword, absent first.unspaced, absent first.untabbed]
  | cons other rest =>
    have found : strchr (unwords (word :: other :: rest)) blank = some word.length :=
      strchr_first first.unspaced first.plain.unended (by decide)
    rw [getnextword, found]
    exact List.take_left

theorem drop_unwords : (unwords (word :: rest)).drop word.length = spaced rest := List.drop_left

end

section
variable {d : Dialect} {src beyond : List Byte} {bodies : List (List Byte)}
  {lines : List (List (List Byte))} {offset srcLen : Nat} {b : Book} {heap : Heap} {menu : Addr}
  {old : List Addr}

/-- The lines of a text are those it is made of. -/
theorem lines_textOf (offset : Nat) (regular : d.Regular) (plain : ∀ body ∈ bodies, Plain body)
    (place : src.drop offset = textOf bodies ++ beyond)
    (length : offset + (textOf bodies).length = srcLen) :
    Menu.lines d src srcLen offset = bodies.map d.clean := by
  induction bodies generalizing offset with
  | nil => exact lines_finished (by simp [textOf] at length; omega)
  | cons body rest ih =>
    rw [textOf_cons] at place
    rw [textOf_length] at length
    have first := plain body List.mem_cons_self
    have read := getline_terminated (by omega : offset < srcLen) place first.single first.unended
    have place' : src.drop (offset + (body.length + 1)) = textOf rest ++ beyond := by
      rw [← List.drop_drop, place, List.append_cons, List.drop_left']
      simp
    rw [lines_some read, regular.clean_newline first.unended, List.map_cons]
    rw [ih _ (fun body inside => plain body (List.mem_cons_of_mem _ inside)) place' (by omega)]

private theorem textOf_unended (plain : ∀ body ∈ bodies, Plain body) : nul ∉ textOf bodies := by
  intro inside
  obtain ⟨piece, member, letter⟩ := List.mem_flatten.mp inside
  obtain ⟨body, inBodies, rfl⟩ := List.mem_map.mp member
  rcases List.mem_append.mp letter with earlier | last
  · exact (plain body inBodies).unended earlier
  · cases List.mem_singleton.mp last

private theorem textOf_fits (beyond : List Byte) (regular : d.Regular) (plain : ∀ body ∈ bodies, Plain body)
    (fit : Fits d (bodies.map d.clean)) :
    ModulesFit d (textOf bodies ++ beyond) (textOf bodies).length := by
  constructor
  · rw [lines_textOf 0 regular plain rfl (Nat.zero_add _)]
    exact fit
  · intro offset inside behind
    rw [List.take_append_of_le_length inside] at behind
    exact absurd (List.mem_of_mem_take behind) (textOf_unended plain)

private theorem canonical_clean (canonical : Canonical d lines) (comment : d.comment ≠ blank) :
    ∀ body ∈ lines.map unwords, d.clean body = body := by
  intro body inside
  obtain ⟨words, member, rfl⟩ := List.mem_map.mp inside
  exact unwords_clean (canonical words member) comment

private theorem canonical_plain (canonical : Canonical d lines) :
    ∀ body ∈ lines.map unwords, Plain body := by
  intro body inside
  obtain ⟨words, member, rfl⟩ := List.mem_map.mp inside
  exact unwords_plain (canonical words member)

/-- A line that is clean closes an entry cleanly. -/
theorem closesCleanly_clean (clean : ∀ body ∈ bodies, d.clean body = body) :
    closesCleanly d bodies b = true := by
  induction bodies generalizing b with
  | nil => rfl
  | cons body rest ih =>
    have whole : (d.clean body).isSuffixOf body = true := by
      rw [clean body List.mem_cons_self, List.isSuffixOf_iff_suffix]
    rw [closesCleanly, whole, Bool.or_true, Bool.true_and]
    cases heeds d b (d.clean body) with
    | error fault => rfl
    | ok b' => exact ih fun body inside => clean body (List.mem_cons_of_mem _ inside)

/-- The parser on canonical lines ends as the fold over these lines does. -/
theorem parse_words (scratch : Word × Word) (beyond : List Byte) (regular : d.Regular)
    (comment : d.comment ≠ blank) (lists : heap.Lists menu old) (canonical : Canonical d lines) :
    ∃ fuel r, parse d (textOf (lines.map unwords) ++ beyond) (textOf (lines.map unwords)).length
        heap menu scratch fuel = some r ∧
      Agrees heap menu old r (foldLines (heeds d) (lines.map unwords) (.start (heap.numbers menu))) := by
  have plain := canonical_plain canonical
  obtain ⟨fuel, r, result, agrees⟩ := parse_text scratch regular lists plain beyond
  have clean := canonical_clean canonical comment
  rw [foldLines_clean plain (closesCleanly_clean clean), List.map_congr_left clean, List.map_id'] at agrees
  exact ⟨fuel, r, result, agrees⟩

/-- The fold is not stopped by lines that fit. -/
theorem foldLines_fits (regular : d.Regular) (comment : d.comment ≠ blank)
    (canonical : Canonical d lines) (fit : Fits d (lines.map unwords)) (numbers : Word × Word) :
    ∃ b, foldLines (heeds d) (lines.map unwords) (.start numbers) = .ok b := by
  have plain := canonical_plain canonical
  have clean := canonical_clean canonical comment
  have same : (lines.map unwords).map d.clean = lines.map unwords := List.map_congr_left clean |>.trans (List.map_id _)
  have room := textOf_fits [] regular plain (same.symm ▸ fit)
  obtain ⟨m, runs⟩ := reader_reads (textOf (lines.map unwords) ++ []) (q := ⟨0, .start numbers⟩)
    regular plain rfl (Nat.zero_add _)
  obtain ⟨b, complete, -⟩ := reader_sound regular room numbers runs
  rw [foldLines_clean plain (closesCleanly_clean clean), same] at complete
  exact ⟨b, complete⟩

/-- Where the lines fit, the parser ends with the entries the fold has added. -/
theorem parse_fits (scratch : Word × Word) (beyond : List Byte) (regular : d.Regular)
    (comment : d.comment ≠ blank) (lists : heap.Lists menu old) (canonical : Canonical d lines)
    (folded : foldLines (heeds d) (lines.map unwords) (.start (heap.numbers menu)) = .ok b) :
    ∃ fuel n p, parse d (textOf (lines.map unwords) ++ beyond) (textOf (lines.map unwords)).length
        heap menu scratch fuel = some (.ok (n, p)) ∧
      Listed heap menu old (appendedOf p.events) p.heap b := by
  obtain ⟨fuel, r, result, agrees⟩ := parse_words scratch beyond regular comment lists canonical
  rw [folded] at agrees
  cases r with
  | error fault => exact agrees.elim
  | ok pair => exact ⟨fuel, pair.1, pair.2, result, agrees.1⟩

end

end Parthenope.Menu
