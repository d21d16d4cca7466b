import Parthenope.MenuReference

/-! `kick_fsm` and `fsm` are one parser for two languages: a `Kicklayout` in the
words of `menu.lst` is read as the `Kicklayout` itself. -/
namespace Parthenope.Menu
open CString

/-- A keyword of `Kicklayout` in the words of `menu.lst`. -/
def translateWord (word : List Byte) : List Byte :=
  if word = chars "LABEL" then chars "title"
  else if word = chars "EXEC" then chars "kernel"
  else if word = chars "MODULE" then chars "module"
  else word

/-- Only the first word of a line is a keyword. -/
def translate : List (List Byte) → List (List Byte)
  | [] => []
  | word :: words => translateWord word :: words

/-- No keyword of either language. -/
structure Foreign (word : List Byte) : Prop where
  outside : menuLst.outside.lookup word = none
  inside : menuLst.inside.lookup word = none
  kickOutside : kicklayout.outside.lookup word = none
  kickInside : kicklayout.inside.lookup word = none

/-- A line that begins with a keyword of `Kicklayout` or with a foreign word. -/
def Translates : List (List Byte) → Prop
  | [] => True
  | word :: _ =>
    word = chars "LABEL" ∨ word = chars "EXEC" ∨ word = chars "MODULE" ∨ Foreign word

section
variable {d d' : Dialect} {word : List Byte} {words : List (List Byte)} {line line' : List Byte}
  {lines : List (List (List Byte))} {b : Book} {entry : Entry} {heap : Heap} {menu : Addr}
  {old : List Addr}

/-- Two keywords that mean the same. -/
structure SameWord (d d' : Dialect) (word word' : List Byte) : Prop where
  outside : d.outside.lookup word = d'.outside.lookup word'
  inside : d.inside.lookup word = d'.inside.lookup word'
  title : word = d.title ↔ word' = d'.title

private theorem translateWord_same (known : Translates (word :: words)) :
    SameWord kicklayout menuLst word (translateWord word) := by
  rcases known with rfl | rfl | rfl | foreign
  · exact ⟨by decide, by decide, by decide⟩
  · exact ⟨by decide, by decide, by decide⟩
  · exact ⟨by decide, by decide, by decide⟩
  · have other (key : List Byte) (kept : menuLst.outside.lookup key ≠ none ∨
        kicklayout.outside.lookup key ≠ none ∨ kicklayout.inside.lookup key ≠ none) : word ≠ key := by
      rintro rfl
      rcases kept with kept | kept | kept
      · exact kept foreign.outside
      · exact kept foreign.kickOutside
      · exact kept foreign.kickInside
    have same : translateWord word = word := by
      unfold translateWord
      rw [if_neg (other _ (by decide)), if_neg (other _ (by decide)), if_neg (other _ (by decide))]
    rw [same]
    refine ⟨foreign.kickOutside.trans foreign.outside.symm,
      foreign.kickInside.trans foreign.inside.symm, ?_⟩
    exact ⟨fun label => absurd label (other _ (by decide)),
      fun title => absurd title (other _ (by decide))⟩

/-- Two lines with keywords that mean the same and the same text behind them are
heeded alike. -/
theorem heeds_same (same : SameWord d d' (getnextword line) (getnextword line'))
    (text : line.drop (getnextword line).length = line'.drop (getnextword line').length)
    (ink : line ≠ []) (ink' : line' ≠ []) : heeds d b line = heeds d' b line' := by
  have outside (b : Book) : b.outsideLine d line = b.outsideLine d' line' := by
    unfold Book.outsideLine
    dsimp only
    rw [same.outside, text]
  have inside (entry : Entry) : b.insideLine d line entry = b.insideLine d' line' entry := by
    unfold Book.insideLine
    dsimp only
    rw [same.inside, text]
  have closes : d.closes line = d'.closes line' := by
    unfold Dialect.closes
    rw [same.inside]
    congr 1
    rw [Bool.eq_iff_iff, beq_iff_eq, beq_iff_eq]
    exact same.title
  unfold heeds takeLine
  rw [if_neg ink, if_neg ink', closes, outside, outside]
  cases b.current with
  | none => rfl
  | some entry =>
    dsimp only
    rw [inside]

private theorem translateWord_isWord (isWord : IsWord menuLst word) : IsWord menuLst (translateWord word) := by
  have keyword {key : List Byte} (text : key ≠ [])
      (letters : (key.all fun c => !isspace c && c != nul && c != menuLst.comment) = true) :
      IsWord menuLst key := by
    apply isWord_of_letters text
    intro c inside
    simpa [and_assoc] using List.all_eq_true.mp letters c inside
  unfold translateWord
  split
  · exact keyword (by decide) (by decide)
  · split
    · exact keyword (by decide) (by decide)
    · split
      · exact keyword (by decide) (by decide)
      · exact isWord

private theorem translate_canonical (canonical : Canonical menuLst lines) :
    Canonical menuLst (lines.map translate) := by
  intro words inside
  obtain ⟨source, member, rfl⟩ := List.mem_map.mp inside
  have isWord := canonical source member
  cases source with
  | nil => exact isWord
  | cons word rest =>
    intro w inTranslation
    rcases List.mem_cons.mp inTranslation with rfl | later
    · exact translateWord_isWord (isWord word List.mem_cons_self)
    · exact isWord w (List.mem_cons_of_mem _ later)

private theorem heeds_translate (isWord : ∀ w ∈ words, IsWord kicklayout w)
    (isWord' : ∀ w ∈ translate words, IsWord menuLst w) (known : Translates words) :
    heeds kicklayout b (unwords words) = heeds menuLst b (unwords (translate words)) := by
  cases words with
  | nil => rw [unwords, translate, unwords, heeds_blank, heeds_blank]
  | cons word rest =>
    apply heeds_same
    · rw [getnextword_unwords isWord, translate, getnextword_unwords isWord']
      exact translateWord_same known
    · rw [getnextword_unwords isWord, translate, getnextword_unwords isWord', drop_unwords, drop_unwords]
    · exact unwords_ne_nil isWord
    · exact unwords_ne_nil isWord'

private theorem foldLines_translate (canonical : Canonical kicklayout lines)
    (canonical' : Canonical menuLst (lines.map translate)) (known : ∀ words ∈ lines, Translates words) :
    foldLines (heeds kicklayout) (lines.map unwords) b =
      foldLines (heeds menuLst) ((lines.map translate).map unwords) b := by
  induction lines generalizing b with
  | nil => simp only [List.map_nil, foldLines]
  | cons words rest ih =>
    have first := heeds_translate (b := b) (canonical words List.mem_cons_self)
      (canonical' _ List.mem_cons_self) (known words List.mem_cons_self)
    rw [List.map_cons, List.map_cons, List.map_cons, foldLines, foldLines, first]
    cases heeds menuLst b (unwords (translate words)) with
    | error fault => rfl
    | ok b' =>
      exact ih (fun words member => canonical words (List.mem_cons_of_mem _ member))
        (fun words member => canonical' words (List.mem_cons_of_mem _ member))
        (fun words member => known words (List.mem_cons_of_mem _ member))

/-- `kick_fsm` adds the entries that `fsm` adds for the translated text. -/
theorem kickFsm_reads_as_fsm (scratch scratch' : Word × Word) (beyond beyond' : List Byte)
    (lists : heap.Lists menu old) (canonical : Canonical menuLst lines)
    (kickCanonical : Canonical kicklayout lines) (known : ∀ words ∈ lines, Translates words)
    (fit : Fits kicklayout (lines.map unwords)) :
    ∃ fuel n p fuel' n' p',
      kickFsm (textOf (lines.map unwords) ++ beyond) (textOf (lines.map unwords)).length heap menu
        scratch fuel = some (.ok (n, p)) ∧
      fsm (textOf ((lines.map translate).map unwords) ++ beyond')
        (textOf ((lines.map translate).map unwords)).length heap menu scratch' fuel' =
          some (.ok (n', p')) ∧
      (appendedOf p.events).map (fun a => (p.heap.cells a).map Node.entry) =
        (appendedOf p'.events).map fun a => (p'.heap.cells a).map Node.entry := by
  obtain ⟨b, folded⟩ := foldLines_fits kicklayout_regular (by decide) kickCanonical fit (heap.numbers menu)
  have translated := translate_canonical canonical
  have folded' := folded
  rw [foldLines_translate kickCanonical translated known] at folded'
  obtain ⟨fuel, n, p, result, listed⟩ :=
    parse_fits scratch beyond kicklayout_regular (by decide) lists kickCanonical folded
  obtain ⟨fuel', n', p', result', listed'⟩ :=
    parse_fits scratch' beyond' menuLst_regular (by decide) lists translated folded'
  exact ⟨fuel, n, p, fuel', n', p', result, result', listed.added.trans listed'.added.symm⟩

end

def kickLines : List (List (List Byte)) :=
  [[chars "LABEL", chars "a", chars "b"], [chars "EXEC", chars "k", chars "x"], [],
    [chars "MODULE", chars "m"], [chars "LABEL", chars "c"], [chars "PRI", chars "5"]]

private theorem kickLines_known : ∀ words ∈ kickLines, Translates words := by
  intro words inside
  simp only [kickLines, List.mem_cons, List.not_mem_nil, or_false] at inside
  rcases inside with rfl | rfl | rfl | rfl | rfl | rfl
  · exact .inl rfl
  · exact .inr (.inl rfl)
  · trivial
  · exact .inr (.inr (.inl rfl))
  · exact .inl rfl
  · exact .inr (.inr (.inr ⟨by decide, by decide, by decide, by decide⟩))

theorem kickLines_read :
    ∃ fuel n p fuel' n' p',
      kickFsm (textOf (kickLines.map unwords) ++ []) (textOf (kickLines.map unwords)).length headOnly 0
        (0, 0) fuel = some (.ok (n, p)) ∧
      fsm (textOf ((kickLines.map translate).map unwords) ++ [104])
        (textOf ((kickLines.map translate).map unwords)).length headOnly 0 (0, 0) fuel' =
          some (.ok (n', p')) ∧
      (appendedOf p.events).map (fun a => (p.heap.cells a).map Node.entry) =
        (appendedOf p'.events).map fun a => (p'.heap.cells a).map Node.entry :=
  kickFsm_reads_as_fsm (0, 0) (0, 0) [] [104] headOnly_lists (canonical_of_letters (by decide))
    (canonical_of_letters (by decide)) kickLines_known (fits_short (by decide))

end Parthenope.Menu
