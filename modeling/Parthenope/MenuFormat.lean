import Parthenope.MenuList
import Parthenope.MenuText

/-! Whether comments, blanks and carriage returns matter. They are cleaned away
from every line, but a line that closes an entry is pushed back by its cleaned
length, and what is read the second time need not be that line. -/
namespace Parthenope.Menu
open CString StepLoop

/-- What a parser should make of a cleaned line. -/
def heeds (d : Dialect) (b : Book) (line : List Byte) : Except Fault Book := takeLine d line line b

/-- Every line that closes an entry ends in its cleaned text. -/
def closesCleanly (d : Dialect) : List (List Byte) → Book → Bool
  | [], _ => true
  | body :: rest, b =>
    (b.current.isNone || !d.closes (d.clean body) || (d.clean body).isSuffixOf body) &&
      match heeds d b (d.clean body) with
      | .error _ => true
      | .ok b => closesCleanly d rest b

/-- The entries a run has added and the numbers in the head, or its fault. -/
def outcome (menu : Addr) : Except Fault (Nat × Parser) →
    Except Fault (List (Option Entry) × Word × Word)
  | .ok (_, p) =>
    .ok ((appendedOf p.events).map fun a => (p.heap.cells a).map Node.entry, p.heap.numbers menu)
  | .error fault => .error fault

section
variable {d : Dialect} {body line : List Byte} {bodies bodies' : List (List Byte)} {b : Book}
  {heap : Heap} {menu : Addr} {old : List Addr} {r : Except Fault (Nat × Parser)}
  {k : Except Fault Book}

/-- Cleaning a line twice is cleaning it once. -/
theorem Dialect.clean_clean (d : Dialect) (unended : nul ∉ body) :
    d.clean (d.clean body) = d.clean body := by
  have part : d.clean body <:+: body.takeWhile (· != d.comment) := by
    unfold Dialect.clean
    rw [eatcomments_takeWhile unended]
    exact strtrim_within _
  have clear : ∀ c ∈ d.clean body, (c != d.comment) = true := by
    intro c inside
    have kept := List.mem_takeWhile_imp (part.subset inside)
    exact kept
  have unended' : nul ∉ d.clean body :=
    fun inside => unended ((d.clean_infix body).subset inside)
  have kept : eatcomments d.comment (d.clean body) = d.clean body := by
    rw [eatcomments_takeWhile unended', List.takeWhile_eq_self_iff.mpr clear]
  rw [Dialect.clean, kept]
  exact (strtrim_trimmed _).strtrim

/-- A line is read again as it was if and only if it ends in its cleaned text. -/
theorem again_same (plain : Plain body) :
    again d body = d.clean body ↔ d.clean body <:+ body := by
  constructor
  · intro same
    have whole : again d body = body.drop (body.length - (d.clean body).length) := by
      apply (d.clean_infix _).eq_of_length
      change (again d body).length = _
      rw [same, List.length_drop, Nat.sub_sub_self (d.clean_length body)]
    rw [← same, whole]
    exact List.drop_suffix _ _
  · intro suffix
    rw [again, ← List.suffix_iff_eq_drop.mp suffix]
    exact d.clean_clean plain.unended

/-- A line that ends in its cleaned text where it closes an entry is taken as it should be. -/
theorem meets_heeds (plain : Plain body)
    (clean : (b.current.isNone || !d.closes (d.clean body) || (d.clean body).isSuffixOf body) = true) :
    meets d b body = heeds d b (d.clean body) := by
  unfold meets heeds takeLine
  by_cases blank : d.clean body = []
  · rw [if_pos blank, if_pos blank]
  · rw [if_neg blank, if_neg blank]
    cases current : b.current with
    | none => rfl
    | some entry =>
      dsimp only
      by_cases closes : d.closes (d.clean body) = true
      · rw [current, closes] at clean
        have suffix : d.clean body <:+ body := List.isSuffixOf_iff_suffix.mp clean
        rw [if_pos closes, if_pos closes, (again_same plain).mpr suffix]
      · rw [if_neg closes, if_neg closes]

theorem foldLines_clean (plain : ∀ body ∈ bodies, Plain body)
    (clean : closesCleanly d bodies b = true) :
    foldLines (meets d) bodies b = foldLines (heeds d) (bodies.map d.clean) b := by
  induction bodies generalizing b with
  | nil => rfl
  | cons body rest ih =>
    simp only [closesCleanly, Bool.and_eq_true] at clean
    rw [List.map_cons, foldLines, foldLines, meets_heeds (plain body List.mem_cons_self) clean.1]
    cases met : heeds d b (d.clean body) with
    | error fault => rfl
    | ok b' =>
      have tail := clean.2
      rw [met] at tail
      exact ih (fun body inside => plain body (List.mem_cons_of_mem _ inside)) tail

theorem heeds_blank : heeds d b [] = .ok b := by
  unfold heeds takeLine
  exact if_pos rfl

/-- Empty lines do nothing. -/
theorem foldLines_filter (lines : List (List Byte)) :
    foldLines (heeds d) lines b = foldLines (heeds d) (lines.filter (· ≠ [])) b := by
  induction lines generalizing b with
  | nil => rfl
  | cons line rest ih =>
    by_cases blank : line = []
    · subst blank
      rw [foldLines, heeds_blank, List.filter_cons_of_neg (by simp)]
      exact ih
    · rw [List.filter_cons_of_pos (by simpa using blank), foldLines, foldLines]
      cases heeds d b line with
      | error fault => rfl
      | ok b' => exact ih

/-- The list and the numbers of a book are those of the run it follows. -/
theorem Agrees.outcome (agrees : Agrees heap menu old r k) :
    outcome menu r = k.map fun b => (b.added.map some, b.defaultOs, b.delay) := by
  cases r with
  | error fault =>
    cases k with
    | error fault' => exact congrArg Except.error agrees
    | ok b => exact agrees.elim
  | ok pair =>
    cases k with
    | error fault' => exact agrees.elim
    | ok b =>
      obtain ⟨n, p⟩ := pair
      obtain ⟨node, present, defaultOs, delay⟩ := agrees.1.numbers
      simp only [Menu.outcome, Except.map, Heap.numbers, present, agrees.1.added, defaultOs, delay]

end

/-- Two runs end, with the same entries added and the same numbers set, or in the
same fault. -/
def SameOutcome (menu menu' : Addr) (parse parse' : Nat → Option (Except Fault (Nat × Parser))) : Prop :=
  ∃ fuel r fuel' r', parse fuel = some r ∧ parse' fuel' = some r' ∧ outcome menu r = outcome menu' r'

section
variable {d : Dialect} {bodies bodies' : List (List Byte)} {beyond beyond' : List Byte}
  {heap heap' : Heap} {menu menu' : Addr} {old old' : List Addr} {b : Book}

/-- The parser on a text of whole lines, whatever lies behind it in memory. -/
theorem parse_text (scratch : Word × Word) (regular : d.Regular) (lists : heap.Lists menu old)
    (plain : ∀ body ∈ bodies, Plain body) (beyond : List Byte) :
    ∃ fuel r, parse d (textOf bodies ++ beyond) (textOf bodies).length heap menu scratch fuel = some r ∧
      Agrees heap menu old r (foldLines (meets d) bodies (.start (heap.numbers menu))) := by
  obtain ⟨n, runs⟩ := reader_reads (textOf bodies ++ beyond) (q := ⟨0, .start (heap.numbers menu)⟩)
    regular plain rfl (Nat.zero_add _)
  exact parse_follows scratch regular lists runs

private theorem parse_ignores_format (scratch scratch' : Word × Word) (regular : d.Regular)
    (lists : heap.Lists menu old) (lists' : heap'.Lists menu' old')
    (heads : heap.numbers menu = heap'.numbers menu')
    (plain : ∀ body ∈ bodies, Plain body) (plain' : ∀ body ∈ bodies', Plain body)
    (same : (bodies.map d.clean).filter (· ≠ []) = (bodies'.map d.clean).filter (· ≠ []))
    (clean : closesCleanly d bodies (.start (heap.numbers menu)) = true)
    (clean' : closesCleanly d bodies' (.start (heap'.numbers menu')) = true) :
    SameOutcome menu menu'
      (parse d (textOf bodies ++ beyond) (textOf bodies).length heap menu scratch)
      (parse d (textOf bodies' ++ beyond') (textOf bodies').length heap' menu' scratch') := by
  obtain ⟨fuel, r, result, agrees⟩ := parse_text scratch regular lists plain beyond
  obtain ⟨fuel', r', result', agrees'⟩ := parse_text scratch' regular lists' plain' beyond'
  refine ⟨fuel, r, fuel', r', result, result', ?_⟩
  rw [agrees.outcome, agrees'.outcome, foldLines_clean plain clean, foldLines_clean plain' clean',
    foldLines_filter, foldLines_filter (bodies'.map d.clean), same, heads]

/-- Both parsers make the same of two texts with the same cleaned lines, as long as
every line that closes an entry ends in its cleaned text. -/
theorem parsers_ignore_format (scratch scratch' : Word × Word) (beyond beyond' : List Byte)
    (lists : heap.Lists menu old) (lists' : heap'.Lists menu' old')
    (heads : heap.numbers menu = heap'.numbers menu')
    (plain : ∀ body ∈ bodies, Plain body) (plain' : ∀ body ∈ bodies', Plain body) :
    ((bodies.map menuLst.clean).filter (· ≠ []) = (bodies'.map menuLst.clean).filter (· ≠ []) →
      closesCleanly menuLst bodies (.start (heap.numbers menu)) = true →
      closesCleanly menuLst bodies' (.start (heap'.numbers menu')) = true →
      SameOutcome menu menu'
        (fsm (textOf bodies ++ beyond) (textOf bodies).length heap menu scratch)
        (fsm (textOf bodies' ++ beyond') (textOf bodies').length heap' menu' scratch')) ∧
    ((bodies.map kicklayout.clean).filter (· ≠ []) = (bodies'.map kicklayout.clean).filter (· ≠ []) →
      closesCleanly kicklayout bodies (.start (heap.numbers menu)) = true →
      closesCleanly kicklayout bodies' (.start (heap'.numbers menu')) = true →
      SameOutcome menu menu'
        (kickFsm (textOf bodies ++ beyond) (textOf bodies).length heap menu scratch)
        (kickFsm (textOf bodies' ++ beyond') (textOf bodies').length heap' menu' scratch')) :=
  ⟨parse_ignores_format scratch scratch' menuLst_regular lists lists' heads plain plain',
    parse_ignores_format scratch scratch' kicklayout_regular lists lists' heads plain plain'⟩

end

def twoTitles : List (List Byte) := [chars "title a", chars "kernel k", chars "title b", chars "kernel k"]

def twoTitlesCommented : List (List Byte) :=
  [chars "title a # first", [], chars "  kernel k", chars "  title b", chars "kernel k # last"]

def twoTitlesBlank : List (List Byte) :=
  [chars "title a", chars "kernel k", chars "title b ", chars "kernel k"]

def twoLabels : List (List Byte) := [chars "LABEL a", chars "EXEC k", chars "LABEL b", chars "EXEC k"]

def twoLabelsCommented : List (List Byte) :=
  [chars "LABEL a ; first", [], chars "  EXEC k", chars "  LABEL b", chars "EXEC k ; last"]

def twoLabelsBlank : List (List Byte) :=
  [chars "LABEL a", chars "EXEC k", chars "LABEL b ", chars "EXEC k"]

theorem plain_of_forall {bodies : List (List Byte)}
    (characters : (bodies.all fun body => body.all fun c => c != newline && c != nul) = true) :
    ∀ body ∈ bodies, Plain body := by
  intro body inside
  have clear := List.all_eq_true.mp (List.all_eq_true.mp characters body inside)
  constructor
  · intro member
    simpa using clear _ member
  · intro member
    simpa using clear _ member

theorem commented_entries_same :
    SameOutcome 0 0 (fsm (textOf twoTitles ++ []) (textOf twoTitles).length headOnly 0 (0, 0))
      (fsm (textOf twoTitlesCommented ++ []) (textOf twoTitlesCommented).length headOnly 0 (0, 0)) ∧
    SameOutcome 0 0 (kickFsm (textOf twoLabels ++ []) (textOf twoLabels).length headOnly 0 (0, 0))
      (kickFsm (textOf twoLabelsCommented ++ []) (textOf twoLabelsCommented).length headOnly 0 (0, 0)) :=
  ⟨(parsers_ignore_format (0, 0) (0, 0) [] [] headOnly_lists headOnly_lists rfl
      (plain_of_forall (by decide)) (plain_of_forall (by decide))).1
      (by decide) (by decide) (by decide),
    (parsers_ignore_format (0, 0) (0, 0) [] [] headOnly_lists headOnly_lists rfl
      (plain_of_forall (by decide)) (plain_of_forall (by decide))).2
      (by decide) (by decide) (by decide)⟩

/-- The entries in a book, if there is a book. -/
def addedOf : Except Fault Book → Option (List Entry)
  | .ok b => some b.added
  | .error _ => none

private theorem addedOf_same {r r' : Except Fault Book}
    (same : r.map (fun b => (b.added.map some, b.defaultOs, b.delay)) =
      r'.map fun b => (b.added.map some, b.defaultOs, b.delay)) : addedOf r = addedOf r' := by
  cases r with
  | error fault =>
    cases r' with
    | error fault' => rfl
    | ok b' => cases same
  | ok b =>
    cases r' with
    | error fault' => cases same
    | ok b' =>
      have entries := congrArg Prod.fst (Except.ok.inj same)
      exact congrArg some (List.map_injective_iff.mpr (Option.some_injective _) entries)

/-- Readers that add different entries belong to parsers with different outcomes. -/
theorem different_entries {d : Dialect} {src src' : List Byte} {srcLen srcLen' n n' : Nat}
    {r r' : Except Fault Book} (regular : d.Regular)
    (runs : run (Reader.step d src srcLen) n ⟨0, .start (headOnly.numbers 0)⟩ = some r)
    (runs' : run (Reader.step d src' srcLen') n' ⟨0, .start (headOnly.numbers 0)⟩ = some r')
    (differ : addedOf r ≠ addedOf r') :
    ¬ SameOutcome 0 0 (parse d src srcLen headOnly 0 (0, 0)) (parse d src' srcLen' headOnly 0 (0, 0)) := by
  rintro ⟨fuel, k, fuel', k', result, result', same⟩
  obtain ⟨m, l, ran, agrees⟩ := parse_follows (0, 0) regular headOnly_lists runs
  obtain ⟨m', l', ran', agrees'⟩ := parse_follows (0, 0) regular headOnly_lists runs'
  cases run_unique result ran
  cases run_unique result' ran'
  rw [agrees.outcome, agrees'.outcome] at same
  exact differ (addedOf_same same)

theorem different_texts {d : Dialect} {bodies bodies' : List (List Byte)} (regular : d.Regular)
    (plain : ∀ body ∈ bodies, Plain body) (plain' : ∀ body ∈ bodies', Plain body)
    (differ : addedOf (foldLines (meets d) bodies (.start (headOnly.numbers 0))) ≠
      addedOf (foldLines (meets d) bodies' (.start (headOnly.numbers 0)))) :
    ¬ SameOutcome 0 0 (parse d (textOf bodies ++ []) (textOf bodies).length headOnly 0 (0, 0))
      (parse d (textOf bodies' ++ []) (textOf bodies').length headOnly 0 (0, 0)) := by
  obtain ⟨n, runs⟩ := reader_reads (textOf bodies ++ []) (q := ⟨0, .start (headOnly.numbers 0)⟩)
    regular plain rfl (Nat.zero_add _)
  obtain ⟨n', runs'⟩ := reader_reads (textOf bodies' ++ []) (q := ⟨0, .start (headOnly.numbers 0)⟩)
    regular plain' rfl (Nat.zero_add _)
  exact different_entries regular runs runs' differ

/-- A blank behind a title makes the second entry disappear, in both parsers. -/
theorem blank_drops_entry :
    ((twoTitles.map menuLst.clean).filter (· ≠ []) = (twoTitlesBlank.map menuLst.clean).filter (· ≠ []) ∧
      ¬ SameOutcome 0 0 (fsm (textOf twoTitles ++ []) (textOf twoTitles).length headOnly 0 (0, 0))
        (fsm (textOf twoTitlesBlank ++ []) (textOf twoTitlesBlank).length headOnly 0 (0, 0))) ∧
    ((twoLabels.map kicklayout.clean).filter (· ≠ []) =
        (twoLabelsBlank.map kicklayout.clean).filter (· ≠ []) ∧
      ¬ SameOutcome 0 0 (kickFsm (textOf twoLabels ++ []) (textOf twoLabels).length headOnly 0 (0, 0))
        (kickFsm (textOf twoLabelsBlank ++ []) (textOf twoLabelsBlank).length headOnly 0 (0, 0))) :=
  ⟨⟨by decide, different_texts menuLst_regular (plain_of_forall (by decide))
      (plain_of_forall (by decide)) (by decide)⟩,
    ⟨by decide, different_texts kicklayout_regular (plain_of_forall (by decide))
      (plain_of_forall (by decide)) (by decide)⟩⟩

end Parthenope.Menu
