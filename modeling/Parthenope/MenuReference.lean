import Parthenope.MenuWords

/-! What a menu means: a fold over its lines, each a list of words. It knows no
offsets, no states and no buffers, and `fsm` is compared with it. -/
namespace Parthenope.Menu
open CString LinkedList

def colon : Byte := 58

namespace Reference

/-- The place after `root`: `tftp`, `cdrom`, or `ide` with a drive and a partition
that counts from one. -/
def root (entry : Entry) : List (List Byte) → Option Entry
  | [] => none
  | place :: rest =>
    if place = chars "tftp" then some { entry with deviceType := .tftp }
    else if place = chars "cdrom" then some { entry with deviceType := .cd }
    else if place = chars "ide" then
      match (unwords rest).dropWhile (· != colon) with
      | _ :: first :: more => some { entry with
          deviceType := .ide
          deviceNum := strtol ((unwords rest).takeWhile (· != colon))
          partition := strtol (first :: more) - 1 }
      | _ => none
    else none

/-- A line inside an entry, by its first word and the others; `none` for an unknown
or ill-formed one. -/
def directive (word : List Byte) (words : List (List Byte)) (entry : Entry) : Option Entry :=
  if word = chars "root" then root entry words
  else
    match words with
    | [] => none
    | first :: rest =>
      if word = chars "kernel" then
        some { entry with kernel := some first, append := if rest = [] then entry.append else some (unwords rest) }
      else if word = chars "other" then some { entry with other := some first }
      else if word = chars "initrd" then some { entry with initrd := some first }
      else if word = chars "dtb" then some { entry with dtb := some first }
      else if word = chars "module" then
        some { entry with modules := entry.modules ++ [⟨first, none, none⟩] }
      else none

def outside (word : List Byte) (words : List (List Byte)) (b : Book) : Book :=
  match words with
  | [] => b
  | first :: _ =>
    if word = chars "title" then
      { b with current := some { entryAlloc with title := some (unwords words) } }
    else if word = chars "default" then { b with defaultOs := strtol first }
    else if word = chars "delay" then { b with delay := strtol first }
    else b

def line (b : Book) : List (List Byte) → Book
  | [] => b
  | word :: words =>
    match b.current with
    | none => outside word words b
    | some entry =>
      if word = chars "title" then outside word words b.close
      else
        match directive word words entry with
        | none => b.discard
        | some entry => { b with current := some entry }

/-- The entries and numbers of a menu, for the numbers in the head before it. -/
def menu (numbers : Word × Word) (lines : List (List (List Byte))) : Book :=
  (lines.foldl line (.start numbers)).close

end Reference

section
variable {d : Dialect} {word : List Byte} {words rest : List (List Byte)} {b b' : Book}
  {entry : Entry} {status : Status} {l : List (List Byte × Status)}

private theorem lookup_pair (word key : List Byte) (status : Status) (l : List (List Byte × Status)) :
    ((key, status) :: l).lookup word = if word = key then some status else l.lookup word := by
  by_cases same : word = key
  · rw [if_pos same, List.lookup_cons, beq_iff_eq.mpr same]
  · rw [if_neg same, List.lookup_cons, beq_eq_false_iff_ne.mpr same]

private theorem numberLine_spaced (isWord : ∀ w ∈ words, IsWord d w) :
    numberLine (spaced words) = words.head?.map strtol := by
  cases words with
  | nil => rfl
  | cons word rest =>
    have first := isWord word List.mem_cons_self
    have text : spaced (word :: rest) ≠ [] := List.cons_ne_nil _ _
    simp only [numberLine, text, if_false, strtrim_spaced isWord, getnextword_unwords isWord,
      first.text, List.head?_cons, Option.map_some]

private theorem wordLine_spaced (store : List Byte → Entry → Entry) (isWord : ∀ w ∈ words, IsWord d w) :
    wordLine store (spaced words) entry = words.head?.map fun word => store word entry := by
  unfold wordLine
  rw [strtrim_spaced isWord]
  cases words with
  | nil => rfl
  | cons word rest =>
    have first := isWord word List.mem_cons_self
    simp only [getnextword_unwords isWord, first.text, if_false, List.head?_cons, Option.map_some]

private theorem kernelLine_spaced (isWord : ∀ w ∈ words, IsWord d w) :
    kernelLine (spaced words) entry =
      match words with
      | [] => none
      | first :: rest => some { entry with
          kernel := some first
          append := if rest = [] then entry.append else some (unwords rest) } := by
  unfold kernelLine
  rw [strtrim_spaced isWord]
  cases words with
  | nil => rfl
  | cons word rest =>
    have first := isWord word List.mem_cons_self
    have later : ∀ w ∈ rest, IsWord d w := fun w member => isWord w (List.mem_cons_of_mem _ member)
    simp only [getnextword_unwords isWord, first.text, if_false, drop_unwords, strtrim_spaced later]
    cases rest with
    | nil => rfl
    | cons other rest =>
      rw [if_pos (unwords_ne_nil later), if_neg (List.cons_ne_nil _ _)]

/-- A text up to a character and from it on, if it is there. -/
theorem strchr_span {s : List Byte} {c : Byte} (unended : nul ∉ s) :
    match strchr s c with
    | none => s.dropWhile (· != c) = []
    | some i => s.dropWhile (· != c) = c :: s.drop (i + 1) ∧ s.takeWhile (· != c) = s.take i := by
  cases found : strchr s c with
  | none =>
    rw [strchr, cstring_unended unended, List.findIdx?_eq_none_iff] at found
    rw [List.dropWhile_eq_nil_iff]
    intro b inside
    simpa using found b inside
  | some i =>
    obtain ⟨split, before, -⟩ := strchr_split found
    have clear : ∀ b ∈ s.take i, (b != c) = true := fun b inside =>
      bne_iff_ne.mpr (ne_of_mem_of_not_mem inside before)
    constructor
    · conv_lhs => rw [split]
      rw [List.dropWhile_append_of_pos clear, List.dropWhile_cons_of_neg (by simp)]
    · conv_lhs => rw [split]
      rw [List.takeWhile_append_of_pos clear, List.takeWhile_cons_of_neg (by simp), List.append_nil]

theorem rootLine_spaced (isWord : ∀ w ∈ words, IsWord d w) :
    rootLine (spaced words) entry = Reference.root entry words := by
  unfold rootLine
  rw [strtrim_spaced isWord]
  cases words with
  | nil => rfl
  | cons word rest =>
    have first := isWord word List.mem_cons_self
    have later : ∀ w ∈ rest, IsWord d w := fun w member => isWord w (List.mem_cons_of_mem _ member)
    simp only [getnextword_unwords isWord, first.text, if_false, drop_unwords, strtrim_spaced later,
      Reference.root]
    have span := strchr_span (c := colon) (unwords_plain later).unended
    rw [show (58 : Byte) = colon from rfl]
    by_cases tftp : word = chars "tftp"
    · rw [if_pos tftp, if_pos tftp]
    rw [if_neg tftp, if_neg tftp]
    by_cases cdrom : word = chars "cdrom"
    · rw [if_pos cdrom, if_pos cdrom]
    rw [if_neg cdrom, if_neg cdrom]
    by_cases ide : word = chars "ide"
    · rw [if_pos ide, if_pos ide]
      cases found : strchr (unwords rest) colon with
      | none =>
        rw [found] at span
        simp only [span]
      | some sep =>
        rw [found] at span
        obtain ⟨behind, before⟩ := span
        simp only [behind, before]
        cases (unwords rest).drop (sep + 1) with
        | nil => rfl
        | cons digit more => rw [if_neg (List.cons_ne_nil _ _)]
    · rw [if_neg ide, if_neg ide]

private theorem menuLst_outside (word : List Byte) :
    menuLst.outside.lookup word =
      if word = chars "title" then some .TIT
      else if word = chars "default" then some .DEF
      else if word = chars "delay" then some .DLY
      else none := by
  simp only [menuLst, lookup_pair, List.lookup_nil]

/-- A line outside an entry is read as the reference reads it. -/
theorem outsideLine_words (isWord : ∀ w ∈ word :: words, IsWord menuLst w) :
    b.outsideLine menuLst (unwords (word :: words)) = Reference.outside word words b := by
  have later : ∀ w ∈ words, IsWord menuLst w := fun w member => isWord w (List.mem_cons_of_mem _ member)
  unfold Book.outsideLine
  simp only [getnextword_unwords isWord, drop_unwords, menuLst_outside, strtrim_spaced later,
    numberLine_spaced later]
  cases words with
  | nil => split <;> rfl
  | cons first rest =>
    have text := unwords_ne_nil later
    unfold Reference.outside
    dsimp only
    by_cases title : word = chars "title"
    · rw [if_pos title, if_pos title]
      exact if_pos text
    rw [if_neg title, if_neg title]
    by_cases default : word = chars "default"
    · rw [if_pos default, if_pos default]
      rfl
    rw [if_neg default, if_neg default]
    by_cases delay : word = chars "delay"
    · rw [if_pos delay, if_pos delay]
      rfl
    rw [if_neg delay, if_neg delay]

/-- The directive of a known word is the reference's. -/
theorem directive_words (isWord : ∀ w ∈ word :: words, IsWord menuLst w)
    (known : menuLst.inside.lookup word = some status) :
    directive status (spaced words) entry = Reference.directive word words entry := by
  have later : ∀ w ∈ words, IsWord menuLst w := fun w member => isWord w (List.mem_cons_of_mem _ member)
  have member := lookup_mem known
  simp only [menuLst, List.mem_cons, Prod.mk.injEq, List.not_mem_nil, or_false] at member
  rcases member with ⟨rfl, rfl⟩ | ⟨rfl, rfl⟩ | ⟨rfl, rfl⟩ | ⟨rfl, rfl⟩ | ⟨rfl, rfl⟩ | ⟨rfl, rfl⟩
  · rw [directive, kernelLine_spaced later]
    cases words <;> rfl
  · rw [directive, otherLine, wordLine_spaced _ later]
    cases words <;> rfl
  · exact rootLine_spaced later
  · rw [directive, initrdLine, wordLine_spaced _ later]
    cases words <;> rfl
  · rw [directive, dtbLine, wordLine_spaced _ later]
    cases words <;> rfl
  · rw [directive, moduleLine, wordLine_spaced _ later]
    cases words <;> rfl

private theorem directive_unknown (unknown : menuLst.inside.lookup word = none) :
    Reference.directive word words entry = none := by
  have other (key : List Byte) (status : Status) (pair : (key, status) ∈ menuLst.inside) :
      word ≠ key := by
    rintro rfl
    exact absurd (List.lookup_eq_none_iff.mp unknown _ pair) (by simp)
  unfold Reference.directive
  rw [if_neg (other _ .RT (by decide))]
  cases words with
  | nil => rfl
  | cons first rest =>
    dsimp only
    rw [if_neg (other _ .K (by decide)), if_neg (other _ .O (by decide)),
      if_neg (other _ .RD (by decide)), if_neg (other _ .DTB (by decide)),
      if_neg (other _ .M (by decide))]

/-- A line is taken as the reference takes it, or does not fit. -/
theorem heeds_words (isWord : ∀ w ∈ words, IsWord menuLst w)
    (taken : heeds menuLst b (unwords words) = .ok b') : b' = Reference.line b words := by
  unfold heeds takeLine at taken
  cases words with
  | nil =>
    rw [unwords, if_pos rfl] at taken
    exact (Except.ok.inj taken).symm
  | cons word rest =>
    have first := getnextword_unwords isWord
    rw [if_neg (unwords_ne_nil isWord)] at taken
    unfold Reference.line
    cases current : b.current with
    | none =>
      simp only [current, outsideLine_words isWord] at taken
      exact (Except.ok.inj taken).symm
    | some entry =>
      simp only [current] at taken
      cases known : menuLst.inside.lookup word with
      | none =>
        by_cases title : word = chars "title"
        · have closes : menuLst.closes (unwords (word :: rest)) = true := by
            rw [Dialect.closes, first, known, Option.isNone_none, Bool.true_and]
            exact beq_iff_eq.mpr title
          rw [if_pos closes, outsideLine_words isWord] at taken
          rw [← Except.ok.inj taken]
          exact (if_pos title).symm
        · have stays : ¬ menuLst.closes (unwords (word :: rest)) = true := by
            rw [Dialect.closes, first, Bool.and_eq_true, beq_iff_eq]
            exact fun both => title both.2
          rw [if_neg stays, Book.insideLine_unknown (first.symm ▸ known : menuLst.inside.lookup _ = none)] at taken
          rw [← Except.ok.inj taken]
          dsimp only
          rw [if_neg title, directive_unknown known]
      | some status =>
        have other : word ≠ chars "title" := by
          rintro rfl
          exact absurd (menuLst_regular.apart.symm.trans known) (Option.some_ne_none _).symm
        have stays : ¬ menuLst.closes (unwords (word :: rest)) = true := by
          rw [Dialect.closes, first, Bool.and_eq_true, beq_iff_eq]
          exact fun both => other both.2
        have known' : menuLst.inside.lookup (getnextword (unwords (word :: rest))) = some status :=
          first.symm ▸ known
        rw [if_neg stays, Book.insideLine_known known', first, drop_unwords,
          directive_words isWord known] at taken
        dsimp only
        rw [if_neg other]
        cases directed : Reference.directive word rest entry with
        | none =>
          rw [directed] at taken
          exact (Except.ok.inj taken).symm
        | some entry' =>
          rw [directed] at taken
          dsimp only at taken
          split at taken
          · cases taken
          · exact (Except.ok.inj taken).symm

theorem foldLines_words {lines : List (List (List Byte))} (canonical : Canonical menuLst lines)
    (folded : foldLines (heeds menuLst) (lines.map unwords) b = .ok b') :
    b' = (lines.foldl Reference.line b).close := by
  induction lines generalizing b with
  | nil => exact (Except.ok.inj folded).symm
  | cons words rest ih =>
    rw [List.map_cons, foldLines] at folded
    cases taken : heeds menuLst b (unwords words) with
    | error fault => rw [taken] at folded; cases folded
    | ok next =>
      rw [taken] at folded
      have same := heeds_words (canonical words List.mem_cons_self) taken
      rw [List.foldl_cons, ← same]
      exact ih (fun words member => canonical words (List.mem_cons_of_mem _ member)) folded

end

/-- What the parser leaves: a menu list with the entries of a book at its end, and
the numbers of the book in the head. -/
structure Holds (heap : Heap) (menu : Addr) (old : List Addr) (b : Book) (p : Parser) : Prop where
  listed : Spells p.heap.link menu (old ++ appendedOf p.events)
  kept : ∀ a ∈ old, (p.heap.cells a).map Node.entry = (heap.cells a).map Node.entry
  added : (appendedOf p.events).map (fun a => (p.heap.cells a).map Node.entry) = b.added.map some
  numbers : p.heap.numbers menu = (b.defaultOs, b.delay)

theorem Listed.holds {heap : Heap} {menu : Addr} {old : List Addr} {b : Book} {p : Parser}
    (listed : Listed heap menu old (appendedOf p.events) p.heap b) : Holds heap menu old b p := by
  refine ⟨listed.spelled, listed.kept, listed.added, ?_⟩
  obtain ⟨node, present, defaultOs, delay⟩ := listed.numbers
  simp only [Heap.numbers, present, defaultOs, delay]

/-- `fsm` reads a canonical text as the reference does, whatever lies behind it. -/
theorem fsm_reads_menu {lines : List (List (List Byte))} {heap : Heap} {menu : Addr} {old : List Addr}
    (scratch : Word × Word) (beyond : List Byte) (lists : heap.Lists menu old)
    (canonical : Canonical menuLst lines) (fit : Fits menuLst (lines.map unwords)) :
    ∃ fuel n p, fsm (textOf (lines.map unwords) ++ beyond) (textOf (lines.map unwords)).length heap
        menu scratch fuel = some (.ok (n, p)) ∧
      Holds heap menu old (Reference.menu (heap.numbers menu) lines) p := by
  obtain ⟨b, folded⟩ := foldLines_fits menuLst_regular (by decide) canonical fit (heap.numbers menu)
  obtain ⟨fuel, n, p, result, listed⟩ :=
    parse_fits scratch beyond menuLst_regular (by decide) lists canonical folded
  rw [foldLines_words canonical folded] at listed
  exact ⟨fuel, n, p, result, listed.holds⟩

def bootLines : List (List (List Byte)) :=
  [[chars "default", chars "1"], [], [chars "title", chars "a", chars "b"],
    [chars "kernel", chars "k", chars "x", chars "y"], [chars "module", chars "m"],
    [chars "title", chars "c"], [chars "root", chars "ide", chars "0:2"], [chars "other", chars "o"]]

theorem bootLines_read :
    ∃ fuel n p, fsm (textOf (bootLines.map unwords) ++ [104]) (textOf (bootLines.map unwords)).length
        headOnly 0 (0, 0) fuel = some (.ok (n, p)) ∧
      Holds headOnly 0 [0] (Reference.menu (headOnly.numbers 0) bootLines) p :=
  fsm_reads_menu (0, 0) [104] headOnly_lists (canonical_of_letters (by decide))
    (fits_short (by decide))

end Parthenope.Menu
