import Parthenope.MenuBlanks
import Parthenope.MenuCount

/-! Two texts that differ in one run of blanks. The readers of both go through the same
lines in front of the run and behind it, at offsets that differ by the length of the run,
and come to the line with the run in the same book. -/
namespace Parthenope.Menu
open CString LinkedList StepLoop

/-- What is left of a line, and how far the offset goes over it. -/
def lineEnd (back : List Byte) (left : Nat) : List Byte × Nat :=
  match strchr back newline with
  | some i => (back.take (i + 1), i + 1)
  | none => (cstring (back.take left), left)

/-- A place in a text where a run of blanks may stand: the lines before it, the white space
that begins its line, the line from there to the run and all that is behind the run. The
text ends `left` bytes behind the run. -/
structure Spot where
  before : List Byte
  lead : List Byte
  opening : List Byte
  back : List Byte
  left : Nat

namespace Spot

def src (s : Spot) (run : List Byte) : List Byte := s.before ++ (s.lead ++ (s.opening ++ (run ++ s.back)))

/-- The offset of the first word of the line. -/
def first (s : Spot) : Nat := s.before.length + s.lead.length

/-- The offset behind the run. -/
def behind (s : Spot) (run : List Byte) : Nat := s.first + s.opening.length + run.length

def srcLen (s : Spot) (run : List Byte) : Nat := s.behind run + s.left

/-- The line with the run, cleaned. -/
def line (s : Spot) (d : Dialect) (run : List Byte) : List Byte :=
  strtrim (s.opening ++ (run ++ (lineEnd s.back s.left).1.takeWhile (· != d.comment)))

/-- The line with the run is met while an entry is read, and closes it. -/
def Closes (s : Spot) (d : Dialect) (run : List Byte) (numbers : Word × Word) : Prop :=
  d.closes (s.line d run) = true ∧
    ∃ q, Reaches (Reader.step d (s.src run) (s.srcLen run)) ⟨0, .start numbers⟩ q ∧
      s.before.length ≤ q.offset ∧ q.offset ≤ s.first ∧ q.book.current ≠ none

/-- Nothing but its newline is behind what cleaning leaves of the line with the run. -/
def EndsClean (s : Spot) (d : Dialect) (run : List Byte) : Prop :=
  s.behind run + (lineEnd s.back s.left).2 ≤ s.first + ((s.line d run).length + 1)

/-- A line begins behind what is before, and the run stands behind its keyword or its first
argument. -/
structure Valid (s : Spot) (d : Dialect) : Prop where
  lines : s.before = [] ∨ s.before.getLast? = some newline
  unended : nul ∉ s.before
  lead : ∀ c ∈ s.lead, isspace c = true ∧ c ≠ newline
  opening : Opening d s.opening

end Spot

section
variable {d : Dialect} {src src' u back raw line line' : List Byte} {srcLen srcLen' offset left after after' : Nat}
  {q q' t t' : Reader}

private theorem strchr_skip (plain : ∀ c ∈ u, c ≠ newline ∧ c ≠ nul) (back : List Byte) :
    strchr (u ++ back) newline = (strchr back newline).map (u.length + ·) := by
  have string : cstring (u ++ back) = u ++ cstring back := by
    unfold cstring
    apply List.takeWhile_append_of_pos
    intro b inside
    simpa using (plain b inside).2
  have none : u.findIdx? (· == newline) = none := by
    rw [List.findIdx?_eq_none_iff]
    intro b inside
    simpa using (plain b inside).1
  unfold strchr
  rw [string, List.findIdx?_append, none, Option.none_or]
  cases (cstring back).findIdx? (· == newline) with
  | none => rfl
  | some i => exact congrArg some (Nat.add_comm _ _)

private theorem lineEnd_unended (back : List Byte) (left : Nat) : nul ∉ (lineEnd back left).1 := by
  unfold lineEnd
  cases found : strchr back newline with
  | none =>
    intro inside
    have character := List.mem_takeWhile_imp inside
    simp at character
  | some i =>
    obtain ⟨split, -, unended⟩ := strchr_split found
    have line : back.take (i + 1) = back.take i ++ [newline] := by
      have length : (back.take i).length = i := List.length_take_of_le (strchr_lt found).le
      conv_lhs => rw [split, List.take_append, length]
      simp [length]
    dsimp only
    rw [line]
    exact concat_unended unended

/-- A line goes over what no newline and no terminator is in, up to its end behind that. -/
theorem getline_over (place : src.drop offset = u ++ back) (plain : ∀ c ∈ u, c ≠ newline ∧ c ≠ nul)
    (text : u ≠ []) (length : offset + u.length + left = srcLen) :
    getline src srcLen offset = some (u ++ (lineEnd back left).1, offset + u.length + (lineEnd back left).2) := by
  have positive := List.length_pos_iff.mpr text
  have clear : nul ∉ u := fun inside => (plain nul inside).2 rfl
  have string (rest : List Byte) (unended : nul ∉ rest) : cstring (u ++ rest) = u ++ rest :=
    cstring_unended fun inside => (List.mem_append.mp inside).elim clear unended
  have unended := lineEnd_unended back left
  unfold getline
  rw [if_neg (by omega : ¬srcLen ≤ offset), place, strchr_skip plain]
  unfold lineEnd at unended ⊢
  cases found : strchr back newline with
  | none =>
    have size : srcLen - offset = u.length + left := by omega
    have rest : cstring (u ++ back.take left) = u ++ cstring (back.take left) := by
      unfold cstring
      exact List.takeWhile_append_of_pos fun c inside => by simpa using (plain c inside).2
    simp only [Option.map_none, size, List.take_length_add_append, rest, Nat.add_assoc]
  | some i =>
    rw [found] at unended
    simp only [Option.map_some, Nat.add_assoc, List.take_length_add_append, string _ unended]

/-- Lines of what two texts have in common are the same. -/
theorem getline_shift {x y n : Nat} (same : src.drop (x + n) = src'.drop (y + n))
    (read : getline src (x + left) (x + n) = some (raw, after)) :
    ∃ m, n < m ∧ after = x + m ∧ getline src' (y + left) (y + n) = some (raw, y + m) := by
  have inside := (getline_bounds read).1
  unfold getline at read ⊢
  rw [if_neg (by omega)] at read ⊢
  rw [← same]
  cases found : strchr (src.drop (x + n)) newline with
  | none =>
    simp only [found, Option.some.injEq, Prod.mk.injEq] at read ⊢
    rw [Nat.add_sub_add_left] at read ⊢
    have further : n < n + (left - n) := by omega
    exact ⟨n + (left - n), further, read.2.symm.trans (Nat.add_assoc ..), read.1, Nat.add_assoc ..⟩
  | some i =>
    simp only [found, Option.some.injEq, Prod.mk.injEq] at read ⊢
    exact ⟨n + (i + 1), by omega, read.2.symm.trans (Nat.add_assoc ..), read.1, Nat.add_assoc ..⟩

private theorem getline_ends {x y n : Nat} (finished : getline src (x + left) (x + n) = none) :
    getline src' (y + left) (y + n) = none := by
  unfold getline at finished ⊢
  split at finished
  · exact if_pos (by omega)
  · cases finished

/-- A line that the reader takes is its next step. -/
theorem Reader.Takes.step (takes : Reader.Takes d q (d.clean raw) after t)
    (read : getline src srcLen q.offset = some (raw, after)) : Reader.step d src srcLen q = .inr t := by
  unfold Reader.step
  simp only [read]
  cases takes with
  | blank blank => rw [if_pos blank]
  | outside text idle => rw [if_neg text, idle]
  | closing text current closes =>
    rw [if_neg text, current]
    exact if_pos closes
  | inside text current stays taken =>
    rw [if_neg text, current]
    simp only [stays, Bool.false_eq_true, if_false, taken]

/-- A line with the same words is taken in the same way, and only a closing line leads
back. -/
theorem Reader.Takes.follows (regular : d.Regular) (same : SameWords d line line') (blank : line = [] ↔ line' = [])
    (books : q.book = q'.book) (after' : Nat) (takes : Reader.Takes d q line after t) :
    ∃ t', Reader.Takes d q' line' after' t' ∧ t'.book = t.book ∧
      (t.offset = after ∧ t'.offset = after' ∨
        d.closes line = true ∧ q.book.current ≠ none ∧ t.book.current = none ∧
          t.offset = after - (line.length + 1) ∧ t'.offset = after' - (line'.length + 1)) := by
  cases takes with
  | blank empty => exact ⟨⟨after', q'.book⟩, .blank (blank.mp empty), books.symm, .inl ⟨rfl, rfl⟩⟩
  | outside text idle =>
    refine ⟨_, .outside (fun empty => text (blank.mpr empty)) (books ▸ idle), ?_, .inl ⟨rfl, rfl⟩⟩
    dsimp only
    rw [← books, same.outsideLine regular]
  | closing text current closes =>
    refine ⟨_, .closing (fun empty => text (blank.mpr empty)) (books ▸ current) (same.closes ▸ closes), ?_, .inr ?_⟩
    · exact congrArg Book.close books.symm
    · exact ⟨closes, by rw [current]; exact Option.some_ne_none _, q.book.close_current, rfl, rfl⟩
  | inside text current stays taken =>
    refine ⟨_, .inside (fun empty => text (blank.mpr empty)) (books ▸ current) (same.closes ▸ stays) ?_, rfl,
      .inl ⟨rfl, rfl⟩⟩
    rw [← books, ← same.insideLine]
    exact taken

end

/-- Readers of the two texts at the same place, with the same book. -/
inductive Spot.Related (s : Spot) (run run' : List Byte) : Reader → Reader → Prop
  | ahead {offset : Nat} {b : Book} : offset ≤ s.first → Related s run run' ⟨offset, b⟩ ⟨offset, b⟩
  | behind {n : Nat} {b : Book} : (b.current ≠ none → 0 < n ∨ s.left = 0) →
      Related s run run' ⟨s.behind run + n, b⟩ ⟨s.behind run' + n, b⟩

section
variable {d : Dialect} {s : Spot} {run run' raw : List Byte} {offset after k n : Nat} {q q' t : Reader}
  {numbers : Word × Word}

theorem Spot.Related.books (related : s.Related run run' q q') : q.book = q'.book := by
  cases related <;> rfl

private theorem Spot.Related.of_ahead (books : q.book = q'.book) (offsets : q.offset = q'.offset)
    (inside : q.offset ≤ s.first) :
    s.Related run run' q q' := by
  cases q
  cases q'
  cases books
  cases offsets
  exact .ahead inside

private theorem Spot.Related.of_behind (books : q.book = q'.book) (here : q.offset = s.behind run + n)
    (there : q'.offset = s.behind run' + n) (opened : q.book.current ≠ none → 0 < n ∨ s.left = 0) :
    s.Related run run' q q' := by
  cases q
  cases q'
  cases books
  cases here
  cases there
  exact .behind opened

/-- The lines before the one with the run are the same in all texts. -/
theorem Spot.Valid.ahead (valid : s.Valid d) (inside : offset < s.before.length) :
    ∃ raw after, after ≤ s.before.length ∧
      ∀ run, getline (s.src run) (s.srcLen run) offset = some (raw, after) := by
  have some_ : s.before ≠ [] := List.ne_nil_of_length_pos (by omega)
  have last : newline ∈ s.before.drop offset := by
    apply List.mem_of_getLast?
    rw [List.getLast?_drop, if_neg (by omega)]
    exact valid.lines.resolve_left some_
  obtain ⟨body, rest, split, single⟩ := List.eq_append_cons_of_mem last
  have unended : nul ∉ body := fun member =>
    valid.unended (List.mem_of_mem_drop (split ▸ List.mem_append_left _ member))
  have length := congrArg List.length split
  rw [List.length_drop, List.length_append, List.length_cons] at length
  refine ⟨body ++ [newline], offset + (body.length + 1), by omega, fun run => ?_⟩
  have place : (s.src run).drop offset = body ++ newline :: (rest ++ (s.lead ++ (s.opening ++ (run ++ s.back)))) := by
    rw [src, List.drop_append_of_le_length inside.le, split, List.append_assoc, List.cons_append]
  refine getline_terminated ?_ place single unended
  unfold srcLen behind first
  omega

/-- The line with the run, read from somewhere in the white space before its first word. -/
theorem Spot.Valid.here (valid : s.Valid d) (comment : isspace d.comment = false) (blanks : BlankRun run)
    (reached : s.before.length ≤ offset) (early : offset ≤ s.first) :
    ∃ raw, getline (s.src run) (s.srcLen run) offset = some (raw, s.behind run + (lineEnd s.back s.left).2) ∧
      d.clean raw = s.line d run := by
  obtain ⟨k, rfl⟩ := Nat.exists_eq_add_of_le reached
  have small : k ≤ s.lead.length := by
    unfold first at early
    omega
  have lead : ∀ c ∈ s.lead.drop k, isspace c = true ∧ c ≠ newline := fun c member =>
    valid.lead c (List.mem_of_mem_drop member)
  have place : (s.src run).drop (s.before.length + k) = (s.lead.drop k ++ (s.opening ++ run)) ++ s.back := by
    rw [src, ← List.drop_drop, List.drop_left, List.drop_append_of_le_length small]
    simp only [List.append_assoc]
  have plain : ∀ c ∈ s.lead.drop k ++ (s.opening ++ run), (c ≠ newline ∧ c ≠ nul) ∧ c ≠ d.comment := by
    intro c member
    rcases List.mem_append.mp member with space | later
    · refine ⟨⟨(lead c space).2, ?_⟩, ?_⟩
      · rintro rfl
        cases (lead nul space).1
      · rintro rfl
        exact Bool.false_ne_true (comment.symm.trans (lead _ space).1)
    · rcases List.mem_append.mp later with word | blank
      · have letter := valid.opening.plain comment c word
        exact ⟨⟨letter.1, letter.2.1⟩, letter.2.2⟩
      · have letter := blanks.plain comment c blank
        exact ⟨⟨letter.1, letter.2.1⟩, letter.2.2⟩
  have text : s.lead.drop k ++ (s.opening ++ run) ≠ [] :=
    List.append_ne_nil_of_right_ne_nil _ (List.append_ne_nil_of_left_ne_nil valid.opening.text _)
  have length : s.before.length + k + (s.lead.drop k ++ (s.opening ++ run)).length = s.behind run := by
    rw [List.length_append, List.length_append, List.length_drop]
    unfold behind first
    omega
  have read := getline_over place (fun c member => (plain c member).1) text
    (congrArg (· + s.left) length : _ = s.srcLen run)
  rw [length] at read
  refine ⟨_, read, ?_⟩
  have unended : nul ∉ s.lead.drop k ++ (s.opening ++ run) ++ (lineEnd s.back s.left).1 := fun member =>
    (List.mem_append.mp member).elim (fun inside => (plain nul inside).1.2 rfl) (lineEnd_unended _ _)
  have kept : ∀ c ∈ s.lead.drop k ++ (s.opening ++ run), (c != d.comment) = true := fun c member =>
    bne_iff_ne.mpr (plain c member).2
  rw [Dialect.clean, eatcomments_takeWhile unended, List.takeWhile_append_of_pos kept, List.append_assoc,
    strtrim_spaces fun c member => (lead c member).1, List.append_assoc]
  rfl

private theorem Spot.src_behind (s : Spot) (run : List Byte) (n : Nat) :
    (s.src run).drop (s.behind run + n) = s.back.drop n := by
  have front : s.src run = (s.before ++ s.lead ++ s.opening ++ run) ++ s.back := by
    simp only [src, List.append_assoc]
  have length : (s.before ++ s.lead ++ s.opening ++ run).length = s.behind run := by
    simp only [List.length_append, behind, first]
  rw [front, ← length, List.drop_append, List.drop_of_length_le (by omega), List.nil_append, Nat.add_sub_cancel_left]

private theorem Spot.line_text (valid : s.Valid d) (blanks : BlankRun run) : s.line d run ≠ [] := by
  rw [line, strtrim_run valid.opening.first valid.opening.text blanks.spaces]
  split
  · obtain ⟨c, more, same⟩ := List.exists_cons_of_ne_nil valid.opening.text
    have letter := valid.opening.first c (by rw [same]; rfl)
    rw [same]
    unfold strtrim
    rw [List.dropWhile_cons_of_neg (by simp [letter]), ne_eq, List.rdropWhile_eq_nil_iff]
    intro spaces
    exact Bool.false_ne_true (letter.symm.trans (spaces c List.mem_cons_self))
  · exact List.append_ne_nil_of_left_ne_nil valid.opening.text _

/-- The step back over a line that ends cleanly leads to the same place in all texts. -/
theorem Spot.back_same (valid : s.Valid d) (blanks : BlankRun run) (blanks' : BlankRun run')
    (clean : s.EndsClean d run) (clean' : s.EndsClean d run') :
    s.behind run + (lineEnd s.back s.left).2 - ((s.line d run).length + 1) =
        s.behind run' + (lineEnd s.back s.left).2 - ((s.line d run').length + 1) ∧
      s.behind run + (lineEnd s.back s.left).2 - ((s.line d run).length + 1) ≤ s.first := by
  have positive := List.length_pos_iff.mpr blanks.text
  have positive' := List.length_pos_iff.mpr blanks'.text
  have shorter : (strtrim s.opening).length ≤ s.opening.length := (strtrim_within _).length_le
  unfold EndsClean line at clean clean'
  unfold line
  rw [strtrim_run valid.opening.first valid.opening.text blanks.spaces] at clean ⊢
  rw [strtrim_run valid.opening.first valid.opening.text blanks'.spaces] at clean' ⊢
  unfold behind at clean clean' ⊢
  split at clean
  · rename_i empty
    rw [if_pos empty] at clean' ⊢
    rw [if_pos empty]
    omega
  · rename_i more
    rw [if_neg more] at clean' ⊢
    rw [if_neg more]
    simp only [List.length_append] at clean clean' ⊢
    omega

/-- The line with the run has the same words in both texts, and is blank in neither. -/
theorem Spot.line_same (valid : s.Valid d) (comment : isspace d.comment = false) (blanks : BlankRun run)
    (blanks' : BlankRun run') (splits : SplitsAtBlanks (s.line d run)) (splits' : SplitsAtBlanks (s.line d run')) :
    SameWords d (s.line d run) (s.line d run') ∧ (s.line d run = [] ↔ s.line d run' = []) := by
  constructor
  · refine valid.opening.sameWords comment blanks blanks' (fun member => ?_) splits splits'
    exact lineEnd_unended _ _ (List.takeWhile_prefix _ |>.subset member)
  · exact iff_of_false (Spot.line_text valid blanks) (Spot.line_text valid blanks')

/-- A step of one reader is a step of the other. -/
theorem Spot.Related.step (valid : s.Valid d) (regular : d.Regular) (comment : isspace d.comment = false)
    (blanks : BlankRun run) (blanks' : BlankRun run') (splits : SplitsAtBlanks (s.line d run))
    (splits' : SplitsAtBlanks (s.line d run')) (clean : s.Closes d run numbers → s.EndsClean d run)
    (clean' : s.Closes d run' numbers → s.EndsClean d run') (related : s.Related run run' q q')
    (reached : Reaches (Reader.step d (s.src run) (s.srcLen run)) ⟨0, .start numbers⟩ q)
    (reached' : Reaches (Reader.step d (s.src run') (s.srcLen run')) ⟨0, .start numbers⟩ q')
    (turn : Reader.step d (s.src run) (s.srcLen run) q = .inr t) :
    ∃ t', Reader.step d (s.src run') (s.srcLen run') q' = .inr t' ∧ s.Related run run' t t' := by
  obtain ⟨raw, after, read, takes⟩ := Reader.step_takes turn
  cases related with
  | @ahead offset b inside =>
    by_cases earlier : offset < s.before.length
    · -- a line before the run
      obtain ⟨raw', after', bound, reads⟩ := valid.ahead earlier
      cases read.symm.trans (reads run)
      obtain ⟨t', follows, book, moved⟩ := takes.follows regular (.rfl _) Iff.rfl rfl after
      have early : s.before.length ≤ s.first := Nat.le_add_right _ _
      refine ⟨t', follows.step (reads run'), .of_ahead book.symm ?_ ?_⟩
      · rcases moved with ⟨here, there⟩ | ⟨-, -, -, here, there⟩ <;> rw [here, there]
      · rcases moved with ⟨here, -⟩ | ⟨-, -, -, here, -⟩ <;> omega
    · -- the line with the run
      have later := Nat.not_lt.mp earlier
      obtain ⟨raw₁, first, cleaned⟩ := valid.here comment blanks later inside
      obtain ⟨raw₂, second, cleaned'⟩ := valid.here comment blanks' later inside
      cases read.symm.trans first
      rw [cleaned] at takes
      obtain ⟨words, text⟩ := Spot.line_same valid comment blanks blanks' splits splits'
      obtain ⟨t', follows, book, moved⟩ := takes.follows regular words text rfl _
      rw [← cleaned'] at follows
      refine ⟨t', follows.step second, ?_⟩
      rcases moved with ⟨here, there⟩ | ⟨closes, reading, -, here, there⟩
      · refine .of_behind book.symm here there fun _ => ?_
        unfold lineEnd
        split
        · exact .inl (Nat.succ_pos _)
        · exact (Nat.eq_zero_or_pos s.left).symm
      · have back := Spot.back_same valid blanks blanks' (clean ⟨closes, _, reached, later, inside, reading⟩)
          (clean' ⟨words.closes ▸ closes, _, reached', later, inside, reading⟩)
        rw [← here, ← there] at back
        exact .of_ahead book.symm back.1 back.2
  | @behind n b opened =>
    have place : (s.src run).drop (s.behind run + n) = (s.src run').drop (s.behind run' + n) := by
      rw [Spot.src_behind, Spot.src_behind]
    obtain ⟨m, further, rfl, read'⟩ := getline_shift place read
    have books : (Reader.mk (s.behind run + n) b).book = (Reader.mk (s.behind run' + n) b).book := rfl
    obtain ⟨t', follows, book, moved⟩ := takes.follows regular (.rfl _) Iff.rfl books _
    refine ⟨t', follows.step read', ?_⟩
    rcases moved with ⟨here, there⟩ | ⟨-, reading, closed, here, there⟩
    · exact .of_behind book.symm here there fun _ => .inl (Nat.zero_lt_of_lt further)
    · have bounds := getline_bounds read
      have short := d.clean_length raw
      have inside : n < s.left := Nat.lt_of_add_lt_add_left bounds.1
      have first : 0 < n := (opened reading).resolve_right (Nat.ne_of_gt (Nat.zero_lt_of_lt inside))
      have room : (d.clean raw).length + 1 ≤ m := by
        have taken := bounds.2.2.2
        dsimp only at taken
        omega
      refine .of_behind book.symm (here.trans (Nat.add_sub_assoc room _)) (there.trans (Nat.add_sub_assoc room _)) ?_
      exact fun open_ => absurd closed open_

/-- The readers read the same words. -/
theorem Spot.Related.reads (valid : s.Valid d) (comment : isspace d.comment = false) (blanks : BlankRun run)
    (blanks' : BlankRun run') (splits : SplitsAtBlanks (s.line d run)) (splits' : SplitsAtBlanks (s.line d run'))
    (related : s.Related run run' q q') (read : getline (s.src run) (s.srcLen run) q.offset = some (raw, after)) :
    ∃ raw' after', getline (s.src run') (s.srcLen run') q'.offset = some (raw', after') ∧
      SameWords d (d.clean raw) (d.clean raw') ∧ (d.clean raw = [] ↔ d.clean raw' = []) := by
  cases related with
  | @ahead offset b inside =>
    by_cases earlier : offset < s.before.length
    · obtain ⟨raw', after', -, reads⟩ := valid.ahead earlier
      cases read.symm.trans (reads run)
      exact ⟨raw, after, reads run', .rfl _, Iff.rfl⟩
    · have later := Nat.not_lt.mp earlier
      obtain ⟨raw₁, first, cleaned⟩ := valid.here comment blanks later inside
      obtain ⟨raw₂, second, cleaned'⟩ := valid.here comment blanks' later inside
      cases read.symm.trans first
      refine ⟨raw₂, _, second, ?_⟩
      rw [cleaned, cleaned']
      exact Spot.line_same valid comment blanks blanks' splits splits'
  | @behind n b opened =>
    have place : (s.src run).drop (s.behind run + n) = (s.src run').drop (s.behind run' + n) := by
      rw [Spot.src_behind, Spot.src_behind]
    obtain ⟨m, -, -, read'⟩ := getline_shift place read
    exact ⟨raw, _, read', .rfl _, Iff.rfl⟩

/-- The readers end with the same book, or in the same fault. -/
theorem Spot.Related.ends {r : Except Fault Book} (valid : s.Valid d) (comment : isspace d.comment = false)
    (blanks : BlankRun run) (blanks' : BlankRun run') (splits : SplitsAtBlanks (s.line d run))
    (splits' : SplitsAtBlanks (s.line d run')) (related : s.Related run run' q q')
    (stops : Reader.step d (s.src run) (s.srcLen run) q = .inl r) :
    Reader.step d (s.src run') (s.srcLen run') q' = .inl r := by
  rcases Reader.step_stops stops with ⟨finished, rfl⟩ |
    ⟨raw, after, entry, fault, read, text, current, stays, taken, rfl⟩
  · rw [related.books]
    unfold Reader.step
    cases related with
    | @ahead offset b inside =>
      by_cases earlier : offset < s.before.length
      · obtain ⟨raw, after, -, reads⟩ := valid.ahead earlier
        cases finished.symm.trans (reads run)
      · obtain ⟨raw, read, -⟩ := valid.here comment blanks (Nat.not_lt.mp earlier) inside
        cases finished.symm.trans read
    | @behind n b opened =>
      have finished' : getline (s.src run') (s.srcLen run') (s.behind run' + n) = none := getline_ends finished
      simp only [finished']
  · obtain ⟨raw', after', read', words, blank⟩ := related.reads valid comment blanks blanks' splits splits' read
    unfold Reader.step
    simp only [read', if_neg fun empty => text (blank.mpr empty), ← related.books, current, ← words.closes, stays,
      Bool.false_eq_true, if_false, ← words.insideLine, taken]

/-- What one reader comes to, the other comes to. -/
theorem Spot.reaches_related (valid : s.Valid d) (regular : d.Regular) (comment : isspace d.comment = false)
    (blanks : BlankRun run) (blanks' : BlankRun run') (splits : SplitsAtBlanks (s.line d run))
    (splits' : SplitsAtBlanks (s.line d run')) (clean : s.Closes d run numbers → s.EndsClean d run)
    (clean' : s.Closes d run' numbers → s.EndsClean d run')
    (reached : Reaches (Reader.step d (s.src run) (s.srcLen run)) ⟨0, .start numbers⟩ q) :
    ∃ q', Reaches (Reader.step d (s.src run') (s.srcLen run')) ⟨0, .start numbers⟩ q' ∧ s.Related run run' q q' := by
  induction reached with
  | start => exact ⟨_, .start _, .ahead (Nat.zero_le _)⟩
  | turn before turn ih =>
    obtain ⟨q', before', related⟩ := ih
    obtain ⟨t', turn', related'⟩ :=
      related.step valid regular comment blanks blanks' splits splits' clean clean' before before' turn
    exact ⟨t', before'.turn turn', related'⟩

end

/-- Two runs end, return the same and leave the same behind. -/
def SameResult (menu menu' : Addr) (parse parse' : Nat → Option (Except Fault (Nat × Parser))) : Prop :=
  ∃ fuel r fuel' r', parse fuel = some r ∧ parse' fuel' = some r' ∧ r.map Prod.fst = r'.map Prod.fst ∧
    outcome menu r = outcome menu' r'

section
variable {d : Dialect} {s : Spot} {run run' : List Byte} {heap : Heap} {menu : Addr} {old : List Addr}

/-- A parser makes the same of two texts that differ in a run of blanks. -/
theorem parse_respaced (scratch scratch' : Word × Word) (valid : s.Valid d) (regular : d.Regular)
    (comment : isspace d.comment = false) (lists : heap.Lists menu old) (blanks : BlankRun run)
    (blanks' : BlankRun run') (splits : SplitsAtBlanks (s.line d run)) (splits' : SplitsAtBlanks (s.line d run'))
    (clean : s.Closes d run (heap.numbers menu) → s.EndsClean d run)
    (clean' : s.Closes d run' (heap.numbers menu) → s.EndsClean d run') :
    SameResult menu menu (parse d (s.src run) (s.srcLen run) heap menu scratch)
      (parse d (s.src run') (s.srcLen run') heap menu scratch') := by
  obtain ⟨m, r, runs⟩ := reader_terminates regular (s.src run) (s.srcLen run) ⟨0, .start (heap.numbers menu)⟩
  obtain ⟨q, reached, stops⟩ := run_exit runs
  obtain ⟨q', reached', related⟩ :=
    Spot.reaches_related valid regular comment blanks blanks' splits splits' clean clean' reached
  have stops' := related.ends valid comment blanks blanks' splits splits' stops
  cases r with
  | ok b =>
    have ended {src : List Byte} {srcLen : Nat} {q : Reader} (stops : Reader.step d src srcLen q = .inl (.ok b)) :
        getline src srcLen q.offset = none := by
      rcases Reader.step_stops stops with ⟨finished, -⟩ | ⟨_, _, _, fault, -, -, -, -, -, same⟩
      · exact finished
      · cases same
    obtain ⟨fuel, p, result, agrees⟩ := parse_returns scratch regular lists reached (ended stops)
    obtain ⟨fuel', p', result', agrees'⟩ := parse_returns scratch' regular lists reached' (ended stops')
    rw [← related.books] at result' agrees'
    have first : Agrees heap menu old (.ok (d.returns q.book.added.length q.book, p)) (.ok q.book.close) := agrees
    have second : Agrees heap menu old (.ok (d.returns q.book.added.length q.book, p')) (.ok q.book.close) := agrees'
    exact ⟨fuel, _, fuel', _, result, result', rfl, first.outcome.trans second.outcome.symm⟩
  | error fault =>
    obtain ⟨m', runs'⟩ := run_reaches reached' (run_ends stops' : StepLoop.run _ 1 q' = _)
    obtain ⟨fuel, r, result, agrees⟩ := parse_follows scratch regular lists runs
    obtain ⟨fuel', r', result', agrees'⟩ := parse_follows scratch' regular lists runs'
    refine ⟨fuel, r, fuel', r', result, result', ?_, agrees.outcome.trans agrees'.outcome.symm⟩
    cases r with
    | ok pair => exact agrees.elim
    | error first =>
      cases r' with
      | ok pair => exact agrees'.elim
      | error second => exact congrArg Except.error ((agrees : first = fault).trans (agrees' : second = fault).symm)

private theorem Spot.line_unended (valid : s.Valid d) (comment : isspace d.comment = false) (blanks : BlankRun run) :
    nul ∉ s.line d run := by
  intro inside
  have member := (strtrim_within _).subset inside
  simp only [List.mem_append] at member
  rcases member with word | blank | rest
  · exact (valid.opening.plain comment nul word).2.1 rfl
  · exact (blanks.plain comment nul blank).2.1 rfl
  · exact lineEnd_unended _ _ ((List.takeWhile_prefix _).subset rest)

/-- The words of both lines end at their first blanks, and the parser makes the same of both
texts, as long as a line that closes an entry is read again from its first word. -/
structure Spot.Unchanged (s : Spot) (d : Dialect) (run run' : List Byte) (heap : Heap) (menu : Addr)
    (scratch scratch' : Word × Word) : Prop where
  words : WordsAtBlanks (s.line d run)
  words' : WordsAtBlanks (s.line d run')
  result : (s.Closes d run (heap.numbers menu) → s.EndsClean d run) →
    (s.Closes d run' (heap.numbers menu) → s.EndsClean d run') →
    SameResult menu menu (parse d (s.src run) (s.srcLen run) heap menu scratch)
      (parse d (s.src run') (s.srcLen run') heap menu scratch')

private theorem parse_unchanged_iff (scratch scratch' : Word × Word) (valid : s.Valid d) (regular : d.Regular)
    (comment : isspace d.comment = false) (lists : heap.Lists menu old) (blanks : BlankRun run)
    (blanks' : BlankRun run') :
    s.Unchanged d run run' heap menu scratch scratch' ↔
      SplitsAtBlanks (s.line d run) ∧ SplitsAtBlanks (s.line d run') := by
  have unended := Spot.line_unended valid comment blanks
  have unended' := Spot.line_unended valid comment blanks'
  constructor
  · intro unchanged
    exact ⟨(wordsAtBlanks_iff unended).mp unchanged.words, (wordsAtBlanks_iff unended').mp unchanged.words'⟩
  · rintro ⟨splits, splits'⟩
    refine ⟨(wordsAtBlanks_iff unended).mpr splits, (wordsAtBlanks_iff unended').mpr splits', ?_⟩
    exact parse_respaced scratch scratch' valid regular comment lists blanks blanks' splits splits'

/-- A run of blanks behind a keyword or a first argument may be any other one exactly where
no tab comes before the first space of either line, or of what is behind its keyword. -/
theorem parsers_unchanged_iff (s : Spot) (scratch scratch' : Word × Word) (lists : heap.Lists menu old)
    (blanks : BlankRun run) (blanks' : BlankRun run') :
    (s.Valid menuLst → (s.Unchanged menuLst run run' heap menu scratch scratch' ↔
      SplitsAtBlanks (s.line menuLst run) ∧ SplitsAtBlanks (s.line menuLst run'))) ∧
    (s.Valid kicklayout → (s.Unchanged kicklayout run run' heap menu scratch scratch' ↔
      SplitsAtBlanks (s.line kicklayout run) ∧ SplitsAtBlanks (s.line kicklayout run'))) :=
  ⟨fun valid => parse_unchanged_iff scratch scratch' valid menuLst_regular rfl lists blanks blanks',
    fun valid => parse_unchanged_iff scratch scratch' valid kicklayout_regular rfl lists blanks blanks'⟩

end

/-- A kernel line with an argument, whose keyword a run of blanks follows. -/
def spacedKernel : Spot := ⟨chars "title a\n", [], chars "kernel", chars "k x\n", 4⟩

def spacedExec : Spot := ⟨chars "LABEL a\n", [], chars "EXEC", chars "k x\n", 4⟩

private theorem begins_of_letters {d : Dialect} {word : List Byte} {c : Byte} (head : word.head? = some c)
    (letters : (word.all fun c => !isspace c && c != nul && c != d.comment) = true) : Begins d word := by
  have each : ∀ b ∈ word, isspace b = false ∧ b ≠ nul ∧ b ≠ d.comment := fun b inside => by
    simpa [and_assoc] using List.all_eq_true.mp letters b inside
  refine ⟨?_, fun b first => (each b (List.mem_of_head? first)).1, fun b inside => ?_⟩
  · rintro rfl
    cases head
  · have letter := each b inside
    refine ⟨Bool.eq_false_iff.mpr fun space => ?_, ?_, letter.2⟩
    · exact Bool.false_ne_true (letter.1.symm.trans (isBlank_space space))
    · rintro rfl
      cases letter.1

private theorem spacedKernel_valid : spacedKernel.Valid menuLst :=
  ⟨.inr (by decide), by decide, by decide, .keyword (begins_of_letters (c := 107) (by decide) (by decide))⟩

private theorem spacedExec_valid : spacedExec.Valid kicklayout :=
  ⟨.inr (by decide), by decide, by decide, .keyword (begins_of_letters (c := 69) (by decide) (by decide))⟩

theorem spaces_unchanged :
    spacedKernel.Unchanged menuLst [blank] [blank, tab] headOnly 0 (0, 0) (0, 0) ∧
      spacedExec.Unchanged kicklayout [blank] [blank, tab] headOnly 0 (0, 0) (0, 0) := by
  have single : BlankRun [blank] := ⟨by decide, by decide⟩
  have double : BlankRun [blank, tab] := ⟨by decide, by decide⟩
  exact ⟨((parsers_unchanged_iff spacedKernel (0, 0) (0, 0) headOnly_lists single double).1 spacedKernel_valid).mpr
      ⟨⟨by decide, by decide⟩, ⟨by decide, by decide⟩⟩,
    ((parsers_unchanged_iff spacedExec (0, 0) (0, 0) headOnly_lists single double).2 spacedExec_valid).mpr
      ⟨⟨by decide, by decide⟩, ⟨by decide, by decide⟩⟩⟩

/-- A tab in place of the space, with another space behind it, hides the keyword. -/
theorem tab_hides_keyword :
    ¬SameResult 0 0 (fsm (spacedKernel.src [blank]) (spacedKernel.srcLen [blank]) headOnly 0 (0, 0))
        (fsm (spacedKernel.src [tab]) (spacedKernel.srcLen [tab]) headOnly 0 (0, 0)) ∧
      ¬SameResult 0 0 (kickFsm (spacedExec.src [blank]) (spacedExec.srcLen [blank]) headOnly 0 (0, 0))
        (kickFsm (spacedExec.src [tab]) (spacedExec.srcLen [tab]) headOnly 0 (0, 0)) := by
  constructor
  · rintro ⟨fuel, r, fuel', r', result, result', -, same⟩
    have spaced : ∀ body ∈ [chars "title a", chars "kernel k x"], Plain body := plain_of_forall (by decide)
    have tabbed : ∀ body ∈ [chars "title a", chars "kernel\tk x"], Plain body := plain_of_forall (by decide)
    exact different_texts menuLst_regular spaced tabbed (by decide) ⟨fuel, r, fuel', r', result, result', same⟩
  · rintro ⟨fuel, r, fuel', r', result, result', -, same⟩
    have spaced : ∀ body ∈ [chars "LABEL a", chars "EXEC k x"], Plain body := plain_of_forall (by decide)
    have tabbed : ∀ body ∈ [chars "LABEL a", chars "EXEC\tk x"], Plain body := plain_of_forall (by decide)
    exact different_texts kicklayout_regular spaced tabbed (by decide) ⟨fuel, r, fuel', r', result, result', same⟩

end Parthenope.Menu
