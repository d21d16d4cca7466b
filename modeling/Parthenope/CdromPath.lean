import Parthenope.FileNames

/-! How `fs_cdrom_find_file` takes a name apart. In a copy of it every slash but one at the
end becomes a zero byte, and where an element begins is stored in `elements`, which has room
for ISO9660_MAX_DEPTH + 1 of them; nothing is compared with that. -/
namespace Parthenope.Cdrom
open CString Buffer StepLoop FileNames

/-- `local_filename` with its zero byte, the offsets in it that are stored in `elements`, up
to `depth`, and `i`. -/
structure Splitting where
  localFilename : List Byte
  elements : List Nat
  i : Nat

/-- A name without a slash in front. -/
def stripped (filename : List Byte) : List Byte :=
  if filename.head? = some 47 then filename.tail else filename

/-- One turn of the loop. -/
def splitTurn (filename : List Byte) (s : Splitting) : Except Fault Splitting ⊕ Splitting :=
  if (s.i : Int) < (filename.length : Int) - 1 then
    if s.localFilename[s.i]? = some 47 then
      if s.elements.length < isoMaxDepth + 1 then
        .inr ⟨s.localFilename.set s.i 0, s.elements ++ [s.i + 1], s.i + 1⟩
      else .inl (.error .elementsOverflow)
    else .inr { s with i := s.i + 1 }
  else .inl (.ok s)

/-- The first part of `fs_cdrom_find_file`; `strlen` and its argument of `malloc` are of type `int`. -/
def splitFilename (filename : List Byte) (fuel : Nat) : Option (Except Fault Splitting) :=
  if (stripped filename).length + 1 < 2 ^ 31 then
    run (splitTurn (stripped filename)) fuel ⟨stripped filename ++ [0], [0], 0⟩
  else some (.error .offsetOverflow)

/-- The strings that `elements` points to. -/
def Splitting.strings (s : Splitting) : List (List Byte) :=
  s.elements.map fun o => cstring (s.localFilename.drop o)

/-- The slashes that a name is split at: all but one in front and one at the end. -/
def dividers (filename : List Byte) : Nat := (stripped filename).dropLast.count 47

/-- The loop stores inside `elements`, what is stored joined by slashes is the name, and a
name with more elements is not found. -/
structure SplitsWell (filename : List Byte) : Prop where
  inside : ∀ fuel fault, splitFilename filename fuel ≠ some (.error fault)
  joined : dividers filename ≤ isoMaxDepth → ∃ fuel s, splitFilename filename fuel = some (.ok s) ∧
    [47].intercalate s.strings = stripped filename
  rejected : isoMaxDepth < dividers filename → ∀ {D : Type} (host : Host D) (dev : CdromBootDev D),
    ∃ fuel boot, fsCdromFindFile host dev filename fuel = some (.ok (boot, none))

/-- Elements one behind the other, each with its zero byte, and where they begin. -/
def laidOut (elements : List (List Byte)) : List Byte := elements.flatMap (· ++ [0])

def starts (elements : List (List Byte)) : List Nat :=
  (List.range elements.length).map fun k => (laidOut (elements.take k)).length

section
variable {path filename : List Byte} {done elements : List (List Byte)} {current element : List Byte} {c : Byte}

private theorem laidOut_append (done : List (List Byte)) (element : List Byte) :
    laidOut (done ++ [element]) = laidOut done ++ (element ++ [0]) := by
  simp [laidOut]

@[simp] theorem starts_length : (starts elements).length = elements.length := by
  simp [starts]

private theorem starts_append (done : List (List Byte)) (element : List Byte) :
    starts (done ++ [element]) = starts done ++ [(laidOut done).length] := by
  unfold starts
  rw [List.length_append, List.length_singleton, List.range_succ, List.map_append, List.map_singleton,
    List.take_left]
  congr 1
  apply List.map_congr_left
  intro k inside
  rw [List.take_append_of_le_length (List.mem_range.mp inside).le]

/-- What the pointers to the elements point to is the elements. -/
theorem strings_starts (ended : ∀ e ∈ elements, (0 : Byte) ∉ e) :
    (starts elements).map (fun o => cstring ((laidOut elements).drop o)) = elements := by
  apply List.ext_getElem
  · simp
  · intro k inside inside'
    have split : laidOut elements = laidOut (elements.take k) ++
        (elements[k] ++ 0 :: laidOut (elements.drop (k + 1))) := by
      conv_lhs => rw [← List.take_append_drop k elements, List.drop_eq_getElem_cons inside']
      simp only [laidOut, List.flatMap_append, List.flatMap_cons, List.append_assoc, List.singleton_append]
    have unended : ∀ b ∈ elements[k], (b != nul) = true := by
      intro b member
      exact bne_iff_ne.mpr (ne_of_mem_of_not_mem member (ended _ (List.getElem_mem inside')))
    simp only [starts, List.getElem_map, List.getElem_range]
    rw [split, List.drop_left, cstring, List.takeWhile_append_of_pos unended,
      List.takeWhile_cons_of_neg (by decide), List.append_nil]

private theorem splitElements_joined (path : List Byte) : [47].intercalate (splitElements path) = path := by
  induction path with
  | nil => rfl
  | cons c rest ih =>
    cases rest with
    | nil => simp [splitElements]
    | cons d rest =>
      obtain ⟨first, more, split⟩ := List.exists_cons_of_ne_nil (splitElements_ne_nil (d :: rest))
      rw [splitElements_cons (List.cons_ne_nil _ _), split]
      rw [split] at ih
      split
      · rename_i slash
        rw [List.intercalate_cons_cons, ih, slash]
        rfl
      · cases more with
        | nil => simpa using ih
        | cons second more =>
          rw [List.intercalate_cons_cons] at ih ⊢
          simp only [List.cons_append, ih]

private theorem splitElements_count (path : List Byte) : (splitElements path).length = path.dropLast.count 47 + 1 := by
  induction path with
  | nil => rfl
  | cons c rest ih =>
    cases rest with
    | nil => rfl
    | cons d rest =>
      obtain ⟨first, more, split⟩ := List.exists_cons_of_ne_nil (splitElements_ne_nil (d :: rest))
      rw [splitElements_cons (List.cons_ne_nil _ _), split, List.dropLast_cons_cons, List.count_cons]
      rw [split] at ih
      by_cases slash : c = 47
      · simp only [slash, if_true, beq_self_eq_true, List.length_cons] at ih ⊢
        omega
      · simp only [slash, if_false, beq_iff_eq, List.length_cons] at ih ⊢
        omega

/-- How far a path has been split: the elements that are done, the beginning of the next one,
and what the loop has not come to. -/
structure Splits (path : List Byte) (done : List (List Byte)) (current : List Byte) (s : Splitting) : Prop where
  copy : s.localFilename = laidOut done ++ (current ++ (path.drop s.i ++ [0]))
  elements : s.elements = starts (done ++ [current])
  room : s.elements.length ≤ isoMaxDepth + 1
  index : s.i = (laidOut done).length + current.length
  rest : ∃ first more, splitElements (path.drop s.i) = first :: more ∧
    splitElements path = done ++ (current ++ first) :: more

variable {s t : Splitting} {rest : List Byte}

private theorem splits_start (path : List Byte) : Splits path [] [] ⟨path ++ [0], [0], 0⟩ := by
  obtain ⟨first, more, split⟩ := List.exists_cons_of_ne_nil (splitElements_ne_nil path)
  exact ⟨rfl, rfl, Nat.le_add_left 1 isoMaxDepth, rfl, first, more, split, split⟩

/-- The loop is at a character of the path, and has not changed it. -/
theorem Splits.character (splits : Splits path done current s) (here : path.drop s.i = c :: rest) :
    path.drop (s.i + 1) = rest ∧ s.localFilename = laidOut done ++ (current ++ c :: (rest ++ [0])) ∧
      s.localFilename[s.i]? = some c := by
  have copy : s.localFilename = laidOut done ++ (current ++ c :: (rest ++ [0])) := by
    rw [splits.copy, here]
    rfl
  refine ⟨?_, copy, ?_⟩
  · rw [← List.drop_drop, here]
    rfl
  · rw [copy, splits.index]
    simp

/-- At a slash an element is done. -/
theorem Splits.slash (splits : Splits path done current s) (here : path.drop s.i = 47 :: rest) (further : rest ≠ [])
    (room : s.elements.length < isoMaxDepth + 1) :
    Splits path (done ++ [current]) [] ⟨s.localFilename.set s.i 0, s.elements ++ [s.i + 1], s.i + 1⟩ := by
  obtain ⟨behind, copy, -⟩ := splits.character here
  obtain ⟨first, more, split, whole⟩ := splits.rest
  rw [here, splitElements_cons further, if_pos rfl] at split
  cases split
  refine ⟨?_, ?_, ?_, ?_, ?_⟩
  · dsimp only
    rw [copy, behind, laidOut_append, splits.index]
    simp
  · rw [splits.elements, starts_append (done ++ [current]), laidOut_append, splits.index]
    simp [Nat.add_assoc]
  · simpa using Nat.le_of_lt_succ room
  · dsimp only
    rw [splits.index, laidOut_append]
    simp [Nat.add_assoc]
  · obtain ⟨first, more, split⟩ := List.exists_cons_of_ne_nil (splitElements_ne_nil rest)
    refine ⟨first, more, behind ▸ split, ?_⟩
    rw [whole, split]
    simp

/-- Any other character goes to the element that has begun. -/
theorem Splits.letter (splits : Splits path done current s) (here : path.drop s.i = c :: rest) (further : rest ≠ [])
    (other : c ≠ 47) : Splits path done (current ++ [c]) { s with i := s.i + 1 } := by
  obtain ⟨behind, copy, -⟩ := splits.character here
  obtain ⟨first, more, split, whole⟩ := splits.rest
  obtain ⟨next, names, split'⟩ := List.exists_cons_of_ne_nil (splitElements_ne_nil rest)
  rw [here, splitElements_cons further, if_neg other, split'] at split
  cases split
  refine ⟨?_, ?_, splits.room, ?_, ?_⟩
  · dsimp only
    rw [copy, behind]
    simp
  · rw [splits.elements, starts_append, starts_append]
  · dsimp only
    rw [splits.index]
    simp [Nat.add_assoc]
  · refine ⟨next, more, behind ▸ split', ?_⟩
    rw [whole]
    simp

/-- Where no slash is left that divides the path, it has been split. -/
theorem Splits.finished (splits : Splits path done current s) (last : (path.drop s.i).length ≤ 1) :
    s.localFilename = laidOut (splitElements path) ∧ s.elements = starts (splitElements path) := by
  obtain ⟨first, more, split, whole⟩ := splits.rest
  have single : splitElements (path.drop s.i) = [path.drop s.i] := by
    match path.drop s.i, last with
    | [], _ => rfl
    | [c], _ => rfl
  rw [single] at split
  cases split
  rw [whole, laidOut_append, splits.copy, splits.elements, starts_append, starts_append]
  simp

/-- A turn splits the path further, or has no room for an element, or the path has been split. -/
theorem Splits.turn (splits : Splits path done current s) :
    (∃ done' current' t, splitTurn path s = .inr t ∧ Splits path done' current' t) ∨
      (splitTurn path s = .inl (.error .elementsOverflow) ∧ isoMaxDepth + 1 < (splitElements path).length) ∨
      (splitTurn path s = .inl (.ok s) ∧ s.localFilename = laidOut (splitElements path) ∧
        s.elements = starts (splitElements path)) := by
  by_cases inside : (s.i : Int) < (path.length : Int) - 1
  · have below : s.i < path.length := by omega
    have here := List.drop_eq_getElem_cons below
    have further : path.drop (s.i + 1) ≠ [] := by
      apply List.ne_nil_of_length_pos
      rw [List.length_drop]
      omega
    have character := (splits.character here).2.2
    by_cases slash : path[s.i] = 47
    · rw [slash] at here character
      by_cases room : s.elements.length < isoMaxDepth + 1
      · left
        refine ⟨_, _, _, ?_, splits.slash here further room⟩
        rw [splitTurn, if_pos inside, if_pos character, if_pos room]
      · right; left
        obtain ⟨first, more, split, whole⟩ := splits.rest
        rw [here, splitElements_cons further, if_pos rfl] at split
        cases split
        have some := List.length_pos_iff.mpr (splitElements_ne_nil (path.drop (s.i + 1)))
        constructor
        · rw [splitTurn, if_pos inside, if_pos character, if_neg room]
        · rw [splits.elements, starts_length, List.length_append, List.length_singleton] at room
          rw [whole, List.length_append, List.length_cons]
          omega
    · left
      refine ⟨_, _, _, ?_, splits.letter here further slash⟩
      have other : ¬s.localFilename[s.i]? = some 47 := by
        rw [character]
        simpa using slash
      rw [splitTurn, if_pos inside, if_neg other]
  · right; right
    have last : (path.drop s.i).length ≤ 1 := by
      rw [List.length_drop]
      omega
    exact ⟨if_neg inside, splits.finished last⟩

theorem Splits.next (splits : Splits path done current s) (turns : splitTurn path s = .inr t) :
    ∃ done' current', Splits path done' current' t := by
  rcases splits.turn with ⟨done', current', t', next, splits'⟩ | ⟨ends, -⟩ | ⟨ends, -⟩
  · rw [turns] at next
    cases next
    exact ⟨done', current', splits'⟩
  · rw [turns] at ends
    cases ends
  · rw [turns] at ends
    cases ends

private theorem splitTurn_next (turns : splitTurn path s = .inr t) : s.i + 1 < path.length ∧ t.i = s.i + 1 := by
  unfold splitTurn at turns
  split at turns
  · rename_i inside
    refine ⟨by omega, ?_⟩
    split at turns
    · split at turns <;> cases turns
      rfl
    · cases turns
      rfl
  · cases turns

/-- The loop splits a path that has room in `elements`, and goes behind them with another. -/
theorem split_ends (path : List Byte) : ∃ fuel,
    (run (splitTurn path) fuel ⟨path ++ [0], [0], 0⟩ = some (.error .elementsOverflow) ∧
      isoMaxDepth + 1 < (splitElements path).length) ∨
    ∃ s, run (splitTurn path) fuel ⟨path ++ [0], [0], 0⟩ = some (.ok s) ∧
      (splitElements path).length ≤ isoMaxDepth + 1 ∧ s.localFilename = laidOut (splitElements path) ∧
      s.elements = starts (splitElements path) := by
  have ⟨r, runs⟩ : ∃ r, run (splitTurn path) (path.length + 1) ⟨path ++ [0], [0], 0⟩ = some r := by
    refine run_terminates (splitTurn path) (fun _ => True) (fun s => path.length - s.i) (fun _ _ _ _ => trivial) ?_
      trivial (Nat.lt_succ_self _)
    intro s t _ turns
    obtain ⟨inside, index⟩ := splitTurn_next turns
    omega
  obtain ⟨s, reached, ends⟩ := run_exit runs
  have ⟨done, current, splits⟩ : ∃ done current, Splits path done current s := by
    refine reached.invariant (fun s => ∃ done current, Splits path done current s) ?_ ⟨_, _, splits_start path⟩
    rintro s t ⟨done, current, splits⟩ turns
    exact splits.next turns
  refine ⟨path.length + 1, ?_⟩
  rw [runs]
  rcases splits.turn with ⟨done', current', t', next, -⟩ | ⟨overflows, deep⟩ | ⟨finished, copy, elements⟩
  · rw [ends] at next
    cases next
  · rw [ends] at overflows
    cases overflows
    exact .inl ⟨rfl, deep⟩
  · rw [ends] at finished
    cases finished
    have room := splits.room
    rw [elements, starts_length] at room
    exact .inr ⟨s, rfl, room, copy, elements⟩

/-- The elements of a name that the loop stores are those that its slashes divide it into. -/
theorem split_filename (short : (stripped filename).length + 1 < 2 ^ 31) (ended : (0 : Byte) ∉ filename) :
    ∃ n, (splitFilename filename n = some (.error .elementsOverflow) ∧
      isoMaxDepth + 1 < (pathElements filename).length) ∨
      ∃ s, splitFilename filename n = some (.ok s) ∧ (pathElements filename).length ≤ isoMaxDepth + 1 ∧
        s.strings = pathElements filename := by
  have ended' : (0 : Byte) ∉ stripped filename := by
    unfold stripped
    split
    · exact fun member => ended (List.mem_of_mem_tail member)
    · exact ended
  obtain ⟨n, ⟨overflows, deep⟩ | ⟨s, splits, shallow, copy, elements⟩⟩ := split_ends (stripped filename)
  · refine ⟨n, .inl ⟨?_, deep⟩⟩
    rw [splitFilename, if_pos short, overflows]
  · refine ⟨n, .inr ⟨s, ?_, shallow, ?_⟩⟩
    · rw [splitFilename, if_pos short, splits]
    · rw [Splitting.strings, copy, elements]
      exact strings_starts (split_ended ended')

/-- `fs_cdrom_find_file` is its loop and the search for what that has stored. -/
theorem findFile_splits (short : (stripped filename).length + 1 < 2 ^ 31) (ended : (0 : Byte) ∉ filename) :
    ∃ n r, splitFilename filename n = some r ∧ ∀ {D : Type} (host : Host D) (dev : CdromBootDev D) (fuel : Nat),
      fsCdromFindFile host dev filename fuel = match r with
        | .error fault => some (.error fault)
        | .ok s => findElements host dev fuel s.strings dev.boot (volumeRoot host dev.voldesc)
          (volumeRootSize host dev.voldesc) := by
  obtain ⟨n, ⟨overflows, deep⟩ | ⟨s, splits, shallow, strings⟩⟩ := split_filename short ended
  · refine ⟨n, _, overflows, fun host dev fuel => ?_⟩
    rw [fsCdromFindFile, if_pos deep]
  · refine ⟨n, _, splits, fun host dev fuel => ?_⟩
    simp only [fsCdromFindFile, if_neg (Nat.not_lt.mpr shallow), strings]

/-- A name is split well if and only if the elements are enough for it, and an `int` for its length. -/
theorem splits_well_iff (ended : (0 : Byte) ∉ filename) :
    SplitsWell filename ↔ dividers filename ≤ isoMaxDepth ∧ (stripped filename).length + 1 < 2 ^ 31 := by
  have count : (pathElements filename).length = dividers filename + 1 := splitElements_count _
  constructor
  · intro splits
    have short : (stripped filename).length + 1 < 2 ^ 31 := by
      by_contra long
      exact splits.inside 0 .offsetOverflow (if_neg long)
    refine ⟨?_, short⟩
    obtain ⟨n, ⟨overflows, -⟩ | ⟨s, -, shallow, -⟩⟩ := split_filename short ended
    · exact absurd overflows (splits.inside n _)
    · omega
  · rintro ⟨few, short⟩
    obtain ⟨n, ⟨-, deep⟩ | ⟨s, split, -, strings⟩⟩ := split_filename short ended
    · omega
    · refine ⟨fun fuel fault faults => ?_, fun _ => ⟨n, s, split, ?_⟩, fun many => absurd few (Nat.not_le.mpr many)⟩
      · rw [splitFilename, if_pos short] at faults split
        cases run_unique faults split
      · rw [strings]
        exact splitElements_joined _

end

/-- Slashes in front, at the end and beside each other. -/
theorem slashes_split_well : SplitsWell (chars "/a//b/") :=
  (splits_well_iff (by decide)).mpr ⟨by decide, by decide⟩

/-- The tenth element is stored behind the others. -/
theorem tenth_element_overflows : ¬SplitsWell (chars "a/b/c/d/e/f/g/h/i/j") :=
  fun splits => splits.inside 20 .elementsOverflow rfl

end Parthenope.Cdrom
