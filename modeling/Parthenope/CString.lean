import Mathlib.Data.BitVec
import Mathlib.Data.List.DropRight
import Mathlib.Data.List.Infix

/-! The string functions of `support.c` and `menu.c` on C strings. A string is
the list of its characters without the terminator; memory that may hold a
terminator anywhere is a list of bytes, ending at the first NUL or at its end. -/
namespace Parthenope.CString

abbrev Byte := BitVec 8
abbrev Word := BitVec 32

/-- The characters of a literal. -/
def chars (s : String) : List Byte := s.toList.map fun c => BitVec.ofNat 8 c.toNat

def nul : Byte := 0
def newline : Byte := 10
def blank : Byte := 32
def tab : Byte := 9

/-- The string that starts here. -/
def cstring (bytes : List Byte) : List Byte := bytes.takeWhile (· != nul)

/-- The index of the first `c` before the terminator. -/
def strchr (bytes : List Byte) (c : Byte) : Option Nat := (cstring bytes).findIdx? (· == c)

/-- Space, tab, form feed, newline, carriage return, vertical tab. -/
def isspace (c : Byte) : Bool := c == blank || c == tab || c == 12 || c == newline || c == 13 || c == 11

def strtrim (s : List Byte) : List Byte := (s.dropWhile isspace).rdropWhile isspace

/-- No white space at either end. -/
structure Trimmed (s : List Byte) : Prop where
  first : ∀ c, s.head? = some c → isspace c = false
  last : ∀ c, s.getLast? = some c → isspace c = false

/-- The number in a string of digits; other characters count by their distance
from `'0'`. Machine arithmetic, from the last character on. -/
def strtol (s : List Byte) : Word :=
  (s.foldr (fun c (l, m) => (l + (c.setWidth 32 - 48) * m, m * 10)) ((0, 1) : Word × Word)).1

/-- `eatcomments`, for the comment character given. -/
def eatcomments (comment : Byte) (line : List Byte) : List Byte :=
  match strchr line comment with
  | some i => line.take i
  | none => line

/-- The text up to the first space, or if there is none, up to the first tab. -/
def getnextword (line : List Byte) : List Byte :=
  match strchr line blank with
  | some len => line.take len
  | none =>
    match strchr line tab with
    | some len => line.take len
    | none => line

/-- One line and the offset after it: up to the first newline from the offset
on, wherever that is, or to the length given where there is none. -/
def getline (src : List Byte) (srcLen offset : Nat) : Option (List Byte × Nat) :=
  if srcLen ≤ offset then none
  else
    let len :=
      match strchr (src.drop offset) newline with
      | some i => i + 1
      | none => srcLen - offset
    some (cstring ((src.drop offset).take len), offset + len)

section
variable {src bytes s line : List Byte} {srcLen offset after : Nat} {c : Byte}

private theorem cstring_length (bytes : List Byte) : (cstring bytes).length ≤ bytes.length :=
  (List.takeWhile_sublist _).length_le

theorem strtrim_within (s : List Byte) : strtrim s <:+: s :=
  (List.rdropWhile_prefix _ _).isInfix.trans (List.dropWhile_suffix _).isInfix

theorem eatcomments_begins (c : Byte) (line : List Byte) : eatcomments c line <+: line := by
  unfold eatcomments
  split
  · exact List.take_prefix _ _
  · exact List.prefix_rfl

theorem getnextword_begins (line : List Byte) : getnextword line <+: line := by
  unfold getnextword
  split
  · exact List.take_prefix _ _
  · split
    · exact List.take_prefix _ _
    · exact List.prefix_rfl

theorem strchr_lt {i : Nat} (found : strchr bytes c = some i) : i < bytes.length := by
  obtain ⟨below, _⟩ := List.findIdx?_eq_some_iff_getElem.mp found
  exact below.trans_le (cstring_length bytes)

/-- A line takes what is left of the buffer, or ends inside it. -/
theorem getline_bounds (read : getline src srcLen offset = some (line, after)) :
    offset < srcLen ∧ offset < after ∧ after ≤ max src.length srcLen ∧
      offset + line.length ≤ after := by
  unfold getline at read
  split at read
  · cases read
  · rename_i inside
    have inside : offset < srcLen := Nat.not_le.mp inside
    cases found : strchr (src.drop offset) newline with
    | none =>
      simp only [found, Option.some.injEq, Prod.mk.injEq] at read
      obtain ⟨rfl, rfl⟩ := read
      have short := cstring_length ((src.drop offset).take (srcLen - offset))
      have taken := List.length_take_le (srcLen - offset) (src.drop offset)
      omega
    | some i =>
      simp only [found, Option.some.injEq, Prod.mk.injEq] at read
      obtain ⟨rfl, rfl⟩ := read
      have short := cstring_length ((src.drop offset).take (i + 1))
      have taken := List.length_take_le (i + 1) (src.drop offset)
      have bound := strchr_lt found
      rw [List.length_drop] at bound
      change offset < srcLen ∧ offset < offset + (i + 1) ∧ offset + (i + 1) ≤ max src.length srcLen ∧
        offset + (cstring ((src.drop offset).take (i + 1))).length ≤ offset + (i + 1)
      omega

/-- What comes before the first newline, where no terminator stands before it. -/
theorem strchr_split {i : Nat} (found : strchr bytes c = some i) :
    bytes = bytes.take i ++ c :: bytes.drop (i + 1) ∧ c ∉ bytes.take i ∧ nul ∉ bytes.take i := by
  obtain ⟨below, first, before⟩ := List.findIdx?_eq_some_iff_getElem.mp found
  have whole : cstring bytes <+: bytes := List.takeWhile_prefix _
  have inside : i < bytes.length := below.trans_le whole.length_le
  have letter : bytes[i] = c := by
    rw [← whole.getElem below]
    simpa using first
  have start : bytes.take i = (cstring bytes).take i := by
    obtain ⟨rest, split⟩ := whole
    rw [← split, List.take_append_of_le_length below.le]
    rw [split]
  refine ⟨?_, ?_, ?_⟩
  · rw [← letter, ← List.drop_eq_getElem_cons inside, List.take_append_drop]
  · rw [start]
    intro member
    obtain ⟨k, small, same⟩ := List.mem_take_iff_getElem.mp member
    have other := before k (by omega)
    simp [same] at other
  · rw [start]
    intro member
    have character := List.mem_takeWhile_imp (List.mem_of_mem_take member)
    simp at character

theorem strchr_first {before rest : List Byte} (clean : c ∉ before) (unended : nul ∉ before)
    (letter : c ≠ nul) : strchr (before ++ c :: rest) c = some before.length := by
  have string : cstring (before ++ c :: rest) = before ++ c :: cstring rest := by
    unfold cstring
    rw [List.takeWhile_append_of_pos, List.takeWhile_cons_of_pos]
    · simpa using letter
    · intro b inside
      have other : b ≠ nul := ne_of_mem_of_not_mem inside unended
      simpa using other
  unfold strchr
  rw [string, List.findIdx?_append, List.findIdx?_eq_none_iff.mpr, List.findIdx?_cons]
  · simp
  · intro b inside
    have other : b ≠ c := ne_of_mem_of_not_mem inside clean
    simpa using other

/-- A string ends no earlier for a part of it left out in front. -/
theorem strchr_behind {before rest : List Byte} (none : strchr (before ++ rest) c = none)
    (unended : nul ∉ before) : strchr rest c = .none := by
  have string : cstring (before ++ rest) = before ++ cstring rest := by
    unfold cstring
    apply List.takeWhile_append_of_pos
    intro b inside
    have other : b ≠ nul := ne_of_mem_of_not_mem inside unended
    simpa using other
  unfold strchr at none ⊢
  rw [string] at none
  apply List.findIdx?_eq_none_iff.mpr
  intro b inside
  exact List.findIdx?_eq_none_iff.mp none b (List.mem_append_right _ inside)

theorem cstring_unended (unended : nul ∉ s) : cstring s = s := by
  unfold cstring
  rw [List.takeWhile_eq_self_iff]
  intro b inside
  have other : b ≠ nul := ne_of_mem_of_not_mem inside unended
  simpa using other

theorem eatcomments_takeWhile (unended : nul ∉ s) : eatcomments c s = s.takeWhile (· != c) := by
  unfold eatcomments strchr
  rw [cstring_unended unended]
  cases found : s.findIdx? (· == c) with
  | none =>
    symm
    rw [List.takeWhile_eq_self_iff]
    intro b inside
    simpa using List.findIdx?_eq_none_iff.mp found b inside
  | some i =>
    obtain ⟨below, first, before⟩ := List.findIdx?_eq_some_iff_getElem.mp found
    have letter : s[i] = c := by simpa using first
    have split : s = s.take i ++ c :: s.drop (i + 1) := by
      rw [← letter, ← List.drop_eq_getElem_cons below, List.take_append_drop]
    have clear : ∀ b ∈ s.take i, (b != c) = true := by
      intro b member
      obtain ⟨k, small, same⟩ := List.mem_take_iff_getElem.mp member
      have other := before k (by omega)
      simpa [same] using other
    conv_rhs => rw [split]
    rw [List.takeWhile_append_of_pos clear, List.takeWhile_cons_of_neg (by simp), List.append_nil]

theorem Trimmed.strtrim (trimmed : Trimmed s) : strtrim s = s := by
  have front : s.dropWhile isspace = s := by
    cases s with
    | nil => rfl
    | cons b rest => exact List.dropWhile_cons_of_neg (by simpa using trimmed.first b rfl)
  unfold CString.strtrim
  rw [front, List.rdropWhile_eq_self_iff]
  intro text
  simpa using trimmed.last _ (List.getLast?_eq_some_getLast text)

theorem strtrim_trimmed (s : List Byte) : Trimmed (strtrim s) := by
  unfold strtrim
  constructor
  · intro b first
    have start : (s.dropWhile isspace).rdropWhile isspace <+: s.dropWhile isspace :=
      List.rdropWhile_prefix _ _
    obtain ⟨rest, split⟩ := start
    have head : (s.dropWhile isspace).head? = some b := by
      rw [← split, List.head?_append, first, Option.some_or]
    simpa [head] using List.head?_dropWhile_not isspace s
  · intro b last
    have text : (s.dropWhile isspace).rdropWhile isspace ≠ [] := by
      rintro empty
      rw [empty] at last
      cases last
    rw [List.getLast?_eq_some_getLast text, Option.some.injEq] at last
    subst last
    exact Bool.eq_false_iff.mpr (List.rdropWhile_last_not _ _ text)

theorem strtrim_concat (space : isspace c = true) : strtrim (s ++ [c]) = strtrim s := by
  unfold strtrim
  rw [List.dropWhile_append]
  split
  · rename_i empty
    rw [List.isEmpty_iff.mp empty, List.dropWhile_cons_of_pos space, List.dropWhile_nil]
  · exact List.rdropWhile_concat_pos _ _ _ space

theorem concat_unended {body : List Byte} (unended : nul ∉ body) : nul ∉ body ++ [newline] := by
  intro member
  rcases List.mem_append.mp member with earlier | last
  · exact unended earlier
  · cases List.mem_singleton.mp last

theorem getline_terminated {body rest : List Byte} (inside : offset < srcLen)
    (place : src.drop offset = body ++ newline :: rest) (single : newline ∉ body)
    (unended : nul ∉ body) :
    getline src srcLen offset = some (body ++ [newline], offset + (body.length + 1)) := by
  have found : strchr (src.drop offset) newline = some body.length := by
    rw [place]
    exact strchr_first single unended (by decide)
  have line : (src.drop offset).take (body.length + 1) = body ++ [newline] := by
    rw [place, List.take_append, Nat.add_sub_cancel_left, List.take_of_length_le (Nat.le_succ _)]
    rfl
  unfold getline
  simp only [Nat.not_le.mpr inside, if_false, found, line, cstring_unended (concat_unended unended)]

/-- A line ends with its newline, or is the last one. -/
theorem getline_cases (read : getline src srcLen offset = some (line, after)) :
    (∃ body, src.drop offset = body ++ newline :: src.drop after ∧ newline ∉ body ∧ nul ∉ body ∧
      line = body ++ [newline] ∧ after = offset + (body.length + 1)) ∨
    (strchr (src.drop offset) newline = none ∧ after = srcLen) := by
  have inside := (getline_bounds read).1
  cases found : strchr (src.drop offset) newline with
  | none =>
    unfold getline at read
    simp only [Nat.not_le.mpr inside, if_false, found, Option.some.injEq, Prod.mk.injEq] at read
    obtain ⟨-, rfl⟩ := read
    exact .inr ⟨rfl, Nat.add_sub_cancel' inside.le⟩
  | some i =>
    obtain ⟨split, single, unended⟩ := strchr_split found
    have length : ((src.drop offset).take i).length = i :=
      List.length_take_of_le (strchr_lt found).le
    have result := getline_terminated inside split single unended
    rw [read, Option.some.injEq, Prod.mk.injEq, length] at result
    obtain ⟨rfl, rfl⟩ := result
    refine .inl ⟨_, ?_, single, unended, rfl, by rw [length]⟩
    rw [← List.drop_drop]
    exact split

end

end Parthenope.CString
