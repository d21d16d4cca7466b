import Mathlib.Data.List.GetD
import Parthenope.CString

/-! What the file systems find in their buffers: the bytes read into one, numbers
as the big-endian machine loads them, and names compared without regard to case. -/
namespace Parthenope.Buffer
open CString

/-- An allocation by offset: what has been written to it from its start on, and
behind that whatever the memory held there before. -/
def contents (stale : Nat → Byte) (written : List Byte) (i : Nat) : Byte := written.getD i (stale i)

def be16 (bytes : Nat → Byte) (i : Nat) : BitVec 16 := bytes i ++ bytes (i + 1)

def be32 (bytes : Nat → Byte) (i : Nat) : Word :=
  bytes i ++ bytes (i + 1) ++ bytes (i + 2) ++ bytes (i + 3)

def slice (bytes : Nat → Byte) (first length : Nat) : List Byte :=
  (List.range length).map fun i => bytes (first + i)

def tolower (c : Byte) : Byte := if 65 ≤ c ∧ c ≤ 90 then c + 32 else c

def strcasecmp : List Byte → List Byte → Int
  | [], [] => 0
  | [], c :: _ => (tolower c).toNat
  | c :: _, [] => -(tolower c).toNat
  | a :: s, b :: t =>
    let diff : Int := (tolower b).toNat - (tolower a).toNat
    if diff ≠ 0 then diff else strcasecmp s t

/-- A name as it is compared. -/
def fold (name : List Byte) : List Byte := name.map tolower

section
variable {bytes other : Nat → Byte} {first n m : Nat}

@[simp] theorem slice_length : (slice bytes first n).length = n := by
  rw [slice, List.length_map, List.length_range]

theorem slice_append : slice bytes first n ++ slice bytes (first + n) m = slice bytes first (n + m) := by
  simp only [slice, List.range_add, List.map_append, List.map_map, Function.comp_def, Nat.add_assoc]

theorem slice_congr (same : ∀ i < n, bytes (first + i) = other (m + i)) :
    slice bytes first n = slice other m n :=
  List.map_congr_left fun i inside => same i (List.mem_range.mp inside)

theorem slice_take (less : m ≤ n) : (slice bytes first n).take m = slice bytes first m := by
  rw [slice, ← List.map_take, List.take_range, min_eq_left less, slice]

theorem contents_lt {stale : Nat → Byte} {written : List Byte} {i : Nat} (inside : i < written.length) :
    contents stale written i = written[i] := by
  rw [contents, List.getD_eq_getElem _ _ inside]

theorem contents_take {stale : Nat → Byte} {i : Nat} (written : List Byte) (inside : i < n) :
    contents stale (written.take n) i = contents stale written i := by
  rw [contents, contents, List.getD_eq_getElem?_getD, List.getElem?_take_of_lt inside, List.getD_eq_getElem?_getD]

theorem be32_congr (same : ∀ i < n, bytes i = other i) (enough : m + 4 ≤ n) : be32 bytes m = be32 other m := by
  unfold be32
  rw [same m (by omega), same (m + 1) (by omega), same (m + 2) (by omega), same (m + 3) (by omega)]

theorem tolower_zero (c : Byte) (zero : tolower c = 0) : c = 0 := by
  revert c
  decide

theorem strcasecmp_same {c c' : Byte} {s t : List Byte} (same : tolower c = tolower c') :
    strcasecmp (c :: s) (c' :: t) = strcasecmp s t := by
  rw [strcasecmp, same]
  exact if_neg (by omega)

theorem strcasecmp_other {c c' : Byte} {s t : List Byte} (other : tolower c ≠ tolower c') :
    strcasecmp (c :: s) (c' :: t) = (tolower c').toNat - (tolower c).toNat ∧
      strcasecmp (c :: s) (c' :: t) ≠ 0 := by
  have different : ((tolower c').toNat : Int) - (tolower c).toNat ≠ 0 :=
    fun zero => other (BitVec.eq_of_toNat_eq (by omega))
  rw [strcasecmp]
  simp only [if_pos different]
  exact ⟨trivial, different⟩

theorem slice_first (bytes : Nat → Byte) (n : Nat) :
    slice bytes 0 (n + 1) = bytes 0 :: slice (fun i => bytes (i + 1)) 0 n := by
  simp [slice, List.range_succ_eq_map, Function.comp_def]

/-- Names compare as equal if and only if they are, apart from case. -/
theorem strcasecmp_iff {a b : List Byte} (ended : (0 : Byte) ∉ a) (ended' : (0 : Byte) ∉ b) :
    strcasecmp a b = 0 ↔ fold a = fold b := by
  have positive {c : Byte} (some : c ≠ 0) : (tolower c).toNat ≠ 0 :=
    fun zero => some (tolower_zero c (BitVec.eq_of_toNat_eq zero))
  induction a generalizing b with
  | nil =>
    cases b with
    | nil => exact ⟨fun _ => rfl, fun _ => rfl⟩
    | cons c t =>
      have := positive fun zero => ended' (zero ▸ List.mem_cons_self)
      simp only [strcasecmp, fold, List.map_nil, List.map_cons]
      constructor
      · omega
      · intro same
        cases same
  | cons c s ih =>
    cases b with
    | nil =>
      have := positive fun zero => ended (zero ▸ List.mem_cons_self)
      simp only [strcasecmp, fold, List.map_nil, List.map_cons]
      constructor
      · omega
      · intro same
        cases same
    | cons c' t =>
      have rest := ih (fun member => ended (List.mem_cons_of_mem _ member))
        (fun member => ended' (List.mem_cons_of_mem _ member))
      simp only [fold, List.map_cons, List.cons.injEq] at rest ⊢
      by_cases same : tolower c = tolower c'
      · rw [strcasecmp_same same]
        exact rest.trans ⟨fun tails => ⟨same, tails⟩, fun both => both.2⟩
      · exact ⟨fun zero => absurd zero (strcasecmp_other same).2, fun both => absurd both.1 same⟩

end

end Parthenope.Buffer
