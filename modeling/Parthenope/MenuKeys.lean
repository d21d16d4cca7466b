import Mathlib.Data.List.Find
import Parthenope.MenuCountdown

/-! The letters of the menu on a serial line. An entry has the letter of its place, and
one of the letters leaves the menu. -/
namespace Parthenope.Menu
open CString

/-- A key is there before the delay is over. -/
def KeyPressed (head : Node) (console : Console) : Prop := countdown console.tstc 0 (head.delay * 100).toNat ≠ 0

/-- The line printed for entry `i` has a letter of its own, which is not the one that
leaves; and the entry is what pressing the letter returns. -/
structure KeyOf (heap : Heap) (menu : Addr) (head : Node) (appended : List Addr)
    (lines : List (Byte × Bool × List Byte)) (i : Nat) (line : Byte × Bool × List Byte) : Prop where
  own : ∀ j other, lines[j]? = some other → other.1 = line.1 → j = i
  stays : line.1 ≠ 122
  returns : ∀ console, console.getc = line.1.setWidth 32 → KeyPressed head console →
    ∃ a, appended[i]? = some a ∧ menuDisplaySerial heap menu console = .ok (some a, lines)

/-- Whatever `menu_display_serial` prints is a line with such a letter for each entry. -/
def KeysWork (heap : Heap) (menu : Addr) (head : Node) (appended : List Addr) : Prop :=
  ∀ console result lines, menuDisplaySerial heap menu console = .ok (result, lines) →
    lines.length = appended.length ∧
      ∀ i line, lines[i]? = some line → KeyOf heap menu head appended lines i line

section
variable {heap : Heap} {self : Addr} {appended : List Addr} {entries : List Entry} {head : Node} {i j : Nat}

/-- The lines printed for the entries of a menu. -/
def serialLines (head : Node) (entries : List Entry) : List (Byte × Bool × List Byte) :=
  (entries.zipIdx 0).map fun e =>
    (letter e.2, decide ((e.2 : Int) = min head.defaultOs.toInt (entries.length - 1)), e.1.title.getD [])

/-- The place `menu_display_serial` looks for. -/
def serialWanted (head : Node) (n : Nat) (console : Console) (i : Nat) : Bool :=
  if countdown console.tstc 0 (head.delay * 100).toNat = 0 then (i : Int) = min head.defaultOs.toInt (n - 1)
  else console.getc ≠ 122 ∧ (letter i).setWidth 32 = console.getc

private theorem serial_shown (console : Console) (stored : Stored heap self appended entries)
    (present : heap.cells self = some head) (titled : ∀ e ∈ entries, e.title ≠ none) :
    menuDisplaySerial heap self console =
      .ok (((appended.zipIdx 0).find? fun e => serialWanted head entries.length console e.2).map Prod.fst,
        serialLines head entries) := by
  obtain ⟨head', present', chain⟩ := stored.chain
  cases present.symm.trans present'
  have enough : appended.length < heap.fresh + 1 := stored.length_le.trans (Nat.lt_succ_self _)
  unfold menuDisplaySerial serialWanted
  simp only [selection_stored stored present, entryAt_live present, print_chain chain enough titled,
    search_chain chain enough, bind, Except.bind, pure, Except.pure]
  split
  · rfl
  · split
    · rename_i leaves
      have none : ((appended.zipIdx 0).find? fun _ => false) = none := List.find?_eq_none.mpr (by simp)
      simp only [leaves, ne_eq, not_true, false_and, decide_false, none]
      rfl
    · rename_i stays
      simp only [ne_eq, stays, not_false_eq_true, true_and]
      rfl

private theorem serialLines_at (i : Nat) : (serialLines head entries)[i]? = entries[i]?.map fun e =>
    (letter i, decide ((i : Int) = min head.defaultOs.toInt (entries.length - 1)), e.title.getD []) := by
  simp only [serialLines, List.getElem?_map, List.getElem?_zipIdx, Option.map_map, Nat.zero_add]
  rfl

private theorem letter_key (small : i < 159) : ((letter i).setWidth 32 : Word).toNat = 97 + i := by
  rw [letter, BitVec.toNat_setWidth, BitVec.toNat_add, BitVec.toNat_ofNat]
  simp
  omega

private theorem letter_toNat (small : i < 159) : (letter i).toNat = 97 + i := by
  rw [letter, BitVec.toNat_add, BitVec.toNat_ofNat]
  simp
  omega

/-- The first letters are distinct, and come before the one that leaves. -/
theorem letter_inj (left : i < 25) (right : j < 25) (same : letter i = letter j) : i = j := by
  have numbers := congrArg BitVec.toNat same
  rw [letter_toNat (by omega), letter_toNat (by omega)] at numbers
  omega

private theorem letter_ne_exit (small : i < 25) : letter i ≠ 122 := by
  intro same
  have number := congrArg BitVec.toNat same
  rw [letter_toNat (by omega)] at number
  simp at number
  omega

private theorem key_letter (console : Console) (inside : i < 25) (inside' : j < 25)
    (key : console.getc = (letter i).setWidth 32) (pressed : KeyPressed head console) :
    serialWanted head entries.length console j = decide (j = 0 + i) := by
  rw [serialWanted, if_neg pressed, key, Nat.zero_add]
  have stays : (letter i).setWidth 32 ≠ (122 : Word) := by
    intro same
    have number := congrArg BitVec.toNat same
    rw [letter_key (by omega)] at number
    simp at number
    omega
  have apart : ((letter j).setWidth 32 : Word) = (letter i).setWidth 32 ↔ j = i := by
    refine ⟨fun same => ?_, fun same => same ▸ rfl⟩
    have numbers := congrArg BitVec.toNat same
    rw [letter_key (by omega), letter_key (by omega)] at numbers
    omega
  simp only [ne_eq, stays, not_false_eq_true, true_and, apart]

/-- The letter that leaves returns no entry. -/
theorem exit_leaves (console : Console) (stored : Stored heap self appended entries)
    (present : heap.cells self = some head) (titled : ∀ e ∈ entries, e.title ≠ none) (key : console.getc = 122)
    (pressed : KeyPressed head console) : (menuDisplaySerial heap self console).map Prod.fst = .ok none := by
  have none : ((appended.zipIdx 0).find? fun e => serialWanted head entries.length console e.2) = none := by
    refine List.find?_eq_none.mpr fun e _ => ?_
    rw [serialWanted, if_neg pressed]
    exact fun wanted => (of_decide_eq_true wanted).1 key
  rw [serial_shown console stored present titled, none]
  rfl

/-- The entry that gets the letter that leaves is one too many. -/
theorem keysWork_few (stored : Stored heap self appended entries) (present : heap.cells self = some head)
    (titled : ∀ e ∈ entries, e.title ≠ none) (work : KeysWork heap self head appended) : appended.length ≤ 25 := by
  by_contra many
  have length := stored.length
  have shown := serial_shown idleConsole stored present titled
  obtain ⟨-, keys⟩ := work idleConsole _ _ shown
  have last : (serialLines head entries)[25]? = some _ :=
    (serialLines_at 25).trans (congrArg _ (List.getElem?_eq_getElem (show 25 < entries.length by omega)))
  exact (keys 25 _ last).stays rfl

/-- Every entry has its letter, which returns it, if and only if the letters before the one
that leaves are enough. -/
theorem keys_work_iff (stored : Stored heap self appended entries) (present : heap.cells self = some head)
    (titled : ∀ e ∈ entries, e.title ≠ none) : KeysWork heap self head appended ↔ appended.length ≤ 25 := by
  have length : entries.length = appended.length := stored.length.symm
  constructor
  · exact keysWork_few stored present titled
  · intro few console result lines shown
    rw [serial_shown console stored present titled] at shown
    obtain ⟨-, rfl⟩ := Prod.mk.inj (Except.ok.inj shown)
    have printed : (serialLines head entries).length = appended.length := by
      rw [serialLines, List.length_map, List.length_zipIdx, length]
    have labelled {i : Nat} {line : Byte × Bool × List Byte} (there : (serialLines head entries)[i]? = some line) :
        i < appended.length ∧ line.1 = letter i := by
      rw [serialLines_at] at there
      obtain ⟨e, present, rfl⟩ := Option.map_eq_some_iff.mp there
      exact ⟨length ▸ (List.getElem?_eq_some_iff.mp present).1, rfl⟩
    refine ⟨printed, fun i line there => ?_⟩
    obtain ⟨inside, label⟩ := labelled there
    refine ⟨fun j other there' same => ?_, ?_, fun console' key pressed => ?_⟩
    · obtain ⟨inside', label'⟩ := labelled there'
      rw [label, label'] at same
      exact letter_inj (by omega) (by omega) same
    · rw [label]
      exact letter_ne_exit (by omega)
    · refine ⟨appended[i], List.getElem?_eq_getElem inside, ?_⟩
      have found : ((appended.zipIdx 0).find? fun e => serialWanted head entries.length console' e.2) =
          (appended.zipIdx 0).find? fun e => decide (e.2 = 0 + i) := by
        refine List.find?_congr fun e inside' => ?_
        have bounds := List.snd_lt_add_of_mem_zipIdx inside'
        exact key_letter console' (by omega) (by omega) (label ▸ key) pressed
      rw [serial_shown console' stored present titled, found, find_index, List.getElem?_eq_getElem inside]

end

/-- A console on which a key is pressed at once. -/
def keyConsole (key : Word) : Console := { idleConsole with tstc := fun _ => true, getc := key }

/-- The head of a menu without a default. -/
def plainHead : Node := ⟨entryAlloc, 0, 5, some 1⟩

theorem twoEntries_keys : KeysWork (column [chars "a", chars "b"] 0) 0 plainHead (List.range' 1 2) :=
  (keys_work_iff (column_stored [chars "a", chars "b"] 0) rfl (by decide)).mpr (by decide)

/-- The letter of the last of twenty-six entries leaves the menu. -/
theorem twentySixth_leaves :
    ¬KeysWork (column (List.replicate 26 (chars "a")) 0) 0 plainHead (List.range' 1 26) ∧
      (menuDisplaySerial (column (List.replicate 26 (chars "a")) 0) 0 (keyConsole ((letter 25).setWidth 32))).map
        Prod.fst = .ok none := by
  have stored := column_stored (List.replicate 26 (chars "a")) 0
  have titled : ∀ e ∈ column.entries (List.replicate 26 (chars "a")), e.title ≠ none := by decide
  have present : (column (List.replicate 26 (chars "a")) 0).cells 0 = some plainHead := rfl
  refine ⟨fun work => ?_, ?_⟩
  · exact absurd (keysWork_few stored present titled work) (by decide)
  · refine exit_leaves _ stored present titled rfl ?_
    rw [KeyPressed]
    decide

end Parthenope.Menu
