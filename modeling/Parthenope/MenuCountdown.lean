import Parthenope.MenuWindow

/-! The entry chosen where no key is pressed. On a serial line it is looked for in the list,
on the screen among the rows that `display` has drawn, which are those of the first page or,
behind it, of the page one line further. -/
namespace Parthenope.Menu
open CString StepLoop

/-- The number of the entry to boot, in a menu of `n` entries. -/
def chosen (head : Node) (n : Nat) : Nat := min head.defaultOs.toInt.toNat (n - 1)

/-- Both front ends return the entry. -/
def BothReturn (heap : Heap) (self : Addr) (console : Console) (entry : Option Addr) : Prop :=
  (∃ lines, menuDisplaySerial heap self console = .ok (entry, lines)) ∧
    ∃ fuel w,
      menuDisplay heap self { console with stdout := chars "vga" } .initial fuel = some (.ok (entry, w))

/-- The first line of the page that `display` draws at first. -/
def firstLine (last : Nat) : Int := if last ≤ 10 then 0 else 1

section
variable {α : Type*} {heap : Heap} {o : Option Addr} {self : Addr} {addrs appended : List Addr}
  {entries : List Entry} {head : Node} {selected : Int} {i k n fuel last : Nat} {wanted : Nat → Bool}
  {tstc : Nat → Bool} {w : Window}

theorem find_index (l : List α) : ((l.zipIdx i).find? fun e => decide (e.2 = i + k)).map Prod.fst = l[k]? := by
  induction l generalizing i k with
  | nil => rfl
  | cons a rest ih =>
    rw [List.zipIdx_cons, List.find?_cons]
    cases k with
    | zero => simp
    | succ k =>
      have other : decide (i = i + (k + 1)) = false := by simp
      dsimp only
      rw [other, List.getElem?_cons_succ, ← ih (i := i + 1)]
      simp only [Nat.add_assoc, Nat.add_comm 1 k]

private theorem countdown_idle (idle : ∀ k, tstc k = false) (k delay : Nat) : countdown tstc k delay = 0 := by
  induction delay generalizing k with
  | zero => rfl
  | succ delay ih =>
    rw [countdown, idle, if_neg (by decide)]
    exact ih (k + 1)

theorem search_chain (chain : Chain heap o addrs entries) (enough : addrs.length < fuel) :
    heap.search wanted fuel i o = .ok (((addrs.zipIdx i).find? fun e => wanted e.2).map Prod.fst) := by
  induction chain generalizing fuel i with
  | nil =>
    obtain ⟨fuel, rfl⟩ := Nat.exists_eq_succ_of_ne_zero (Nat.ne_of_gt enough)
    rfl
  | cons live _ ih =>
    obtain ⟨fuel, rfl⟩ := Nat.exists_eq_succ_of_ne_zero (Nat.ne_of_gt (Nat.zero_lt_of_lt enough))
    have rest := ih (i := i + 1) (Nat.lt_of_succ_lt_succ enough)
    simp only [Heap.search, entryAt_live live, bind, Except.bind, rest, List.zipIdx_cons, List.find?_cons]
    cases wanted i <;> rfl

/-- Every entry is printed, with its letter. -/
theorem print_chain (chain : Chain heap o addrs entries) (enough : addrs.length < fuel)
    (titled : ∀ e ∈ entries, e.title ≠ none) :
    heap.printEntries selected fuel i o =
      .ok ((entries.zipIdx i).map fun e =>
        (letter e.2, decide ((e.2 : Int) = selected), e.1.title.getD [])) := by
  induction chain generalizing fuel i with
  | nil =>
    obtain ⟨fuel, rfl⟩ := Nat.exists_eq_succ_of_ne_zero (Nat.ne_of_gt enough)
    rfl
  | cons live _ ih =>
    obtain ⟨fuel, rfl⟩ := Nat.exists_eq_succ_of_ne_zero (Nat.ne_of_gt (Nat.zero_lt_of_lt enough))
    have rest := ih (i := i + 1) (Nat.lt_of_succ_lt_succ enough) fun e inside =>
      titled e (List.mem_cons_of_mem _ inside)
    obtain ⟨title, present⟩ := Option.ne_none_iff_exists'.mp (titled _ List.mem_cons_self)
    simp only [Heap.printEntries, entryAt_live live, present, bind, Except.bind, pure, Except.pure, rest,
      List.zipIdx_cons, List.map_cons, Option.getD_some]

private theorem print_titled (chain : Chain heap o addrs entries) {lines : List (Byte × Bool × List Byte)}
    (printed : heap.printEntries selected fuel i o = .ok lines) : ∀ e ∈ entries, e.title ≠ none := by
  induction chain generalizing fuel i lines with
  | nil => exact fun e inside => absurd inside List.not_mem_nil
  | @cons a node addrs entries live _ ih =>
    cases fuel with
    | zero => cases printed
    | succ fuel =>
      unfold Heap.printEntries at printed
      obtain ⟨node', read, printed⟩ := bind_ok printed
      cases (entryAt_live live).symm.trans read
      intro e inside
      cases present : node.entry.title with
      | none =>
        rw [present] at printed
        cases printed
      | some title =>
        rw [present] at printed
        obtain ⟨others, rest, -⟩ := bind_ok printed
        rcases List.mem_cons.mp inside with rfl | later
        · rw [present]
          exact Option.some_ne_none title
        · exact ih rest e later

private theorem chosen_selected (default : 0 ≤ head.defaultOs.toInt) (nonempty : 0 < n) :
    min head.defaultOs.toInt (n - 1) = (chosen head n : Int) := by
  unfold chosen
  omega

/-- On a serial line the entry is found, wherever it is in the list. -/
theorem serial_idle (console : Console) (stored : Stored heap self appended entries)
    (nonempty : 0 < entries.length)
    (present : heap.cells self = some head) (default : 0 ≤ head.defaultOs.toInt)
    (idle : ∀ k, console.tstc k = false) :
    (∃ lines, menuDisplaySerial heap self console = .ok (appended[chosen head entries.length]?, lines)) ↔
      ∀ e ∈ entries, e.title ≠ none := by
  obtain ⟨head', present', chain⟩ := stored.chain
  cases present.symm.trans present'
  have enough : appended.length < heap.fresh + 1 := stored.length_le.trans (Nat.lt_succ_self _)
  have selection := selection_stored stored present
  rw [chosen_selected default nonempty] at selection
  constructor
  · rintro ⟨lines, result⟩
    unfold menuDisplaySerial at result
    obtain ⟨numbers, -, result⟩ := bind_ok result
    obtain ⟨node, read, result⟩ := bind_ok result
    cases (entryAt_live present).symm.trans read
    obtain ⟨printed, print, -⟩ := bind_ok result
    exact print_titled chain print
  · intro titled
    have found :
        ((appended.zipIdx 0).find? fun e => decide ((e.2 : Int) = (chosen head entries.length : Int))).map
        Prod.fst = appended[chosen head entries.length]? := by
      rw [← find_index (i := 0) appended]
      simp only [Nat.zero_add, Int.natCast_inj]
    unfold menuDisplaySerial
    simp only [selection, entryAt_live present, print_chain chain enough titled, countdown_idle idle,
      search_chain chain enough, found, bind, Except.bind, pure, Except.pure, if_true]
    exact ⟨_, rfl⟩

/-- The delay in hundredths of a second is positive as well. -/
theorem delay_positive (delay : 0 < head.delay.toInt) (small : head.delay.toInt * 100 < 2 ^ 31) :
    ¬(head.delay * 100).toInt ≤ 0 := by
  have hundred : (100 : Word).toInt = 100 := by decide
  rw [BitVec.toInt_mul, hundred, Int.bmod_eq_of_le_mul_two (by omega) (by omega)]
  omega

/-- On the screen the entry returned is the one `display` has found. -/
theorem vga_idle (console : Console) (stored : Stored heap self appended entries)
    (nonempty : 0 < entries.length)
    (present : heap.cells self = some head) (default : 0 ≤ head.defaultOs.toInt)
    (delay : 0 < head.delay.toInt) (small : head.delay.toInt * 100 < 2 ^ 31)
    (idle : ∀ k, console.tstc k = false) :
    menuDisplay heap self { console with stdout := chars "vga" } w fuel =
      some ((heap.display self (chosen head entries.length) w).map fun shown =>
        (shown.sentry, shown.window)) := by
  have selection := selection_stored stored present
  rw [chosen_selected default nonempty] at selection
  rw [menuDisplay, if_pos rfl, menuDisplayVga]
  simp only [selection, entryAt_live present, bind, Except.bind, pure, Except.pure,
    delay_positive delay small, if_false,
    countdown_idle idle, if_true]
  cases heap.display self (chosen head entries.length) w <;> rfl

private theorem initial_scroll : Window.initial.scroll last = firstLine last := by
  have positive : ¬(last : Int) < 0 := by omega
  simp only [Window.scroll, Window.initial, firstLine, positive, if_false]
  by_cases near : last ≤ 10
  · rw [if_pos near, if_neg (by omega)]
  · rw [if_neg near, if_pos (by omega)]
    rfl

/-- The first call of `display` finds an entry if it is one of the first twelve. -/
theorem display_initial_iff (stored : Stored heap self appended entries) (inside : last < entries.length) :
    (∃ shown, heap.display self last .initial = .ok shown ∧ shown.sentry = appended[last]?) ↔
      last ≤ 11 ∧ ∀ e ∈ page (firstLine last) entries, e.Fits := by
  have lines : 0 ≤ firstLine last ∧ firstLine last ≤ last ∧ firstLine last ≤ 1 := by
    unfold firstLine
    split <;> omega
  obtain ⟨lower, above, few⟩ := lines
  have within : (Window.initial.scroll last).toNat ≤ entries.length := by
    rw [initial_scroll]
    omega
  constructor
  · rintro ⟨shown, result, sentry⟩
    have fits := display_fits stored within result
    have shows := display_page _ _ stored within fits
    rw [result] at shows
    cases shows
    rw [initial_scroll] at fits sentry
    refine ⟨?_, fits⟩
    by_contra far
    have beyond : ¬(((0 : Nat) : Int) + firstLine last ≤ last ∧
        (last : Int) < ((0 : Nat) : Int) + firstLine last +
          ((appended.drop (firstLine last).toNat).take 11).length) := by
      rw [List.length_take]
      omega
    simp only [pageShown, sentryAmong] at sentry
    rw [if_neg beyond, List.getElem?_eq_getElem (stored.length ▸ inside)] at sentry
    cases sentry
  · rintro ⟨near, fits⟩
    rw [← initial_scroll] at fits
    refine ⟨_, display_page _ _ stored within fits, ?_⟩
    rw [initial_scroll]
    have below : (last : Int) ≤ firstLine last + 10 := by
      unfold firstLine
      split <;> omega
    exact (pageShown_shows stored.length lower above below (Int.ofNat_lt.mpr inside)).sentry

/-- Without a key the front ends agree if and only if the entry to boot is one of the first
twelve, and `buff` holds the titles of the page it is on. -/
theorem front_ends_agree_iff (console : Console) (stored : Stored heap self appended entries)
    (nonempty : entries ≠ [])
    (present : heap.cells self = some head) (default : 0 ≤ head.defaultOs.toInt)
    (delay : 0 < head.delay.toInt)
    (small : head.delay.toInt * 100 < 2 ^ 31) (idle : ∀ k, console.tstc k = false) :
    BothReturn heap self console (appended[chosen head entries.length]?) ↔
      (∀ entry ∈ entries, entry.title ≠ none) ∧ chosen head entries.length ≤ 11 ∧
        ∀ entry ∈ page (firstLine (chosen head entries.length)) entries, entry.Fits := by
  have some : 0 < entries.length := List.length_pos_iff.mpr nonempty
  have inside : chosen head entries.length < entries.length := by
    unfold chosen
    omega
  rw [BothReturn, serial_idle console stored some present default idle, ← display_initial_iff stored inside]
  apply and_congr_right
  intro titled
  simp only [vga_idle console stored some present default delay small idle]
  constructor
  · rintro ⟨fuel, w, result⟩
    cases drawn : heap.display self (chosen head entries.length) .initial with
    | error fault =>
      rw [drawn] at result
      cases result
    | ok shown =>
      rw [drawn] at result
      obtain ⟨same, -⟩ := Prod.mk.inj (Except.ok.inj (Option.some.inj result))
      exact ⟨shown, rfl, same⟩
  · rintro ⟨shown, drawn, sentry⟩
    refine ⟨0, shown.window, ?_⟩
    rw [drawn, ← sentry]
    rfl

end

/-- A console on which no key is pressed. -/
def idleConsole : Console where
  stdout := chars "serial"
  tstc _ := false
  getc := 0
  videoGetKey _ := 0

/-- Of two entries the last one is chosen for a number beyond them. -/
theorem lastEntry_chosen : BothReturn (column [chars "a", chars "b"] 7) 0 idleConsole (some 2) := by
  have stored := column_stored [chars "a", chars "b"] 7
  have present : (column [chars "a", chars "b"] 7).cells 0 = some ⟨entryAlloc, 7, 5, some 1⟩ := rfl
  have agree := front_ends_agree_iff idleConsole stored (by decide) present (by decide) (by decide)
    (by decide) fun _ => rfl
  exact agree.mpr ⟨by decide, by decide, by decide⟩

/-- Of thirteen entries the last one is found on a serial line only. -/
theorem thirteenth_not_chosen :
    (∃ lines, menuDisplaySerial (column (List.replicate 13 (chars "a")) 12) 0 idleConsole =
        .ok (some 13, lines)) ∧
      ∃ w, ∀ fuel, menuDisplay (column (List.replicate 13 (chars "a")) 12) 0
        { idleConsole with stdout := chars "vga" } .initial fuel = some (.ok (none, w)) := by
  have stored : Stored (column (List.replicate 13 (chars "a")) 12) 0 _ _ := column_stored _ _
  have present : (column (List.replicate 13 (chars "a")) 12).cells 0 = some ⟨entryAlloc, 12, 5, some 1⟩ := rfl
  refine ⟨(serial_idle idleConsole stored (by decide) present (by decide) fun _ => rfl).mpr (by decide), ?_⟩
  have page := display_page 12 .initial stored (by decide) (by decide)
  refine ⟨⟨1, 11⟩, fun fuel => ?_⟩
  rw [vga_idle idleConsole stored (by decide) present (by decide) (by decide) (by decide) fun _ => rfl]
  change some ((Heap.display _ 0 12 .initial).map _) = _
  rw [page]
  rfl

end Parthenope.Menu
