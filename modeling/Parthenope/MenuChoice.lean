import Parthenope.FollowingView
import Parthenope.MenuWindow

/-! The keys pressed at the menu on the screen, from the first one to the one that ends it.
The page shown follows the entry selected by one line at a key; until it has come up to it
there is no entry to return. -/
namespace Parthenope.Menu
open CString StepLoop FollowingView

/-- A key that ends the menu. -/
def Final (key : Word) : Prop := key = 117 ∨ key = 1 ∨ key = 6

instance (key : Word) : Decidable (Final key) := inferInstanceAs (Decidable (_ ∨ _))

/-- The entry selected after so many keys. -/
def selectedAfter (max start : Int) (keys : Nat → Word) : Nat → Int
  | 0 => start
  | k + 1 => moved max (selectedAfter max start keys k) (keys k)

/-- The calls of `display` before the first key is read. -/
def Node.drawn (head : Node) : Int := if (head.delay * 100).toInt ≤ 0 then 0 else 1

/-- The keys are asked for: there is no delay, or one is pressed while it lasts. -/
def Node.Asks (head : Node) (console : Console) : Prop :=
  (head.delay * 100).toInt ≤ 0 ∨ ∃ k < (head.delay * 100).toNat, console.tstc k = true

/-- The page has come up to the entry selected. -/
def CaughtUp (first : Int) (selected : Nat → Int) (k : Nat) : Prop := ∃ j ≤ k, selected j ≤ first + j + 11

instance (first : Int) (selected : Nat → Int) (k : Nat) : Decidable (CaughtUp first selected k) :=
  inferInstanceAs (Decidable (∃ j ≤ k, _))

/-- Key `k` is the first that ends the menu. -/
def Stops (keys : Nat → Word) (k : Nat) : Prop := Final (keys k) ∧ ∀ j < k, ¬Final (keys j)

/-- What `menu_display` returns for key `k`. -/
def answer (appended : List Addr) (first : Int) (selected : Nat → Int) (key : Word) (k : Nat) : Option Addr :=
  if key ≠ 117 ∧ CaughtUp first selected k then appended[(selected k).toNat]? else none

/-- The window scrolls as a view of eleven lines from the first one on. -/
def Window.Follows (w : Window) (n : Nat) (first : Int) : Prop :=
  ∀ selected : Int, 0 ≤ selected → selected < n → w.scroll selected = follow 10 first selected

/-- The loop has come to a key with none that ends it before. -/
structure Tracks (n : Nat) (first start : Int) (keys : Nat → Word) (c : Choice) : Prop where
  selected : c.selected = selectedAfter (n - 1) start keys c.asked
  follows : c.window.Follows n (previous 10 first (selectedAfter (n - 1) start keys) c.asked)
  going : ∀ j < c.asked, ¬Final (keys j)

section
variable {heap : Heap} {self : Addr} {appended : List Addr} {entries : List Entry} {w : Window}
  {first selected max start : Int} {keys : Nat → Word} {k n : Nat} {head : Node} {console : Console} {c c' : Choice}

theorem initial_follows (n : Nat) : Window.initial.Follows n 0 := fun selected lower _ => by
  have positive : ¬selected < 0 := Int.not_lt.mpr lower
  simp only [Window.scroll, Window.initial, follow, positive, if_false, Int.zero_add, gt_iff_lt]

theorem Framed.follows (framed : Framed n w) : w.Follows n w.first := fun selected lower upper => by
  have last := framed.last
  simp only [Window.scroll, follow]
  by_cases above : selected < w.first
  · rw [if_pos above, if_pos above, if_neg (by omega)]
  · rw [if_neg above, if_neg above]
    by_cases below : selected > w.last
    · rw [if_pos below, if_pos (by omega)]
    · rw [if_neg below, if_neg (by omega)]

private theorem selectedAfter_inside (lower : 0 ≤ start) (upper : start ≤ max) (k : Nat) :
    0 ≤ selectedAfter max start keys k ∧ selectedAfter max start keys k ≤ max := by
  induction k with
  | zero => exact ⟨lower, upper⟩
  | succ k ih =>
    obtain ⟨low, high, -⟩ := moved_near (keys k) ih.1 ih.2
    exact ⟨low, high⟩

private theorem selectedAfter_steps (lower : 0 ≤ start) (upper : start ≤ max) :
    Steps (selectedAfter max start keys) := fun k => by
  obtain ⟨low, high⟩ := @selectedAfter_inside max start keys lower upper k
  obtain ⟨-, -, up, down⟩ := moved_near (keys k) low high
  exact ⟨up, down⟩

/-- The entry returned is the one selected, where the page has it. -/
theorem pageShown_sentry (same : appended.length = entries.length) (lower : 0 ≤ first)
    (upper : selected < entries.length) :
    (pageShown appended entries first selected).sentry =
      if first ≤ selected ∧ selected ≤ first + 10 then appended[selected.toNat]? else none := by
  simp only [pageShown, sentryAmong, List.length_take, List.length_drop, same]
  by_cases shown : first ≤ selected ∧ selected ≤ first + 10
  · rw [if_pos shown, if_pos (by omega), List.getElem?_take_of_lt (by omega), List.getElem?_drop]
    congr 1
    omega
  · rw [if_neg shown, if_neg (by omega)]

/-- A page of the menu is drawn. -/
theorem display_follows (stored : Stored heap self appended entries) (fits : ∀ entry ∈ entries, entry.Fits)
    (follows : w.Follows entries.length first) (inside : 0 ≤ first ∧ first ≤ entries.length - 1)
    (lower : 0 ≤ selected) (upper : selected ≤ entries.length - 1) :
    heap.display self selected w = .ok (pageShown appended entries (follow 10 first selected) selected) := by
  have page := follow_inside (by decide : (0 : Int) ≤ 10) inside ⟨lower, upper⟩
  have scrolled := follows selected lower (by omega)
  rw [← scrolled] at page ⊢
  refine display_page selected w stored (by omega) fun entry member => fits entry ?_
  exact List.mem_of_mem_drop (List.mem_of_mem_take member)

end

section
variable {heap : Heap} {self : Addr} {appended : List Addr} {entries : List Entry} {first max start : Int}
  {keys : Nat → Word} {c : Choice} {w : Window}

/-- The display in a turn of the loop. -/
theorem tracks_display (stored : Stored heap self appended entries) (fits : ∀ entry ∈ entries, entry.Fits)
    (inside : 0 ≤ first ∧ first ≤ entries.length - 1) (selects : 0 ≤ start ∧ start ≤ entries.length - 1)
    (tracks : Tracks entries.length first start keys c) :
    heap.display self c.selected c.window = .ok (pageShown appended entries
      (view 10 first (selectedAfter (entries.length - 1) start keys) c.asked) c.selected) := by
  have lines := @selectedAfter_inside _ _ keys selects.1 selects.2
  have page := previous_inside (by decide : (0 : Int) ≤ 10) inside lines c.asked
  rw [← follow_previous, ← tracks.selected]
  have here := lines c.asked
  rw [← tracks.selected] at here
  exact display_follows stored fits tracks.follows page here.1 here.2

private theorem tracks_turn (stored : Stored heap self appended entries) (fits : ∀ entry ∈ entries, entry.Fits)
    (inside : 0 ≤ first ∧ first ≤ entries.length - 1) (selects : 0 ≤ start ∧ start ≤ entries.length - 1)
    (tracks : Tracks entries.length first start keys c) (more : ¬Final (keys c.asked)) :
    ∃ c', keyTurn heap self (entries.length - 1) keys c = .inr c' ∧ c'.asked = c.asked + 1 ∧
      Tracks entries.length first start keys c' := by
  have page := previous_inside (by decide : (0 : Int) ≤ 10) inside (@selectedAfter_inside _ _ keys selects.1 selects.2)
    (c.asked + 1)
  have framed := @pageShown_framed entries _ appended c.selected page.1 (by omega)
  have other : keys c.asked ≠ 117 := fun same => more (.inl same)
  have none : ¬(keys c.asked = 1 ∨ keys c.asked = 6) := fun accepts => more (.inr accepts)
  have turned : keyTurn heap self (entries.length - 1) keys c =
      .inr ⟨moved (entries.length - 1) c.selected (keys c.asked),
      (pageShown appended entries (view 10 first (selectedAfter (entries.length - 1) start keys)
        c.asked) c.selected).window,
      c.asked + 1⟩ := by
    rw [keyTurn, tracks_display stored fits inside selects tracks]
    dsimp only
    rw [if_neg other, if_neg none]
  refine ⟨_, turned, rfl, ?_, framed.follows, ?_⟩
  · rw [tracks.selected]
    rfl
  · intro j earlier
    rcases Nat.lt_succ_iff_lt_or_eq.mp earlier with behind | rfl
    · exact tracks.going j behind
    · exact more

/-- The entry selected is on the page once that has come up to it. -/
theorem inView_iff_caughtUp (selects : 0 ≤ start ∧ start ≤ max) (above : first - 1 ≤ start) (k : Nat) :
    InView 10 (view 10 first (selectedAfter max start keys) k) (selectedAfter max start keys k) ↔
      CaughtUp first (selectedAfter max start keys) k := by
  rw [inView_iff (by decide) (selectedAfter_steps selects.1 selects.2) above]
  refine exists_congr fun j => and_congr_right fun _ => ?_
  omega

/-- The key that ends the menu. -/
theorem tracks_stop (stored : Stored heap self appended entries) (fits : ∀ entry ∈ entries, entry.Fits)
    (inside : 0 ≤ first ∧ first ≤ entries.length - 1) (selects : 0 ≤ start ∧ start ≤ entries.length - 1)
    (above : first - 1 ≤ start) (tracks : Tracks entries.length first start keys c) (stops : Final (keys c.asked)) :
    ∃ w, keyTurn heap self (entries.length - 1) keys c = .inl (.ok (answer appended first
      (selectedAfter (entries.length - 1) start keys) (keys c.asked) c.asked, w)) := by
  have lines := @selectedAfter_inside _ _ keys selects.1 selects.2
  have page := previous_inside (by decide : (0 : Int) ≤ 10) inside lines (c.asked + 1)
  have upper : c.selected < entries.length := by
    rw [tracks.selected]
    exact Int.lt_of_le_sub_one (lines c.asked).2
  have sentry := pageShown_sentry stored.length page.1 upper
  rw [keyTurn, tracks_display stored fits inside selects tracks, answer]
  dsimp only
  by_cases leaves : keys c.asked = 117
  · rw [if_pos leaves, if_neg fun both => both.1 leaves]
    exact ⟨_, rfl⟩
  · rw [if_neg leaves, if_pos (stops.resolve_left leaves)]
    refine ⟨_, congrArg (fun entry => Sum.inl (Except.ok (entry, _))) (sentry.trans ?_)⟩
    rw [previous, tracks.selected]
    exact if_congr ((inView_iff_caughtUp selects above c.asked).trans (and_iff_right leaves).symm) rfl rfl

/-- The loop ends at the first key that does, and only there. -/
theorem keys_run_iff (stored : Stored heap self appended entries) (fits : ∀ entry ∈ entries, entry.Fits)
    (inside : 0 ≤ first ∧ first ≤ entries.length - 1) (selects : 0 ≤ start ∧ start ≤ entries.length - 1)
    (above : first - 1 ≤ start) (follows : w.Follows entries.length first)
    (result : Except DisplayFault (Option Addr)) :
    (∃ fuel w', run (keyTurn heap self (entries.length - 1) keys) fuel ⟨start, w, 0⟩ =
      some (result.map fun r => (r, w'))) ↔
      ∃ k, Stops keys k ∧
        result = .ok (answer appended first (selectedAfter (entries.length - 1) start keys) (keys k) k) := by
  have begins : Tracks entries.length first start keys ⟨start, w, 0⟩ :=
    ⟨rfl, follows, fun j none => absurd none (Nat.not_lt_zero j)⟩
  constructor
  · rintro ⟨fuel, w', ran⟩
    obtain ⟨c, reached, ends⟩ := run_exit ran
    have tracks : Tracks entries.length first start keys c := by
      refine reached.invariant _ (fun c c' tracks turn => ?_) begins
      by_cases stops : Final (keys c.asked)
      · obtain ⟨w, stopped⟩ := tracks_stop stored fits inside selects above tracks stops
        rw [turn] at stopped
        cases stopped
      · obtain ⟨next, turned, -, tracks⟩ := tracks_turn stored fits inside selects tracks stops
        rw [turn] at turned
        cases turned
        exact tracks
    by_cases stops : Final (keys c.asked)
    · obtain ⟨w, stopped⟩ := tracks_stop stored fits inside selects above tracks stops
      refine ⟨c.asked, ⟨stops, tracks.going⟩, ?_⟩
      rw [ends] at stopped
      cases result with
      | error fault => cases stopped
      | ok entry =>
        cases stopped
        rfl
    · obtain ⟨next, turned, -⟩ := tracks_turn stored fits inside selects tracks stops
      rw [ends] at turned
      cases turned
  · rintro ⟨k, ⟨stops, going⟩, rfl⟩
    have comes (j : Nat) (upTo : j ≤ k) : ∃ c, c.asked = j ∧
        Reaches (keyTurn heap self (entries.length - 1) keys) ⟨start, w, 0⟩ c ∧
          Tracks entries.length first start keys c := by
      induction j with
      | zero => exact ⟨_, rfl, .start _, begins⟩
      | succ j ih =>
        obtain ⟨c, rfl, reached, tracks⟩ := ih (Nat.le_of_succ_le upTo)
        obtain ⟨c', turned, asked, tracks⟩ := tracks_turn stored fits inside selects tracks (going _ upTo)
        exact ⟨c', asked, .turn reached turned, tracks⟩
    obtain ⟨c, rfl, reached, tracks⟩ := comes k le_rfl
    obtain ⟨w', stopped⟩ := tracks_stop stored fits inside selects above tracks stops
    obtain ⟨fuel, ran⟩ := run_reaches (n := 1) reached (run_ends stopped)
    exact ⟨fuel, w', ran⟩

private theorem countdown_pressed {tstc : Nat → Bool} {i k delay : Nat} (pressed : tstc (i + k) = true)
    (lasts : k < delay) :
    countdown tstc i delay ≠ 0 := by
  induction delay generalizing i k with
  | zero => cases lasts
  | succ delay ih =>
    rw [countdown]
    by_cases here : tstc i = true
    · rw [if_pos here]
      exact Nat.succ_ne_zero delay
    · rw [if_neg here]
      cases k with
      | zero => exact absurd pressed here
      | succ k =>
        refine ih (k := k) ?_ (Nat.lt_of_succ_lt_succ lasts)
        rwa [Nat.add_assoc, Nat.add_comm 1 k]

/-- A call of `display` before the first key counts as one key more. -/
theorem answer_drawn (lower : 0 ≤ start) (key : Word) (k : Nat) :
    answer appended (follow 10 0 start) (selectedAfter max start keys) key k =
      answer appended 1 (selectedAfter max start keys) key k := by
  refine if_congr (and_congr_right fun _ => ?_) rfl rfl
  by_cases far : 0 + 10 < start
  · rw [follow_behind (by decide) far, Int.zero_add]
  · have at_once (first : Int) (line : 0 ≤ first) : CaughtUp first (selectedAfter max start keys) k :=
      ⟨0, Nat.zero_le k, by rw [selectedAfter]; omega⟩
    have first : 0 ≤ follow 10 0 start := (follow_inside (by decide) ⟨le_rfl, lower⟩ ⟨lower, le_rfl⟩).1
    exact ⟨fun _ => at_once 1 (by decide), fun _ => at_once _ first⟩

/-- On the screen the menu returns for the first key that ends it, and for no other. For a key
that accepts it is the entry selected by the keys before, if the page has come up to that,
and no entry if it has not. -/
theorem screen_returns_iff {head : Node} {console : Console} (stored : Stored heap self appended entries)
    (nonempty : entries ≠ []) (present : heap.cells self = some head) (default : 0 ≤ head.defaultOs.toInt)
    (fits : ∀ entry ∈ entries, entry.Fits) (screen : console.stdout = chars "vga") (asks : head.Asks console)
    (result : Except DisplayFault (Option Addr)) :
    (∃ fuel w, menuDisplay heap self console .initial fuel = some (result.map fun entry => (entry, w))) ↔
      ∃ k, Stops console.videoGetKey k ∧ result = .ok (answer appended head.drawn
        (selectedAfter (entries.length - 1) (min head.defaultOs.toInt (entries.length - 1)) console.videoGetKey)
        (console.videoGetKey k) k) := by
  have some : 0 < entries.length := List.length_pos_iff.mpr nonempty
  have selection := selection_stored stored present
  generalize named : min head.defaultOs.toInt ((entries.length : Int) - 1) = start at selection ⊢
  have selects : 0 ≤ start ∧ start ≤ entries.length - 1 := by omega
  have top : (0 : Int) ≤ 0 ∧ (0 : Int) ≤ entries.length - 1 := by omega
  unfold menuDisplay menuDisplayVga
  simp only [screen, if_true, selection, entryAt_live present, bind, Except.bind, pure, Except.pure]
  rw [Node.drawn]
  by_cases now : (head.delay * 100).toInt ≤ 0
  · simp only [now, if_true]
    exact keys_run_iff stored fits top selects (by omega) (initial_follows _) result
  · have first := follow_inside (by decide : (0 : Int) ≤ 10) top selects
    have shown := display_follows stored fits (initial_follows _) top selects.1 selects.2
    obtain ⟨k, lasts, pressed⟩ := asks.resolve_left now
    have waits : countdown console.tstc 0 (head.delay * 100).toNat ≠ 0 :=
      countdown_pressed (by rwa [Nat.zero_add]) lasts
    have framed : Framed entries.length (pageShown appended entries (follow 10 0 start) start).window :=
      pageShown_framed appended start first.1 (by omega)
    have above : follow 10 0 start - 1 ≤ start := follow_above (by omega)
    simp only [now, if_false, shown, waits]
    rw [keys_run_iff stored fits first selects above framed.follows]
    simp only [answer_drawn selects.1]

end

/-- A console on which a key stops the countdown at once and then so many keys are pressed
before the one that accepts. -/
def pressConsole (key : Word) (times : Nat) : Console where
  stdout := chars "vga"
  tstc _ := true
  getc := 0
  videoGetKey k := if k < times then key else 1

/-- The last of fourteen entries is two lines below the page; the key for the entry before it
brings that one into it. -/
theorem entryBefore_returned : ∃ fuel w, menuDisplay (column (List.replicate 14 (chars "a")) 13) 0
    (pressConsole 4 1) .initial fuel = some (.ok (some 13, w)) := by
  have present : (column (List.replicate 14 (chars "a")) 13).cells 0 = some ⟨entryAlloc, 13, 5, some 1⟩ := rfl
  have asks : Node.Asks ⟨entryAlloc, 13, 5, some 1⟩ (pressConsole 4 1) := .inr ⟨0, by decide, rfl⟩
  refine (screen_returns_iff (column_stored _ _) (by decide) present (by decide) (by decide) rfl asks
    (.ok (some 13))).mpr ?_
  exact ⟨1, ⟨by decide, by decide⟩, by decide⟩

end Parthenope.Menu
