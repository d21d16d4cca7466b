import Parthenope.MenuDisplay
import Parthenope.MenuLoad

/-! The window of entries that `display` shows. It moves by one line at a call, and so does
the entry selected: where that is shown once it is shown ever after. -/
namespace Parthenope.Menu
open CString LinkedList StepLoop

/-- The entries from a pointer on, and where they are. -/
inductive Chain (heap : Heap) : Option Addr → List Addr → List Entry → Prop
  | nil : Chain heap none [] []
  | cons {a : Addr} {node : Node} {addrs : List Addr} {entries : List Entry} : heap.cells a = some node →
      Chain heap node.next addrs entries → Chain heap (some a) (a :: addrs) (node.entry :: entries)

/-- The title of an entry is there, and `buff` holds it. -/
def Entry.Fits (entry : Entry) : Prop := ∃ title, entry.title = some title ∧ title.length + 2 ≤ buffSize

/-- An entry as the box shows it. -/
def Entry.label (entry : Entry) : List Byte := blank :: entry.title.getD []

/-- The entries in the box from one on. -/
def page (first : Int) (entries : List Entry) : List Entry := (entries.drop first.toNat).take 11

section
variable {heap : Heap} {o sentry : Option Addr} {a self : Addr} {addrs l : List Addr} {entries : List Entry}
  {entry : Entry} {head : Node} {first selected max : Int} {room i n fuel : Nat}

theorem Chain.length (chain : Chain heap o addrs entries) : addrs.length = entries.length := by
  induction chain with
  | nil => rfl
  | cons _ _ ih => rw [List.length_cons, List.length_cons, ih]

private theorem chain_of_spells (spells : Spells heap.link a l)
    (holds : l.map (fun a => (heap.cells a).map Node.entry) = entries.map some) :
    Chain heap (some a) l entries := by
  induction spells generalizing entries with
  | last ends =>
    obtain ⟨node, present, next⟩ := Option.map_eq_some_iff.mp ends
    cases entries with
    | nil => cases holds
    | cons entry rest =>
      simp only [List.map_cons, List.map_nil, present, Option.map_some, List.cons.injEq,
        Option.some.injEq] at holds
      obtain ⟨rfl, empty⟩ := holds
      cases List.map_eq_nil_iff.mp empty.symm
      exact .cons present (next ▸ .nil)
  | more linked _ ih =>
    obtain ⟨node, present, next⟩ := Option.map_eq_some_iff.mp linked
    cases entries with
    | nil => cases holds
    | cons entry rest =>
      simp only [List.map_cons, present, Option.map_some, List.cons.injEq, Option.some.injEq] at holds
      obtain ⟨rfl, others⟩ := holds
      exact .cons present (next ▸ ih others)

theorem entryAt_live (live : heap.cells a = some head) : heap.entryAt (some a) = .ok head := by
  simp only [Heap.entryAt, live]

private theorem titleText_fits (fits : entry.Fits) : titleText entry.title = .ok entry.label := by
  obtain ⟨title, present, short⟩ := fits
  simp [titleText, Entry.label, present, Nat.not_lt.mpr short]

private theorem fits_of_text {buff : List Byte} (spelled : titleText entry.title = .ok buff) : entry.Fits := by
  cases present : entry.title with
  | none =>
    rw [present] at spelled
    cases spelled
  | some title =>
    rw [present, titleText] at spelled
    by_cases long : buffSize < title.length + 2
    · rw [if_pos long] at spelled
      cases spelled
    · exact ⟨title, present, Nat.not_lt.mp long⟩

/-- The rows for entries, from row `i` on. -/
def pageRows (first selected : Int) (i : Nat) (entries : List Entry) : List Text :=
  (entries.zipIdx i).map fun e => rowText first selected e.2 e.1.label

/-- The entry selected, where it is among those from row `i` on. -/
def sentryAmong (first selected : Int) (i : Nat) (addrs : List Addr) (sentry : Option Addr) : Option Addr :=
  if i + first ≤ selected ∧ selected < i + first + addrs.length then addrs[(selected - (i + first)).toNat]?
  else sentry

private theorem skip_chain (live : heap.cells self = some head) (chain : Chain heap head.next addrs entries)
    (inside : n ≤ addrs.length) :
    ∃ o node, heap.skip n (some self) = .ok o ∧ heap.entryAt o = .ok node ∧
      Chain heap node.next (addrs.drop n) (entries.drop n) := by
  induction n generalizing self head addrs entries with
  | zero => exact ⟨some self, head, rfl, entryAt_live live, chain⟩
  | succ n ih =>
    cases next : head.next with
    | none =>
      rw [next] at chain
      cases chain
      cases inside
    | some b =>
      rw [next] at chain
      cases chain with
      | cons live' rest =>
        obtain ⟨o, node, skipped, read, further⟩ := ih live' rest (Nat.le_of_succ_le_succ inside)
        refine ⟨o, node, ?_, read, further⟩
        simp only [Heap.skip, entryAt_live live, bind, Except.bind, next]
        exact skipped

private theorem sentryAmong_cons :
    sentryAmong first selected (i + 1) l (if i + first = selected then some a else sentry) =
    sentryAmong first selected i (a :: l) sentry := by
  unfold sentryAmong
  rw [List.length_cons]
  rcases lt_trichotomy (i + first) selected with above | here | below
  · rw [if_neg (Int.ne_of_lt above)]
    obtain ⟨k, distance⟩ : ∃ k : Nat, selected - (i + first) = k + 1 :=
      ⟨(selected - (i + first) - 1).toNat, by omega⟩
    have further : selected - ((i + 1 : Nat) + first) = k := by omega
    rw [further, distance, Int.toNat_natCast, show ((k : Int) + 1).toNat = k + 1 from rfl,
      List.getElem?_cons_succ]
    congr 1
    apply propext
    omega
  · rw [if_pos here, if_neg (by omega), if_pos (by omega), show selected - (i + first) = 0 by omega]
    rfl
  · rw [if_neg (Int.ne_of_gt below), if_neg (by omega), if_neg (by omega)]

/-- Where the titles fit, the rows are drawn and the entry selected is found among them. -/
theorem draw_chain (first selected : Int) (i : Nat) (sentry : Option Addr) (chain : Chain heap o addrs entries)
    (fits : ∀ e ∈ entries.take room, e.Fits) :
    heap.drawRows first selected room i o sentry =
      .ok (pageRows first selected i (entries.take room),
        sentryAmong first selected i (addrs.take room) sentry) := by
  have blank : sentryAmong first selected i [] sentry = sentry := if_neg (by rw [List.length_nil]; omega)
  induction room generalizing o addrs entries i sentry with
  | zero =>
    rw [List.take_zero, List.take_zero, blank]
    rfl
  | succ room ih =>
    cases chain with
    | nil =>
      rw [List.take_nil, List.take_nil, blank]
      rfl
    | @cons a node addrs entries live rest =>
      have here : node.entry.Fits := fits _ (by simp)
      have others : ∀ e ∈ entries.take room, e.Fits := fun e inside => fits e (by simp [inside])
      have drawn := ih (i + 1) (if i + first = selected then some a else sentry) rest others
        (if_neg (by rw [List.length_nil]; omega))
      simp only [Heap.drawRows, entryAt_live live, titleText_fits here, drawn, bind, Except.bind, pure,
        Except.pure,
        List.take_succ_cons, sentryAmong_cons]
      rfl

/-- No row is drawn for a title that does not fit. -/
theorem draw_fits (chain : Chain heap o addrs entries) {drawn : List Text × Option Addr}
    (result : heap.drawRows first selected room i o sentry = .ok drawn) :
    ∀ e ∈ entries.take room, e.Fits := by
  induction room generalizing o addrs entries i sentry drawn with
  | zero => exact fun e inside => absurd inside (by simp)
  | succ room ih =>
    cases chain with
    | nil => exact fun e inside => absurd inside (by simp)
    | cons live rest =>
      unfold Heap.drawRows at result
      obtain ⟨node, read, result⟩ := bind_ok result
      obtain ⟨buff, spelled, result⟩ := bind_ok result
      obtain ⟨others, further, -⟩ := bind_ok result
      cases (entryAt_live live).symm.trans read
      intro e inside
      rw [List.take_succ_cons] at inside
      rcases List.mem_cons.mp inside with rfl | later
      · exact fits_of_text spelled
      · exact ih rest further e later

end

section
variable {heap : Heap} {self : Addr} {appended : List Addr} {entries : List Entry} {w : Window}
  {selected max : Int}
  {shown : Shown} {keys : Nat → Word} {c c' : Choice}

theorem Stored.chain (stored : Stored heap self appended entries) :
    ∃ head, heap.cells self = some head ∧ Chain heap head.next appended entries := by
  have spelled := stored.lists.spelled
  have live := spelled.live self List.mem_cons_self
  obtain ⟨head, present⟩ : ∃ head, heap.cells self = some head := by
    cases found : heap.cells self with
    | none => exact absurd (by rw [Heap.link, found, Option.map_none]) live
    | some head => exact ⟨head, rfl⟩
  refine ⟨head, present, ?_⟩
  have holds : (self :: appended).map (fun a => (heap.cells a).map Node.entry) =
      (head.entry :: entries).map some := by
    rw [List.map_cons, List.map_cons, stored.entries, present, Option.map_some]
  have whole := chain_of_spells spelled holds
  generalize named : head.entry :: entries = all at whole
  cases whole with
  | cons present' rest =>
    cases present.symm.trans present'
    cases (List.cons.inj named).2
    exact rest

theorem Stored.length (stored : Stored heap self appended entries) : appended.length = entries.length := by
  obtain ⟨head, -, chain⟩ := stored.chain
  exact chain.length

/-- What `display` shows of a menu whose titles fit. -/
def pageShown (appended : List Addr) (entries : List Entry) (first selected : Int) : Shown where
  sentry := sentryAmong first selected 0 ((appended.drop first.toNat).take 11) none
  rows := pageRows first selected 0 (page first entries)
  window := ⟨first, first + (page first entries).length - 1⟩

theorem display_page (selected : Int) (w : Window) (stored : Stored heap self appended entries)
    (inside : (w.scroll selected).toNat ≤ entries.length)
    (fits : ∀ e ∈ page (w.scroll selected) entries, e.Fits) :
    heap.display self selected w = .ok (pageShown appended entries (w.scroll selected) selected) := by
  obtain ⟨head, present, chain⟩ := stored.chain
  obtain ⟨o, node, skipped, read, rest⟩ := skip_chain present chain (stored.length ▸ inside)
  have drawn := draw_chain (w.scroll selected) selected 0 none rest fits
  unfold Heap.display
  simp only [skipped, read, drawn, bind, Except.bind, pure, Except.pure, pageShown, pageRows, List.length_map,
    List.length_zipIdx, page]

theorem display_fits (stored : Stored heap self appended entries)
    (inside : (w.scroll selected).toNat ≤ entries.length)
    (result : heap.display self selected w = .ok shown) :
    ∀ e ∈ page (w.scroll selected) entries, e.Fits := by
  obtain ⟨head, present, chain⟩ := stored.chain
  obtain ⟨o, node, skipped, read, rest⟩ := skip_chain present chain (stored.length ▸ inside)
  unfold Heap.display at result
  obtain ⟨self', skipped', result⟩ := bind_ok result
  cases skipped.symm.trans skipped'
  obtain ⟨node', read', result⟩ := bind_ok result
  cases read.symm.trans read'
  obtain ⟨drawn, result, -⟩ := bind_ok result
  exact draw_fits rest result

end

/-- What a call of `display` shows: a page of entries from `first` on with the one
selected among them, which is the only one lit and the one returned. -/
structure Shows (appended : List Addr) (entries : List Entry) (selected : Int) (shown : Shown) : Prop where
  first : 0 ≤ shown.window.first
  above : shown.window.first ≤ selected
  below : selected ≤ shown.window.last
  size : shown.window.last = shown.window.first + shown.rows.length - 1
  texts : shown.rows.map Text.text = (page shown.window.first entries).map Entry.label
  lit : ∀ (i : Nat) (row : Text), shown.rows[i]? = some row →
    row.y = 8 + i ∧ row.attr = if i + shown.window.first = selected then 2 else 0
  sentry : shown.sentry = appended[selected.toNat]?

/-- The window of a menu with `n` entries, as a call of `display` leaves it. -/
structure Framed (n : Nat) (w : Window) : Prop where
  first : 0 ≤ w.first
  inside : w.first < n
  last : w.last = min (w.first + 10) (n - 1)

/-- The entry selected is in the window or next to it. -/
structure Near (n : Nat) (selected : Int) (w : Window) : Prop where
  framed : Framed n w
  lower : 0 ≤ selected
  upper : selected < n
  above : w.first - 1 ≤ selected
  below : selected ≤ w.last + 1

section
variable {heap : Heap} {self : Addr} {appended : List Addr} {entries : List Entry} {w : Window}
  {first selected max : Int} {shown : Shown} {key : Word} {keys : Nat → Word} {c c' : Choice} {n : Nat}

/-- The window scrolls to the entry selected. -/
theorem Near.scrolled (near : Near n selected w) :
    0 ≤ w.scroll selected ∧ w.scroll selected ≤ selected ∧ selected ≤ w.scroll selected + 10 := by
  obtain ⟨⟨first, inside, last⟩, lower, upper, above, below⟩ := near
  simp only [Window.scroll]
  split <;> split <;> omega

theorem moved_near (key : Word) (lower : 0 ≤ selected) (upper : selected ≤ max) :
    0 ≤ moved max selected key ∧ moved max selected key ≤ max ∧
      selected - 1 ≤ moved max selected key ∧
      moved max selected key ≤ selected + 1 := by
  simp only [moved]
  split <;> split <;> omega

private theorem page_length (first : Int) (entries : List Entry) :
    (page first entries).length = min 11 (entries.length - first.toNat) := by
  rw [page, List.length_take, List.length_drop]

theorem pageShown_framed (appended : List Addr) (selected : Int) (lower : 0 ≤ first)
    (inside : first < entries.length) :
    Framed entries.length (pageShown appended entries first selected).window := by
  refine ⟨lower, inside, ?_⟩
  dsimp only [pageShown]
  rw [page_length]
  omega

theorem pageShown_shows (same : appended.length = entries.length) (lower : 0 ≤ first)
    (above : first ≤ selected)
    (below : selected ≤ first + 10) (upper : selected < entries.length) :
    Shows appended entries selected (pageShown appended entries first selected) := by
  have framed := pageShown_framed appended selected lower (above.trans_lt upper)
  constructor
  · exact lower
  · exact above
  · rw [framed.last]
    change selected ≤ min (first + 10) (entries.length - 1)
    omega
  · simp only [pageShown, pageRows, List.length_map, List.length_zipIdx]
  · have labels : Text.text ∘ (fun e : Entry × Nat => rowText first selected e.2 e.1.label) =
        Entry.label ∘ Prod.fst := rfl
    simp only [pageShown, pageRows, List.map_map]
    rw [labels, ← List.map_map, List.zipIdx_map_fst]
  · intro i row shown
    simp only [pageShown, pageRows, List.getElem?_map, List.getElem?_zipIdx, Option.map_eq_some_iff] at shown
    obtain ⟨-, ⟨entry, -, rfl⟩, rfl⟩ := shown
    rw [Nat.zero_add]
    exact ⟨rfl, rfl⟩
  · simp only [pageShown, sentryAmong, List.length_take, List.length_drop, same]
    rw [if_pos (by omega), List.getElem?_take_of_lt (by omega), List.getElem?_drop]
    congr 1
    omega

/-- Where `display` shows something it shows the page it scrolls to. -/
theorem display_near (stored : Stored heap self appended entries) (near : Near entries.length selected w)
    (result : heap.display self selected w = .ok shown) :
    shown = pageShown appended entries (w.scroll selected) selected := by
  obtain ⟨lower, above, -⟩ := near.scrolled
  have upper := near.upper
  have inside : (w.scroll selected).toNat ≤ entries.length := by omega
  have page := display_page _ _ stored inside (display_fits stored inside result)
  rw [result] at page
  exact Except.ok.inj page

/-- A key keeps the entry selected in the window or next to it. -/
theorem keyTurn_near (stored : Stored heap self appended entries)
    (near : Near entries.length c.selected c.window)
    (turn : keyTurn heap self (entries.length - 1) keys c = .inr c') :
    Near entries.length c'.selected c'.window := by
  obtain ⟨lower, above, below⟩ := near.scrolled
  have upper := near.upper
  unfold keyTurn at turn
  cases result : heap.display self c.selected c.window with
  | error fault =>
    rw [result] at turn
    cases turn
  | ok shown =>
    have framed := pageShown_framed appended c.selected lower (above.trans_lt upper)
    rw [result, display_near stored near result] at turn
    dsimp only at turn
    split at turn
    · cases turn
    · split at turn
      · cases turn
      · cases turn
        obtain ⟨low, high, up, down⟩ := moved_near (keys c.asked) near.lower (Int.le_sub_one_of_lt upper)
        have last := framed.last
        change _ = min (c.window.scroll c.selected + 10) _ at last
        refine ⟨framed, low, ?_, ?_, ?_⟩
        · change moved _ _ _ < _
          omega
        · change c.window.scroll c.selected - 1 ≤ moved _ _ _
          omega
        · change moved _ _ _ ≤ (pageShown appended entries _ c.selected).window.last + 1
          rw [last]
          omega

/-- An accepting key returns what is shown as selected. -/
theorem keyTurn_accepts (result : heap.display self c.selected c.window = .ok shown)
    (accepts : keys c.asked = 1 ∨ keys c.asked = 6) :
    keyTurn heap self max keys c = .inl (.ok (shown.sentry, shown.window)) := by
  have other : keys c.asked ≠ 117 := by rcases accepts with one | six <;> simp [*]
  rw [keyTurn, result]
  dsimp only
  rw [if_neg other, if_pos accepts]

private theorem display_first (result : heap.display self selected w = .ok shown) :
    shown.window.first = w.scroll selected := by
  obtain ⟨o, -, result⟩ := bind_ok result
  obtain ⟨node, -, result⟩ := bind_ok result
  obtain ⟨drawn, -, result⟩ := bind_ok result
  cases result
  rfl

/-- The window that a call of `display` leaves is as long as the menu allows. -/
theorem left_framed (stored : Stored heap self appended entries)
    (result : heap.display self selected w = .ok shown)
    (lower : 0 ≤ shown.window.first) (inside : shown.window.first < entries.length) :
    Framed entries.length shown.window := by
  rw [display_first result] at lower inside
  have within : (w.scroll selected).toNat ≤ entries.length := by omega
  have page := display_page _ _ stored within (display_fits stored within result)
  rw [result] at page
  cases page
  exact pageShown_framed appended selected lower inside

private theorem countMax_chain {o : Option Addr} {addrs : List Addr} {fuel : Nat} (max : Int)
    (chain : Chain heap o addrs entries)
    (enough : addrs.length < fuel) : heap.countMax fuel o max = .ok (max + addrs.length) := by
  induction chain generalizing fuel max with
  | nil =>
    obtain ⟨fuel, rfl⟩ := Nat.exists_eq_succ_of_ne_zero (Nat.ne_of_gt enough)
    exact congrArg Except.ok (Int.add_zero max).symm
  | cons live _ ih =>
    obtain ⟨fuel, rfl⟩ := Nat.exists_eq_succ_of_ne_zero (Nat.ne_of_gt (Nat.zero_lt_of_lt enough))
    have rest := ih (max + 1) (Nat.lt_of_succ_lt_succ enough)
    simp only [Heap.countMax, entryAt_live live, bind, Except.bind, rest, List.length_cons]
    congr 1
    omega

/-- The last entry of the menu bounds the selection. -/
theorem selection_stored (stored : Stored heap self appended entries) {head : Node}
    (present : heap.cells self = some head) :
    heap.selection self = .ok (entries.length - 1, min head.defaultOs.toInt (entries.length - 1)) := by
  obtain ⟨head', present', chain⟩ := stored.chain
  cases present.symm.trans present'
  have enough : (self :: appended).length < heap.fresh + 2 :=
    Nat.succ_lt_succ (Nat.lt_succ_of_lt stored.length_le)
  have counted := countMax_chain (-2) (.cons present chain) enough
  have last : -2 + ((self :: appended).length : Int) = entries.length - 1 := by
    rw [List.length_cons, stored.length]
    omega
  rw [last] at counted
  simp only [Heap.selection, counted, entryAt_live present, bind, Except.bind, pure, Except.pure]
  rfl

/-- In every state that keys lead to from a window that shows the entry selected, `display`
shows it again, and an accepting key returns it, if and only if the titles of its page fit. -/
theorem selection_stays_shown_iff {start : Int} (stored : Stored heap self appended entries)
    (counted : heap.selection self = .ok (max, start))
    (left : ∃ selected w shown, heap.display self selected w = .ok shown ∧ shown.window = c.window)
    (first : 0 ≤ c.window.first) (above : c.window.first ≤ c.selected)
    (below : c.selected ≤ c.window.last)
    (upper : c.selected < entries.length) (reached : Reaches (keyTurn heap self max keys) c c') :
    0 ≤ c'.selected ∧ c'.selected < entries.length ∧
      ((∃ shown, heap.display self c'.selected c'.window = .ok shown ∧
        Shows appended entries c'.selected shown ∧
          (keys c'.asked = 1 ∨ keys c'.asked = 6 →
            keyTurn heap self max keys c' = .inl (.ok (appended[c'.selected.toNat]?, shown.window)))) ↔
        ∀ entry ∈ page (c'.window.scroll c'.selected) entries, entry.Fits) := by
  obtain ⟨head, present, -⟩ := stored.chain
  cases (selection_stored stored present).symm.trans counted
  obtain ⟨selected, w, shown, result, same⟩ := left
  have framed : Framed entries.length c.window := by
    rw [← same] at first above ⊢
    exact left_framed stored result first (above.trans_lt upper)
  have near : Near entries.length c'.selected c'.window := by
    refine reached.invariant (fun c => Near entries.length c.selected c.window) ?_ ?_
    · exact fun c c' near turn => keyTurn_near stored near turn
    · exact ⟨framed, first.trans above, upper, by omega, by omega⟩
  obtain ⟨lower, above', below'⟩ := near.scrolled
  have upper' := near.upper
  have inside : (c'.window.scroll c'.selected).toNat ≤ entries.length := by omega
  refine ⟨near.lower, near.upper, ?_, ?_⟩
  · rintro ⟨shown, result, -⟩
    exact display_fits stored inside result
  · intro fits
    have result := display_page _ _ stored inside fits
    have shows := pageShown_shows stored.length lower above' below' near.upper
    refine ⟨_, result, shows, fun accepts => ?_⟩
    rw [keyTurn_accepts result accepts, shows.sentry]

end

/-- A menu with these titles. -/
def column (titles : List (List Byte)) (defaultOs : Word) : Heap where
  cells a :=
    let next := if a < titles.length then some (a + 1) else none
    match a with
    | 0 => some ⟨entryAlloc, defaultOs, 5, next⟩
    | a + 1 => titles[a]?.map fun title => ⟨{ entryAlloc with title := some title }, 0, 0, next⟩
  fresh := titles.length + 1

def column.entries (titles : List (List Byte)) : List Entry :=
  titles.map fun title => { entryAlloc with title := some title }

section
variable {titles : List (List Byte)} {defaultOs : Word} {a k : Nat}

private theorem column_link (defaultOs : Word) (within : a ≤ titles.length) :
    (column titles defaultOs).link a = some (if a < titles.length then some (a + 1) else none) := by
  cases a with
  | zero => rfl
  | succ a => simp [Heap.link, column, List.getElem?_eq_getElem within]

private theorem column_spells (whole : a + k = titles.length) :
    Spells (column titles defaultOs).link a (List.range' a (k + 1)) := by
  have link := column_link defaultOs (Nat.le.intro whole)
  induction k generalizing a with
  | zero =>
    apply Spells.last
    rw [link, if_neg (by omega)]
  | succ k ih =>
    rw [if_pos (by omega)] at link
    exact .more link (ih (by omega) (column_link defaultOs (by omega)))

theorem column_stored (titles : List (List Byte)) (defaultOs : Word) :
    Stored (column titles defaultOs) 0 (List.range' 1 titles.length) (column.entries titles) := by
  refine ⟨⟨column_spells (Nat.zero_add _), ?_⟩, ?_⟩
  · intro a unused
    obtain ⟨a, rfl⟩ := Nat.exists_eq_succ_of_ne_zero (Nat.ne_of_gt (Nat.zero_lt_of_lt unused))
    have beyond : titles[a]? = none := List.getElem?_eq_none (Nat.le_of_succ_le_succ unused)
    simp only [column, beyond, Option.map_none]
  · apply List.ext_getElem?
    intro k
    simp only [column.entries, List.map_map, List.getElem?_map]
    by_cases inside : k < titles.length
    · simp [inside, column, Nat.add_comm 1 k]
    · simp [inside]

end

instance Entry.decidableFits (entry : Entry) : Decidable entry.Fits :=
  decidable_of_iff (entry.title.any fun title => title.length + 2 ≤ buffSize)
    (by simp [Option.any_eq_true, Entry.Fits])

/-- Two entries, the key for the next one and the key to accept it. -/
theorem nextEntry_accepted :
    keyTurn (column [chars "a", chars "b"] 0) 0 1 (fun k => if k = 0 then 3 else 1) ⟨1, ⟨0, 1⟩, 1⟩ =
      .inl (.ok (some 2, ⟨0, 1⟩)) := by
  have stored := column_stored [chars "a", chars "b"] 0
  have turn :
      keyTurn (column [chars "a", chars "b"] 0) 0 1 (fun k => if k = 0 then 3 else 1) ⟨0, ⟨0, 1⟩, 0⟩ =
      .inr ⟨1, ⟨0, 1⟩, 1⟩ := rfl
  have counted : (column [chars "a", chars "b"] 0).selection 0 = .ok (1, 0) := rfl
  obtain ⟨-, -, same⟩ :=
    selection_stays_shown_iff stored counted ⟨0, ⟨0, 1⟩, _, rfl, rfl⟩ (by decide) (by decide)
    (by decide) (by decide) (.turn (.start _) turn)
  obtain ⟨shown, result, -, accepted⟩ := same.mpr (by decide)
  rw [accepted (.inl rfl)]
  cases result
  rfl

/-- Behind eleven short titles one that `buff` has no room for. -/
def longLast : Heap := column (List.replicate 11 (chars "a") ++ [List.replicate 99 97]) 0

/-- The key for the next entry scrolls to it. -/
theorem longTitle_not_shown :
    longLast.selection 0 = .ok (11, 0) ∧
    (∃ selected w shown, longLast.display 0 selected w = .ok shown ∧ shown.window = ⟨0, 10⟩) ∧
    ∃ c', Reaches (keyTurn longLast 0 11 fun _ => 3) ⟨10, ⟨0, 10⟩, 0⟩ c' ∧
      ¬∃ shown, longLast.display 0 c'.selected c'.window = .ok shown := by
  have stored : Stored longLast 0 _ _ := column_stored _ _
  have page := display_page 10 ⟨0, 10⟩ stored (by decide) (by decide)
  refine ⟨rfl, ⟨10, ⟨0, 10⟩, _, page, rfl⟩, ⟨11, ⟨0, 10⟩, 1⟩, .turn (.start _) ?_, ?_⟩
  · rw [keyTurn, page]
    rfl
  · rintro ⟨shown, result⟩
    have fits := display_fits stored (by decide) result
    revert fits
    decide

end Parthenope.Menu
