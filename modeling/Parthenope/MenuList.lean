import Mathlib.Data.List.Count
import Parthenope.MenuLines
import Parthenope.MenuSimulation

/-! What a run of the parser leaves behind: the old list with the new entries
behind it, every allocation in the list or freed, and no fault. -/
namespace Parthenope.Menu
open CString LinkedList StepLoop

/-- An entry with a title. In a dialect without the word no other loader is named. -/
structure Entry.Titled (d : Dialect) (entry : Entry) : Prop where
  title : ∃ name, entry.title = some name ∧ name ≠ []
  other : (∀ pair ∈ d.inside, pair.2 ≠ .O) → entry.other = none

/-- The entries of a book are titled, and those it has added are bootable. -/
structure Book.Sound (d : Dialect) (b : Book) : Prop where
  current : ∀ entry, b.current = some entry → entry.Titled d
  added : ∀ entry ∈ b.added, entry.Titled d ∧ bootable entry = true

section
variable {d : Dialect} {src line : List Byte} {srcLen n : Nat} {b b' : Book} {q q' : Reader}
  {entry entry' : Entry} {status : Status}

theorem Book.Sound.discard (sound : b.Sound d) : b.discard.Sound d := ⟨fun _ gone => (nomatch gone), sound.added⟩

theorem Book.Sound.close (sound : b.Sound d) : b.close.Sound d := by
  unfold Book.close
  cases current : b.current with
  | none => exact sound
  | some entry =>
    by_cases kept : bootable entry = true
    · simp only [kept, if_true]
      refine ⟨fun _ gone => (nomatch gone), ?_⟩
      intro other inside
      rcases List.mem_append.mp inside with earlier | last
      · exact sound.added other earlier
      · cases List.mem_singleton.mp last
        exact ⟨sound.current entry current, kept⟩
    · simp only [kept]
      exact sound.discard

theorem outsideLine_added : (b.outsideLine d line).added = b.added := by
  unfold Book.outsideLine
  dsimp only
  split
  · split <;> rfl
  all_goals rfl

theorem Entry.Titled.directed (titled : entry.Titled d)
    (known : d.inside.lookup (getnextword line) = some status) (fields : Directed status entry entry') :
    entry'.Titled d := by
  refine ⟨fields.title ▸ titled.title, ?_⟩
  intro without
  rw [fields.other (without _ (lookup_mem known))]
  exact titled.other without

theorem Book.Sound.step (regular : d.Regular) (sound : q.book.Sound d)
    (turn : Reader.step d src srcLen q = .inr q') : q'.book.Sound d := by
  obtain ⟨raw, after, read, takes⟩ := Reader.step_takes turn
  cases takes with
  | blank _ => exact sound
  | outside _ idle =>
    refine ⟨?_, ?_⟩
    · intro entry opened
      obtain ⟨-, -, name, titled, rfl⟩ := outsideLine_opens regular idle opened
      exact ⟨⟨name, rfl, titled⟩, fun _ => rfl⟩
    · dsimp only
      rw [outsideLine_added]
      exact sound.added
  | closing _ _ _ => exact sound.close
  | inside _ current _ taken =>
    rcases insideLine_cases taken with rfl | ⟨status, entry, known, fields, -, rfl⟩
    · exact sound.discard
    · refine ⟨?_, sound.added⟩
      intro entry' same
      cases same
      exact (sound.current _ current).directed known fields

/-- The reader of a text that fits ends with a sound book. -/
theorem reader_sound (regular : d.Regular) (fit : ModulesFit d src srcLen) (numbers : Word × Word)
    {r : Except Fault Book}
    (runs : run (Reader.step d src srcLen) n ⟨0, .start numbers⟩ = some r) :
    ∃ b, r = .ok b ∧ b.Sound d := by
  obtain ⟨q, reached, ends⟩ := run_exit runs
  have first : Reader.Fitting d src srcLen ⟨0, .start numbers⟩ ∧ (Book.start numbers).Sound d :=
    ⟨⟨fit.first, fun _ gone => (nomatch gone), fun reading => absurd rfl reading⟩,
      fun _ gone => (nomatch gone), fun _ gone => (nomatch gone)⟩
  have invariant : q.Fitting d src srcLen ∧ q.book.Sound d := by
    refine reached.invariant (fun q => q.Fitting d src srcLen ∧ q.book.Sound d) ?_ first
    rintro q q' ⟨fitting, sound⟩ turn
    exact ⟨fitting.step regular fit turn, sound.step regular turn⟩
  exact ⟨q.book.close, invariant.1.completes regular ends, invariant.2.close⟩

end

/-- What the parser leaves behind. -/
structure KeepsList (heap : Heap) (menu : Addr) (old : List Addr) (wanted : Entry → Prop)
    (p : Parser) : Prop where
  listed : Spells p.heap.link menu (old ++ appendedOf p.events)
  acyclic : (old ++ appendedOf p.events).Nodup
  kept : ∀ a ∈ old, (p.heap.cells a).map Node.entry = (heap.cells a).map Node.entry
  sound : ∀ a ∈ appendedOf p.events, ∃ node, p.heap.cells a = some node ∧
    (∃ title, node.entry.title = some title ∧ title ≠ []) ∧ wanted node.entry
  once : ∀ a ∈ allocatedOf p.events,
    (appendedOf p.events).count a + (freedOf p.events).count a = 1
  known : ∀ a, a ∈ appendedOf p.events ∨ a ∈ freedOf p.events → a ∈ allocatedOf p.events

/-- The parser ends, and never by a fault. -/
def EndsKeeping (parse : Nat → Option (Except Fault (Nat × Parser))) (keeps : Parser → Prop) : Prop :=
  (∃ fuel r, parse fuel = some r) ∧
    ∀ fuel r, parse fuel = some r → ∃ n p, r = .ok (n, p) ∧ keeps p

section
variable {d : Dialect} {src : List Byte} {srcLen : Nat} {heap : Heap} {menu : Addr}
  {old : List Addr} {wanted : Entry → Prop} {p : Parser} {b : Book}

private theorem keepsList_of_book (listed : Listed heap menu old (appendedOf p.events) p.heap b)
    (accounted : Accounted heap old [] p.heap p.events) (sound : b.Sound d)
    (enough : ∀ entry, entry.Titled d → bootable entry = true → wanted entry) :
    KeepsList heap menu old wanted p := by
  have once := accounted.once
  rw [List.append_nil] at once
  refine ⟨listed.spelled, listed.spelled.nodup, listed.kept, ?_, ?_, ?_⟩
  · intro a inside
    have entry : (p.heap.cells a).map Node.entry ∈ b.added.map some := by
      rw [← listed.added]
      exact List.mem_map_of_mem inside
    obtain ⟨entry, added, same⟩ := List.mem_map.mp entry
    obtain ⟨node, present, rfl⟩ := Option.map_eq_some_iff.mp same.symm
    obtain ⟨titled, kept⟩ := sound.added _ added
    exact ⟨node, present, titled.title, enough _ titled kept⟩
  · intro a inside
    rw [← List.count_append, once.count_eq]
    apply List.count_eq_one_of_mem _ inside
    rw [accounted.allocated]
    exact List.nodup_range'
  · intro a inside
    exact once.mem_iff.mp (List.mem_append.mpr inside)

private theorem parse_keeps_list (scratch : Word × Word) (regular : d.Regular) (lists : heap.Lists menu old)
    (fit : ModulesFit d src srcLen)
    (enough : ∀ entry, entry.Titled d → bootable entry = true → wanted entry) :
    EndsKeeping (parse d src srcLen heap menu scratch) (KeepsList heap menu old wanted) := by
  obtain ⟨m, r, runs⟩ := reader_terminates regular src srcLen ⟨0, .start (heap.numbers menu)⟩
  obtain ⟨b, rfl, sound⟩ := reader_sound regular fit (heap.numbers menu) runs
  obtain ⟨fuel, r', result, agrees⟩ := parse_follows scratch regular lists runs
  refine ⟨⟨fuel, r', result⟩, ?_⟩
  intro fuel' r'' result'
  cases run_unique result result'
  cases r' with
  | error fault => exact agrees.elim
  | ok pair =>
    obtain ⟨n, p⟩ := pair
    exact ⟨n, p, rfl, keepsList_of_book agrees.1 agrees.2 sound enough⟩

/-- Both parsers keep the list, whatever the buffer holds, as long as the modules
of no title are too many. -/
theorem parsers_keep_list (src : List Byte) (srcLen : Nat) (scratch : Word × Word)
    (lists : heap.Lists menu old) :
    (ModulesFit menuLst src srcLen → EndsKeeping (fsm src srcLen heap menu scratch)
      (KeepsList heap menu old fun entry => entry.kernel ≠ none ∨ entry.other ≠ none)) ∧
    (ModulesFit kicklayout src srcLen → EndsKeeping (kickFsm src srcLen heap menu scratch)
      (KeepsList heap menu old fun entry => entry.kernel ≠ none)) := by
  constructor
  · intro fit
    refine parse_keeps_list scratch menuLst_regular lists fit ?_
    intro entry _ kept
    rcases Bool.or_eq_true_iff.mp kept with named | chained
    · exact .inl (Option.isSome_iff_ne_none.mp named)
    · exact .inr (Option.isSome_iff_ne_none.mp chained)
  · intro fit
    refine parse_keeps_list scratch kicklayout_regular lists fit ?_
    intro entry titled kept
    rw [bootable, titled.other (by decide), Option.isSome_none, Bool.or_false] at kept
    exact Option.isSome_iff_ne_none.mp kept

end

/-- A menu with nothing but its head. -/
def headOnly : Heap where
  cells a := if a = 0 then some ⟨entryAlloc, 0, 5, none⟩ else none
  fresh := 1

theorem headOnly_lists : headOnly.Lists 0 [0] :=
  ⟨.last rfl, fun _ unused => if_neg (Nat.ne_of_gt unused)⟩

def oneTitle : List Byte := chars "title a\nkernel k"

def oneLabel : List Byte := chars "LABEL a\nEXEC k"

private theorem oneTitle_fits : ModulesFit menuLst oneTitle 16 := by
  refine ⟨fits_short (by decide), ?_⟩
  intro offset _ behind
  exact absurd (List.mem_of_mem_take behind) (by decide)

private theorem oneLabel_fits : ModulesFit kicklayout oneLabel 14 := by
  refine ⟨fits_short (by decide), ?_⟩
  intro offset _ behind
  exact absurd (List.mem_of_mem_take behind) (by decide)

theorem oneEntry_keeps_list :
    EndsKeeping (fsm oneTitle 16 headOnly 0 (0, 0))
      (KeepsList headOnly 0 [0] fun entry => entry.kernel ≠ none ∨ entry.other ≠ none) ∧
    EndsKeeping (kickFsm oneLabel 14 headOnly 0 (0, 0))
      (KeepsList headOnly 0 [0] fun entry => entry.kernel ≠ none) :=
  ⟨(parsers_keep_list oneTitle 16 (0, 0) headOnly_lists).1 oneTitle_fits,
    (parsers_keep_list oneLabel 14 (0, 0) headOnly_lists).2 oneLabel_fits⟩

end Parthenope.Menu
