import Parthenope.MenuLoad

/-! The menu a scan puts together: the entries of each menu file in turn, marked
with their partition, and the count that decides whether there is a menu. -/
namespace Parthenope.Menu
open CString LinkedList StepLoop

/-- Readers of one text into menus with different numbers. -/
structure Alike (q q' : Reader) : Prop where
  offset : q.offset = q'.offset
  current : q.book.current = q'.book.current
  added : q.book.added = q'.book.added

/-- The book at the end of a text, before its last entry is closed. -/
def Ending (d : Dialect) (src : List Byte) (srcLen : Nat) (b : Book) : Prop :=
  ∃ q, Reaches (Reader.step d src srcLen) ⟨0, .start (0, 5)⟩ q ∧
    getline src srcLen q.offset = none ∧ q.book = b

section
variable {d : Dialect} {src line : List Byte} {srcLen : Nat} {b b' : Book} {q q' t t' : Reader}
  {entry : Entry} {heap heap' : Heap} {menu : Addr} {appended : List Addr} {entries : List Entry}

private theorem outsideLine_alike (d : Dialect) (line : List Byte) (current : b.current = b'.current)
    (added : b.added = b'.added) :
    (b.outsideLine d line).current = (b'.outsideLine d line).current ∧
      (b.outsideLine d line).added = (b'.outsideLine d line).added := by
  unfold Book.outsideLine
  dsimp only
  split
  · split
    · exact ⟨rfl, added⟩
    · exact ⟨current, added⟩
  all_goals exact ⟨current, added⟩

private theorem close_alike (current : b.current = b'.current) (added : b.added = b'.added) :
    b.close.added = b'.close.added := by
  unfold Book.close
  rw [current]
  cases b'.current with
  | none => exact added
  | some entry =>
    dsimp only
    split
    · exact congrArg (· ++ [entry]) added
    · exact added

private theorem insideLine_alike (d : Dialect) (line : List Byte) (entry : Entry) (added : b.added = b'.added) :
    match b.insideLine d line entry, b'.insideLine d line entry with
    | .ok c, .ok c' => c.current = c'.current ∧ c.added = c'.added
    | .error fault, .error fault' => fault = fault'
    | _, _ => False := by
  cases known : d.inside.lookup (getnextword line) with
  | none =>
    rw [Book.insideLine_unknown known, Book.insideLine_unknown known]
    exact ⟨rfl, added⟩
  | some status =>
    rw [Book.insideLine_known known, Book.insideLine_known known]
    cases directive status (line.drop (getnextword line).length) entry with
    | none => exact ⟨rfl, added⟩
    | some entry' =>
      dsimp only
      by_cases full : maxModules < entry'.modules.length
      · rw [if_pos full, if_pos full]
      · rw [if_neg full, if_neg full]
        exact ⟨rfl, added⟩

/-- The numbers of a menu do not steer the reader. -/
theorem Alike.step (d : Dialect) (src : List Byte) (srcLen : Nat) (alike : Alike q q') :
    match Reader.step d src srcLen q, Reader.step d src srcLen q' with
    | .inr t, .inr t' => Alike t t'
    | .inl (.ok c), .inl (.ok c') => c.added = c'.added
    | .inl (.error fault), .inl (.error fault') => fault = fault'
    | _, _ => False := by
  unfold Reader.step
  rw [alike.offset]
  cases getline src srcLen q'.offset with
  | none => exact close_alike alike.current alike.added
  | some pair =>
    obtain ⟨raw, after⟩ := pair
    dsimp only
    by_cases blank : d.clean raw = []
    · rw [if_pos blank, if_pos blank]
      exact ⟨rfl, alike.current, alike.added⟩
    · rw [if_neg blank, if_neg blank, alike.current]
      cases current : q'.book.current with
      | none =>
        have same := outsideLine_alike d (d.clean raw) alike.current alike.added
        exact ⟨rfl, same.1, same.2⟩
      | some entry =>
        dsimp only
        by_cases closes : d.closes (d.clean raw) = true
        · rw [if_pos closes, if_pos closes]
          refine ⟨rfl, ?_, close_alike alike.current alike.added⟩
          exact q.book.close_current.trans q'.book.close_current.symm
        · rw [if_neg closes, if_neg closes]
          have inside := insideLine_alike d (d.clean raw) entry alike.added
          cases taken : q.book.insideLine d (d.clean raw) entry with
          | error fault =>
            cases taken' : q'.book.insideLine d (d.clean raw) entry with
            | error fault' => rw [taken, taken'] at inside; exact inside
            | ok c' => rw [taken, taken'] at inside; exact inside
          | ok c =>
            cases taken' : q'.book.insideLine d (d.clean raw) entry with
            | error fault' => rw [taken, taken'] at inside; exact inside
            | ok c' => rw [taken, taken'] at inside; exact ⟨rfl, inside.1, inside.2⟩

theorem Alike.start (numbers numbers' : Word × Word) :
    Alike ⟨0, .start numbers⟩ ⟨0, .start numbers'⟩ := ⟨rfl, rfl, rfl⟩

theorem Alike.turn (alike : Alike q q') (turn : Reader.step d src srcLen q' = .inr t') :
    ∃ t, Reader.step d src srcLen q = .inr t ∧ Alike t t' := by
  have steps := alike.step d src srcLen
  rw [turn] at steps
  cases stepped : Reader.step d src srcLen q with
  | inr t =>
    rw [stepped] at steps
    exact ⟨t, rfl, steps⟩
  | inl r =>
    rw [stepped] at steps
    cases r <;> exact steps.elim

theorem Alike.fault {fault : Fault} (alike : Alike q q')
    (ends : Reader.step d src srcLen q' = .inl (.error fault)) :
    Reader.step d src srcLen q = .inl (.error fault) := by
  have steps := alike.step d src srcLen
  rw [ends] at steps
  cases stepped : Reader.step d src srcLen q with
  | inr t =>
    rw [stepped] at steps
    exact steps.elim
  | inl r =>
    rw [stepped] at steps
    cases r with
    | error fault' =>
      cases steps
      rfl
    | ok c => exact steps.elim

/-- The reader of a menu with other numbers comes to the same place. -/
theorem Alike.reaches (alike : Alike q q') (reached : Reaches (Reader.step d src srcLen) q' t') :
    ∃ t, Reaches (Reader.step d src srcLen) q t ∧ Alike t t' := by
  refine reaches_simulated Alike ?_ alike reached
  intro q q' t' alike turn
  obtain ⟨t, stepped, alike⟩ := alike.turn turn
  exact ⟨t, .turn (.start q) stepped, alike⟩

theorem Ending.unique (ending : Ending d src srcLen b) (other : Ending d src srcLen b') : b = b' := by
  obtain ⟨q, reached, finished, rfl⟩ := ending
  obtain ⟨q', reached', finished', rfl⟩ := other
  have stops {q : Reader} (finished : getline src srcLen q.offset = none) :
      Reader.step d src srcLen q = .inl (.ok q.book.close) := by
    unfold Reader.step
    simp only [finished]
  rw [reached.exit_unique (stops finished) reached' (stops finished')]

/-- The parser of a text that has an end, into any menu. -/
theorem Ending.parsed (ending : Ending d src srcLen b) (scratch : Word × Word) (regular : d.Regular)
    (stored : Stored heap menu appended entries) :
    ∃ fuel p appended', parse d src srcLen heap menu scratch fuel =
        some (.ok (d.returns b.added.length b, p)) ∧
      Stored p.heap menu appended' (entries ++ b.close.added) := by
  obtain ⟨q, reached, finished, rfl⟩ := ending
  obtain ⟨t, reached', alike⟩ := (Alike.start (heap.numbers menu) (0, 5)).reaches reached
  rw [← alike.offset] at finished
  obtain ⟨fuel, p, result, listed, accounted⟩ :=
    parse_returns scratch regular stored.lists reached' finished
  have returned : d.returns t.book.added.length t.book = d.returns q.book.added.length q.book := by
    unfold Dialect.returns
    rw [alike.current, alike.added]
  have closed : t.book.close.added = q.book.close.added := close_alike alike.current alike.added
  rw [returned] at result
  refine ⟨fuel, p, appended ++ appendedOf p.events, result, ⟨⟨listed.spelled, accounted.unused⟩, ?_⟩⟩
  rw [List.map_append, List.map_append, listed.added, closed, ← stored.entries]
  congr 1
  exact List.map_congr_left fun a inside => listed.kept a (List.mem_cons_of_mem _ inside)

/-- A parser that ends without a fault has come to the end of the text. -/
theorem ending_of_parsed {scratch : Word × Word} {fuel n : Nat} {p : Parser} (regular : d.Regular)
    (stored : Stored heap menu appended entries)
    (parsed : parse d src srcLen heap menu scratch fuel = some (.ok (n, p))) :
    ∃ b, Ending d src srcLen b := by
  obtain ⟨m, r, runs⟩ := reader_terminates regular src srcLen ⟨0, .start (0, 5)⟩
  obtain ⟨q, reached, ends⟩ := run_exit runs
  rcases Reader.step_stops ends with ⟨finished, -⟩ | ⟨_, _, _, fault, -, -, -, -, -, rfl⟩
  · exact ⟨q.book, q, reached, finished, rfl⟩
  · obtain ⟨t, reached', alike⟩ := (Alike.start (heap.numbers menu) (0, 5)).reaches reached
    obtain ⟨k, faults⟩ := run_reaches (n := 1) reached' (run_ends (alike.fault ends))
    obtain ⟨fuel', r, result, agrees⟩ := parse_follows scratch regular stored.lists faults
    cases run_unique parsed result
    exact agrees.elim

end

namespace Devices
variable {Device Partition : Type} (s : Devices Device Partition)

/-- The book at the end of a device's menu file; without a file, an empty one. -/
def EndOf (dev : Device) (b : Book) : Prop :=
  match s.menuFile dev with
  | none => b = .start (0, 5)
  | some (d, buffer, length) => Ending d buffer length b

/-- What a menu file that ends so adds to the count. -/
def count (dev : Device) (b : Book) : Nat :=
  match s.menuFile dev with
  | none => 0
  | some (d, _, _) => d.returns b.added.length b

/-- The devices with a file system on the partitions given, up to the first absent one. -/
def scanned : List Nat → List (Option Nat × Device)
  | [] => []
  | i :: rest =>
    match s.rdbPartitionTableGet (BitVec.ofNat 8 i) with
    | none => []
    | some partition =>
      match s.create partition with
      | none => scanned rest
      | some dev => (some i, dev) :: scanned rest

/-- The devices a menu is loaded from, each with its partition in a scan. -/
def sources (boot : Option Device) : List (Option Nat × Device) :=
  match boot with
  | some dev => [(none, dev)]
  | none => s.scanned (List.range rdbLocationLimit)

end Devices

/-- An entry as its file has it, and where the file is. -/
structure Loaded (Device : Type) where
  place : Option Nat
  device : Device
  found : Entry

/-- The entry in the menu. -/
def Loaded.entry {Device : Type} (loaded : Loaded Device) : Entry :=
  match loaded.place with
  | none => loaded.found
  | some i => mark i loaded.found

/-- The count and the entries of a menu, source by source. -/
inductive Devices.Collected {Device Partition : Type} (s : Devices Device Partition) :
    List (Option Nat × Device) → Nat → List (Loaded Device) → Prop
  | nil : Collected s [] 0 []
  | cons {place : Option Nat} {dev : Device} {b : Book} {rest : List (Option Nat × Device)} {n : Nat}
      {loaded : List (Loaded Device)} : s.EndOf dev b → Collected s rest n loaded →
      Collected s ((place, dev) :: rest) (s.count dev b + n)
        (b.close.added.map (Loaded.mk place dev) ++ loaded)

section
variable {Device Partition : Type} {s : Devices Device Partition} {scratch : Word × Word}
  {menu : Addr} {dev : Device} {heap heap' : Heap} {appended : List Addr} {entries : List Entry}
  {b b' : Book} {d : Dialect} {buffer : List Byte} {fuel fuel' length k n m : Nat} {l : List Nat}
  {boot : Option Device}

theorem menuFile_regular (file : s.menuFile dev = some (d, buffer, length)) : d.Regular := by
  unfold Devices.menuFile at file
  dsimp only at file
  split at file
  · cases file
    exact menuLst_regular
  · split at file
    · cases file
      exact menuLst_regular
    · split at file
      · cases file
        exact kicklayout_regular
      · cases file

private theorem devLoad_mono {r : Except Fault (Nat × Heap)}
    (loaded : s.devLoad fuel scratch menu dev heap = some r) (more : fuel ≤ fuel') :
    s.devLoad fuel' scratch menu dev heap = some r := by
  unfold Devices.devLoad at loaded ⊢
  cases file : s.menuFile dev with
  | none =>
    rw [file] at loaded
    exact loaded
  | some found =>
    obtain ⟨d, buffer, length⟩ := found
    rw [file] at loaded
    dsimp only at loaded ⊢
    obtain ⟨parsed, runs, same⟩ := Option.map_eq_some_iff.mp loaded
    exact Option.map_eq_some_iff.mpr ⟨parsed, run_mono runs more, same⟩

/-- A device whose menu file has an end adds its entries to the list. -/
theorem devLoad_returns (scratch : Word × Word) (ends : s.EndOf dev b)
    (stored : Stored heap menu appended entries) :
    ∃ fuel heap' appended', s.devLoad fuel scratch menu dev heap = some (.ok (s.count dev b, heap')) ∧
      Stored heap' menu appended' (entries ++ b.close.added) := by
  unfold Devices.EndOf at ends
  unfold Devices.devLoad Devices.count
  cases file : s.menuFile dev with
  | none =>
    rw [file] at ends
    cases ends
    refine ⟨0, heap, appended, rfl, ?_⟩
    rw [show (Book.start (0, 5)).close.added = [] from rfl, List.append_nil]
    exact stored
  | some found =>
    obtain ⟨d, buffer, length⟩ := found
    rw [file] at ends
    obtain ⟨fuel, p, appended', parsed, stored'⟩ := ends.parsed scratch (menuFile_regular file) stored
    refine ⟨fuel, p.heap, appended', ?_, stored'⟩
    dsimp only
    rw [parsed]
    rfl

/-- A device that is loaded has a menu file with an end, or none. -/
theorem endOf_of_devLoad (stored : Stored heap menu appended entries)
    (loaded : s.devLoad fuel scratch menu dev heap = some (.ok (k, heap'))) : ∃ b, s.EndOf dev b := by
  unfold Devices.devLoad at loaded
  unfold Devices.EndOf
  cases file : s.menuFile dev with
  | none => exact ⟨_, rfl⟩
  | some found =>
    obtain ⟨d, buffer, length⟩ := found
    rw [file] at loaded
    obtain ⟨parsed, runs, same⟩ := Option.map_eq_some_iff.mp loaded
    cases parsed with
    | error fault => cases same
    | ok pair => exact ending_of_parsed (menuFile_regular file) stored runs

theorem devLoad_stores (stored : Stored heap menu appended entries)
    (loaded : s.devLoad fuel scratch menu dev heap = some (.ok (k, heap'))) :
    ∃ b appended', s.EndOf dev b ∧ k = s.count dev b ∧
      Stored heap' menu appended' (entries ++ b.close.added) := by
  obtain ⟨b, ends⟩ := endOf_of_devLoad stored loaded
  obtain ⟨fuel', heap'', appended', result, stored'⟩ := devLoad_returns scratch ends stored
  have one := devLoad_mono loaded (le_max_left fuel fuel')
  have two := devLoad_mono result (le_max_right fuel fuel')
  rw [one] at two
  cases two
  exact ⟨b, appended', ends, rfl, stored'⟩

theorem EndOf.unique (ends : s.EndOf dev b) (ends' : s.EndOf dev b') : b = b' := by
  unfold Devices.EndOf at ends ends'
  cases file : s.menuFile dev with
  | none =>
    rw [file] at ends ends'
    exact ends.trans ends'.symm
  | some found =>
    rw [file] at ends ends'
    exact ends.unique ends'

private theorem magicLoop_mono {r : Except Fault (Nat × Heap)}
    (loaded : s.magicLoop fuel scratch menu l n heap = some r) (more : fuel ≤ fuel') :
    s.magicLoop fuel' scratch menu l n heap = some r := by
  induction l generalizing n heap with
  | nil => exact loaded
  | cons i rest ih =>
    unfold Devices.magicLoop at loaded ⊢
    cases present : s.rdbPartitionTableGet (BitVec.ofNat 8 i) with
    | none =>
      rw [present] at loaded
      exact loaded
    | some partition =>
      simp only [present] at loaded ⊢
      cases created : s.create partition with
      | none =>
        simp only [created] at loaded ⊢
        exact ih loaded
      | some dev =>
        simp only [created] at loaded ⊢
        cases result : s.devLoad fuel scratch menu dev heap with
        | none =>
          rw [result] at loaded
          cases loaded
        | some r' =>
          rw [devLoad_mono result more]
          rw [result] at loaded
          cases r' with
          | error fault => exact loaded
          | ok pair =>
            dsimp only at loaded ⊢
            cases swept : sweep i (pair.2.fresh + 1) menu pair.2 with
            | error fault =>
              rw [swept] at loaded
              exact loaded
            | ok heap' =>
              rw [swept] at loaded
              exact ih loaded

/-- Every entry has a device. -/
def Marked (entries : List Entry) : Prop := ∀ entry ∈ entries, entry.deviceType ≠ .default

private theorem mark_marked (i : Nat) (entry : Entry) : (mark i entry).deviceType ≠ .default := by
  unfold mark
  split
  · exact nofun
  · assumption

private theorem Marked.map_mark (marked : Marked entries) (i : Nat) : entries.map (mark i) = entries := by
  have same : ∀ entry ∈ entries, mark i entry = entry := fun entry inside =>
    if_neg (marked entry inside)
  exact (List.map_congr_left same).trans (List.map_id' entries)

/-- A turn of the scan: the entries of the device go to the end of the list, marked. -/
theorem scan_turn {i : Nat} (marked : Marked entries)
    (stored : Stored heap' menu appended (entries ++ b.close.added)) :
    ∃ heap'', sweep i (heap'.fresh + 1) menu heap' = .ok heap'' ∧
      Stored heap'' menu appended (entries ++ b.close.added.map (mark i)) ∧
      Marked (entries ++ b.close.added.map (mark i)) := by
  obtain ⟨heap'', swept, stored'⟩ := stored.sweep (i := i)
  rw [List.map_append, marked.map_mark] at stored'
  refine ⟨heap'', swept, stored', ?_⟩
  intro entry inside
  rcases List.mem_append.mp inside with earlier | later
  · exact marked entry earlier
  · obtain ⟨found, -, rfl⟩ := List.mem_map.mp later
    exact mark_marked i found

theorem magicLoop_collects (stored : Stored heap menu appended entries) (marked : Marked entries)
    (loaded : s.magicLoop fuel scratch menu l n heap = some (.ok (m, heap'))) :
    ∃ k entries' appended', s.Collected (s.scanned l) k entries' ∧ m = n + k ∧
      Stored heap' menu appended' (entries ++ entries'.map Loaded.entry) := by
  induction l generalizing n heap appended entries with
  | nil =>
    cases loaded
    exact ⟨0, [], appended, .nil, rfl, by rwa [List.map_nil, List.append_nil]⟩
  | cons i rest ih =>
    unfold Devices.magicLoop at loaded
    unfold Devices.scanned
    cases present : s.rdbPartitionTableGet (BitVec.ofNat 8 i) with
    | none =>
      rw [present] at loaded
      cases loaded
      exact ⟨0, [], appended, .nil, rfl, by rwa [List.map_nil, List.append_nil]⟩
    | some partition =>
      simp only [present] at loaded ⊢
      cases created : s.create partition with
      | none =>
        simp only [created] at loaded ⊢
        exact ih stored marked loaded
      | some dev =>
        simp only [created] at loaded ⊢
        cases result : s.devLoad fuel scratch menu dev heap with
        | none =>
          rw [result] at loaded
          cases loaded
        | some r =>
          rw [result] at loaded
          cases r with
          | error fault => cases loaded
          | ok pair =>
            obtain ⟨b, between, ends, counted, stored'⟩ := devLoad_stores stored result
            obtain ⟨heap'', swept, stored'', marked'⟩ := scan_turn (i := i) marked stored'
            simp only [swept] at loaded
            obtain ⟨k, entries', appended', collected, total, final⟩ := ih stored'' marked' loaded
            refine ⟨_, _, appended', .cons ends collected, ?_, ?_⟩
            · rw [total, counted, Nat.add_assoc]
            · rw [List.map_append, List.map_map, ← List.append_assoc]
              exact final

theorem magicLoop_returns (scratch : Word × Word) (ends : ∀ source ∈ s.scanned l, ∃ b, s.EndOf source.2 b)
    (stored : Stored heap menu appended entries) (marked : Marked entries) :
    ∃ fuel r, s.magicLoop fuel scratch menu l n heap = some (.ok r) := by
  induction l generalizing n heap appended entries with
  | nil => exact ⟨0, _, rfl⟩
  | cons i rest ih =>
    unfold Devices.scanned at ends
    unfold Devices.magicLoop
    cases present : s.rdbPartitionTableGet (BitVec.ofNat 8 i) with
    | none => exact ⟨0, _, rfl⟩
    | some partition =>
      simp only [present] at ends ⊢
      cases created : s.create partition with
      | none =>
        simp only [created] at ends ⊢
        exact ih ends stored marked
      | some dev =>
        simp only [created] at ends ⊢
        obtain ⟨b, here⟩ := ends _ List.mem_cons_self
        obtain ⟨fuel, heap', appended', loaded, stored'⟩ := devLoad_returns scratch here stored
        obtain ⟨heap'', swept, stored'', marked'⟩ := scan_turn (i := i) marked stored'
        obtain ⟨fuel', r, result⟩ := ih (n := n + s.count dev b)
          (fun source inside => ends source (List.mem_cons_of_mem _ inside)) stored'' marked'
        refine ⟨max fuel fuel', r, ?_⟩
        rw [devLoad_mono loaded (le_max_left _ _)]
        dsimp only
        rw [swept]
        exact magicLoop_mono result (le_max_right _ _)

end

end Parthenope.Menu
