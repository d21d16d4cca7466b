import Parthenope.MenuOffset

/-! The array of modules of an entry. The parser counts the modules and never compares the
count with the length of the array; whether the array suffices is in the text, where the
lines of an entry can be counted without its contents. -/
namespace Parthenope.Menu
open CString LinkedList StepLoop

/-- The line opens an entry. -/
def Dialect.opens (d : Dialect) (line : List Byte) : Bool :=
  d.outside.lookup (getnextword line) == some .TIT && strtrim (line.drop (getnextword line).length) != []

/-- How many modules an entry of `k` has after the line, while it goes on. -/
def Dialect.counts (d : Dialect) (line : List Byte) (k : Nat) : Option Nat :=
  match d.inside.lookup (getnextword line) with
  | none => none
  | some status =>
    (directive status (line.drop (getnextword line).length) entryAlloc).map fun _ =>
      k + if status = .M then 1 else 0

/-- A line of the text, and the number of modules of the entry it is in. -/
def countTurn (d : Dialect) (src : List Byte) (srcLen : Nat) : Nat × Option Nat → Unit ⊕ Nat × Option Nat
  | (offset, count) =>
    match getline src srcLen offset with
    | none => .inl ()
    | some (raw, after) =>
      let line := d.clean raw
      if line = [] then .inr (after, count)
      else
        match count with
        | none => .inr (after, if d.opens line then some 0 else none)
        | some k =>
          if d.closes line then .inr (after - (line.length + 1), none)
          else .inr (after, d.counts line k)

/-- No entry of the text has more modules than the array has slots. -/
def ModulesBounded (d : Dialect) (src : List Byte) (srcLen : Nat) : Prop :=
  ∀ offset k, Reaches (countTurn d src srcLen) (0, none) (offset, some k) → k ≤ maxModules

/-- In state `M` with a word, the parser stores a module at an index. -/
def Parser.StoresModule (p : Parser) (index : Nat) : Prop :=
  p.status = .M ∧ ∃ text node, p.text = .ok text ∧ p.node p.entry = .ok node ∧
    getnextword (strtrim text) ≠ [] ∧ node.entry.modules.length = index

/-- In every state of a run, modules are stored in the array, and no entry that has been
allocated counts more of them. -/
structure StoresInside (d : Dialect) (src : List Byte) (srcLen : Nat) (heap : Heap) (menu : Addr)
    (scratch : Word × Word) : Prop where
  stores : ∀ p, Reaches (step d src srcLen menu scratch) (.start heap) p →
    ∀ index, p.StoresModule index → index < maxModules
  counts : ∀ p, Reaches (step d src srcLen menu scratch) (.start heap) p →
    ∀ a node, heap.fresh ≤ a → p.heap.cells a = some node → node.entry.modules.length ≤ maxModules

/-- What is allocated since `fresh` has room for its modules. -/
structure Parser.Roomy (fresh : Addr) (p : Parser) : Prop where
  entry : fresh ≤ p.entry
  grown : fresh ≤ p.heap.fresh
  room : ∀ a node, fresh ≤ a → p.heap.cells a = some node → node.entry.modules.length ≤ maxModules

section
variable {ε α β : Type} {d : Dialect} {src line text : List Byte} {srcLen : Nat} {heap : Heap} {menu : Addr}
  {old : List Addr} {scratch : Word × Word} {p p' : Parser} {fresh : Addr} {status : Status} {q q' : Reader}
  {entry entry' : Entry} {fault : Fault} {store : Word → Node → Node}

/-- Whether a line is taken does not depend on the entry. -/
theorem directive_taken (status : Status) (text : List Byte) (entry entry' : Entry) :
    (directive status text entry).isSome = (directive status text entry').isSome := by
  cases status <;> simp only [directive, kernelLine, rootLine, otherLine, initrdLine, dtbLine, moduleLine, wordLine]
  all_goals repeat' split
  all_goals rfl

/-- A parser with the same entry, in a heap with one cell changed. -/
theorem Parser.Roomy.change {cell : Option Node} {a : Addr} (roomy : p.Roomy fresh) (entry : fresh ≤ p'.entry)
    (grown : p.heap.fresh ≤ p'.heap.fresh) (cells : p'.heap.cells = (p.heap.set a cell).cells)
    (fits : ∀ node, cell = some node → fresh ≤ a → node.entry.modules.length ≤ maxModules) : p'.Roomy fresh := by
  refine ⟨entry, roomy.grown.trans grown, fun b node later held => ?_⟩
  rw [cells] at held
  by_cases same : b = a
  · rw [same, Heap.set_same] at held
    exact fits node held (same ▸ later)
  · rw [Heap.set_other same] at held
    exact roomy.room b node later held

theorem Parser.Roomy.same (roomy : p.Roomy fresh) (heap : p'.heap = p.heap) (entry : p'.entry = p.entry) :
    p'.Roomy fresh := by
  refine ⟨entry ▸ roomy.entry, heap ▸ roomy.grown, ?_⟩
  rw [heap]
  exact roomy.room

private theorem node_held {a : Addr} {node : Node} (read : p.node a = .ok node) : p.heap.cells a = some node := by
  unfold Parser.node at read
  split at read
  · cases read
  · cases read
    assumption

theorem Parser.Roomy.number (roomy : p.Roomy fresh) (turn : p.number menu store = .ok p')
    (kept : ∀ value node, (store value node).entry = node.entry) : p'.Roomy fresh := by
  obtain ⟨text, -, turn⟩ := bind_ok turn
  split at turn
  · cases turn
    exact roomy.same rfl rfl
  · obtain ⟨node, read, turn⟩ := bind_ok turn
    cases turn
    refine roomy.change roomy.entry le_rfl rfl fun stored same later => ?_
    cases same
    rw [kept]
    exact roomy.room menu node later (node_held read)

theorem Parser.Roomy.openEntry (roomy : p.Roomy fresh) (turn : p.openEntry scratch = .ok p') : p'.Roomy fresh := by
  obtain ⟨text, -, turn⟩ := bind_ok turn
  replace turn := freeLine_bind turn
  split at turn
  · cases turn
    refine roomy.change roomy.grown (Nat.le_succ _) rfl fun stored same _ => ?_
    cases same
    exact Nat.zero_le _
  · cases turn
    exact roomy.same rfl rfl

theorem Parser.Roomy.direct (roomy : p.Roomy fresh) (turn : p.direct = .ok p') : p'.Roomy fresh := by
  obtain ⟨text, -, turn⟩ := bind_ok turn
  obtain ⟨node, -, turn⟩ := bind_ok turn
  dsimp only at turn
  split at turn
  · replace turn := freeLine_bind turn
    cases turn
    exact roomy.same rfl rfl
  · rename_i entry _
    split at turn
    · cases turn
    · rename_i fits
      have stored {after : Parser} (same : after.heap = p.heap.set p.entry (some { node with entry := entry }))
          (place : after.entry = p.entry) : after.Roomy fresh := by
        refine roomy.change (place ▸ roomy.entry) (same ▸ le_rfl) (congrArg Heap.cells same) fun cell held _ => ?_
        cases held
        exact Nat.not_lt.mp fits
      split at turn
      · cases turn
        exact stored rfl rfl
      · replace turn := freeLine_bind turn
        cases turn
        exact stored rfl rfl

private theorem last_held (n : Nat) {a b : Addr} {node : Node} (found : p.last n a = .ok (b, node)) :
    p.heap.cells b = some node := by
  induction n generalizing a with
  | zero => cases found
  | succ n ih =>
    obtain ⟨here, read, found⟩ := bind_ok found
    split at found
    · cases found
      exact node_held read
    · exact ih found

theorem Parser.Roomy.append (roomy : p.Roomy fresh) (turn : p.append menu = .ok p') : p'.Roomy fresh := by
  obtain ⟨⟨a, node⟩, found, turn⟩ := bind_ok turn
  cases turn
  refine roomy.change roomy.entry le_rfl rfl fun cell held later => ?_
  cases held
  exact roomy.room a node later (last_held _ found)

theorem Parser.Roomy.entryFree (roomy : p.Roomy fresh) (turn : p.entryFree = .ok p') : p'.Roomy fresh := by
  obtain ⟨node, -, turn⟩ := bind_ok turn
  cases turn
  exact roomy.change roomy.entry le_rfl rfl fun cell held _ => (nomatch held)

/-- The check in front of the store keeps the entries roomy. -/
theorem Parser.Roomy.turn (roomy : p.Roomy fresh) (turn : p.turn d src srcLen menu scratch = .ok (.inr p')) :
    p'.Roomy fresh := by
  unfold Parser.turn at turn
  split at turn
  case h_1 =>
    obtain ⟨⟨heap, entry⟩, -⟩ := outside_turned turn
    exact roomy.same heap entry
  all_goals obtain ⟨next, turned, same⟩ := bind_ok turn
  all_goals cases same
  case h_2 => exact roomy.number turned fun _ _ => rfl
  case h_3 => exact roomy.number turned fun _ _ => rfl
  case h_4 => exact roomy.openEntry turned
  case h_5 waits =>
    obtain ⟨⟨heap, entry⟩, -⟩ := inside_turned waits turned
    exact roomy.same heap entry
  case h_12 => exact (roomy.append turned).same rfl rfl
  case h_13 => exact (roomy.entryFree turned).same rfl rfl
  all_goals exact roomy.direct turned

private theorem bind_error {x : Except ε α} {f : α → Except ε β} {e : ε} (result : (x >>= f) = .error e) :
    x = .error e ∨ ∃ a, x = .ok a ∧ f a = .error e := by
  cases x with
  | error fault =>
    cases result
    exact .inl rfl
  | ok a => exact .inr ⟨a, rfl, result⟩

private theorem text_safe (p : Parser) : p.text ≠ .error .moduleOverflow := by
  unfold Parser.text
  split <;> nofun

private theorem node_safe (p : Parser) (a : Addr) : p.node a ≠ .error .moduleOverflow := by
  unfold Parser.node
  split <;> nofun

private theorem freeLine_safe (p : Parser) : p.freeLine ≠ .error .moduleOverflow := by
  unfold Parser.freeLine
  split <;> nofun

private theorem nextLine_safe (p : Parser) : p.nextLine d src srcLen ≠ .error .moduleOverflow := by
  unfold Parser.nextLine
  split
  · nofun
  · split <;> nofun

private theorem last_safe (p : Parser) (n : Nat) (a : Addr) : p.last n a ≠ .error .moduleOverflow := by
  induction n generalizing a with
  | zero => nofun
  | succ n ih =>
    intro failed
    rcases bind_error failed with read | ⟨node, -, failed⟩
    · exact node_safe p a read
    · split at failed
      · cases failed
      · exact ih _ failed

/-- What can fail in the other ways only, and is followed by what cannot fail so. -/
theorem bind_safe {x : Except Fault α} {f : α → Except Fault β} (first : x ≠ .error .moduleOverflow)
    (then_ : ∀ a, f a ≠ .error .moduleOverflow) : (x >>= f) ≠ .error .moduleOverflow := by
  intro failed
  rcases bind_error failed with failed | ⟨a, -, failed⟩
  · exact first failed
  · exact then_ a failed

private theorem outside_safe (p : Parser) : p.outside d src srcLen ≠ .error .moduleOverflow := by
  refine bind_safe (nextLine_safe p) fun next => ?_
  split
  · nofun
  · split
    · exact bind_safe (freeLine_safe _) fun _ => nofun
    · dsimp only
      split <;> nofun

private theorem inside_safe (p : Parser) : p.inside d src srcLen ≠ .error .moduleOverflow := by
  refine bind_safe (nextLine_safe p) fun next => ?_
  split
  · nofun
  · split
    · exact bind_safe (freeLine_safe _) fun _ => nofun
    · dsimp only
      split
      · nofun
      · refine bind_safe (freeLine_safe _) fun _ => ?_
        split <;> nofun

private theorem number_safe (p : Parser) : p.number menu store ≠ .error .moduleOverflow := by
  refine bind_safe (text_safe p) fun text => ?_
  split
  · nofun
  · exact bind_safe (node_safe p menu) fun _ => nofun

private theorem openEntry_safe (p : Parser) : p.openEntry scratch ≠ .error .moduleOverflow := by
  refine bind_safe (text_safe p) fun text => bind_safe (freeLine_safe p) fun _ => ?_
  split <;> nofun

/-- Only a directive has no room. -/
theorem turn_overflows (turn : p.turn d src srcLen menu scratch = .error .moduleOverflow) :
    p.direct = .error .moduleOverflow := by
  unfold Parser.turn at turn
  split at turn
  case h_1 => exact absurd turn (outside_safe p)
  case h_2 => exact absurd turn (bind_safe (number_safe p) fun _ => nofun)
  case h_3 => exact absurd turn (bind_safe (number_safe p) fun _ => nofun)
  case h_4 => exact absurd turn (bind_safe (openEntry_safe p) fun _ => nofun)
  case h_5 => exact absurd turn (bind_safe (inside_safe p) fun _ => nofun)
  case h_12 => exact absurd turn (bind_safe (bind_safe (last_safe p _ _) fun _ => nofun) fun _ => nofun)
  case h_13 => exact absurd turn (bind_safe (bind_safe (node_safe p _) fun _ => nofun) fun _ => nofun)
  case h_14 => exact absurd turn (bind_safe (bind_safe (last_safe p _ _) fun _ => nofun) fun _ => nofun)
  case h_15 => exact absurd turn (bind_safe (bind_safe (node_safe p _) fun _ => nofun) fun _ => nofun)
  all_goals
    rcases bind_error turn with failed | ⟨next, -, done⟩
    · exact failed
    · cases done

private theorem direct_overflow (turn : p.direct = .error .moduleOverflow) :
    ∃ text node entry, p.text = .ok text ∧ p.node p.entry = .ok node ∧
      directive p.status text node.entry = some entry ∧ maxModules < entry.modules.length := by
  rcases bind_error turn with failed | ⟨text, read, turn⟩
  · exact absurd failed (text_safe p)
  rcases bind_error turn with failed | ⟨node, held, turn⟩
  · exact absurd failed (node_safe p _)
  dsimp only at turn
  split at turn
  · exact absurd turn (bind_safe (freeLine_safe p) fun _ => nofun)
  · rename_i entry taken
    split at turn
    · rename_i full
      exact ⟨text, node, entry, read, held, taken, full⟩
    · refine absurd turn ?_
      split
      · nofun
      · exact bind_safe (freeLine_safe _) fun _ => nofun

/-- The number of modules of the entry a reader is in. -/
def Reader.count (q : Reader) : Option Nat := q.book.current.map fun entry => entry.modules.length

private theorem outsideLine_count (b : Book) (line : List Byte) (idle : b.current = none) :
    (b.outsideLine d line).current.map (fun entry => entry.modules.length) = if d.opens line then some 0 else none := by
  unfold Book.outsideLine Dialect.opens
  dsimp only
  cases known : d.outside.lookup (getnextword line) with
  | none => simp [idle]
  | some status =>
    cases status <;> simp only [idle, Option.map_none]
    case TIT =>
      by_cases named : strtrim (line.drop (getnextword line).length) = []
      · simp [named, idle]
      · simp [named, entryAlloc]
    all_goals rfl

/-- A line inside an entry, by the count. -/
theorem insideLine_count (b : Book) (line : List Byte) (entry : Entry) :
    (∃ b', b.insideLine d line entry = .ok b' ∧
      b'.current.map (fun entry => entry.modules.length) = d.counts line entry.modules.length ∧
      ∀ entry', b'.current = some entry' → entry'.modules.length ≤ maxModules) ∨
    ∃ k, b.insideLine d line entry = .error .moduleOverflow ∧ d.counts line entry.modules.length = some k ∧
      maxModules < k := by
  unfold Dialect.counts
  cases known : d.inside.lookup (getnextword line) with
  | none =>
    exact .inl ⟨_, Book.insideLine_unknown known, rfl, fun _ same => absurd same Book.discard_ne⟩
  | some status =>
    rw [Book.insideLine_known known]
    have alike := directive_taken status (line.drop (getnextword line).length) entryAlloc entry
    cases taken : directive status (line.drop (getnextword line).length) entry with
    | none =>
      rw [taken, Option.isSome_none, Option.isSome_eq_false_iff, Option.isNone_iff_eq_none] at alike
      exact .inl ⟨_, rfl, by simp only [alike]; rfl, fun _ same => absurd same Book.discard_ne⟩
    | some entry' =>
      rw [taken, Option.isSome_some, Option.isSome_iff_exists] at alike
      obtain ⟨other, alike⟩ := alike
      have length := (directive_fields taken).modules
      dsimp only
      rw [alike, Option.map_some, ← length]
      by_cases full : maxModules < entry'.modules.length
      · exact .inr ⟨_, if_pos full, rfl, full⟩
      · refine .inl ⟨_, if_neg full, rfl, fun entry same => ?_⟩
        cases same
        exact Nat.not_lt.mp full

/-- A line of the reader is a line of the count. -/
theorem Reader.step_count (turn : Reader.step d src srcLen q = .inr q') :
    countTurn d src srcLen (q.offset, q.count) = .inr (q'.offset, q'.count) := by
  obtain ⟨raw, after, read, takes⟩ := Reader.step_takes turn
  unfold countTurn
  simp only [read]
  cases takes with
  | blank blank => rw [if_pos blank]; rfl
  | outside text idle =>
    rw [if_neg text]
    simp only [Reader.count, idle, Option.map_none, outsideLine_count _ _ idle]
  | closing text current closes =>
    rw [if_neg text]
    simp only [Reader.count, current, Option.map_some, closes, if_true, Book.close_current, Option.map_none]
  | @inside entry b text current closes taken =>
    rw [if_neg text]
    simp only [Reader.count, current, Option.map_some, closes, Bool.false_eq_true, if_false]
    rcases insideLine_count q.book (d.clean raw) entry with ⟨b', took, count, -⟩ | ⟨k, fails, -⟩
    · cases taken.symm.trans took
      rw [count]
    · cases taken.symm.trans fails

/-- An entry that is being read has no more modules than fit. -/
theorem reader_count_le {numbers : Word × Word} (reached : Reaches (Reader.step d src srcLen) ⟨0, .start numbers⟩ q) :
    ∀ k, q.count = some k → k ≤ maxModules := by
  refine reached.invariant (fun q => ∀ k, q.count = some k → k ≤ maxModules) (fun q q' room turn k count => ?_) nofun
  obtain ⟨raw, after, -, takes⟩ := Reader.step_takes turn
  cases takes with
  | blank => exact room k count
  | outside _ idle =>
    replace count := (outsideLine_count q.book (d.clean raw) idle).symm.trans count
    split at count <;> cases count
    exact Nat.zero_le _
  | closing =>
    simp only [Reader.count, Book.close_current, Option.map_none] at count
    cases count
  | @inside entry b _ _ _ taken =>
    rcases insideLine_count q.book (d.clean raw) entry with ⟨b', took, -, fits⟩ | ⟨k, fails, -⟩
    · cases taken.symm.trans took
      obtain ⟨entry', current, rfl⟩ := Option.map_eq_some_iff.mp count
      exact fits entry' current
    · cases taken.symm.trans fails

/-- The line that an entry has no room for is counted. -/
theorem Reader.step_overflows {fault : Fault} (ends : Reader.step d src srcLen q = .inl (.error fault)) :
    ∃ after k, countTurn d src srcLen (q.offset, q.count) = .inr (after, some k) ∧ maxModules < k := by
  rcases Reader.step_stops ends with ⟨-, same⟩ | ⟨raw, after, entry, fault', read, text, current, closes, taken, -⟩
  · cases same
  rcases insideLine_count q.book (d.clean raw) entry with ⟨b', took, -⟩ | ⟨k, -, count, full⟩
  · cases taken.symm.trans took
  · refine ⟨after, k, ?_, full⟩
    unfold countTurn
    simp only [read, if_neg text, Reader.count, current, Option.map_some, closes, Bool.false_eq_true, if_false, count]

/-- A loop ends in a module that its entry has no room for. -/
def Overflows {σ ρ : Type} (step : σ → Except Fault ρ ⊕ σ) (s : σ) : Prop :=
  ∃ t, Reaches step s t ∧ step t = .inl (.error .moduleOverflow)

/-- Where the reader does not overflow it counts all lines. -/
theorem reaches_count (numbers : Word × Word) {c : Nat × Option Nat}
    (roomy : ¬Overflows (Reader.step d src srcLen) ⟨0, .start numbers⟩)
    (reached : Reaches (countTurn d src srcLen) (0, none) c) :
    ∃ q, Reaches (Reader.step d src srcLen) ⟨0, .start numbers⟩ q ∧ (q.offset, q.count) = c := by
  induction reached with
  | start => exact ⟨_, .start _, rfl⟩
  | turn _ turn ih =>
    obtain ⟨q, before, rfl⟩ := ih
    cases next : Reader.step d src srcLen q with
    | inr q' =>
      have counted := (Reader.step_count next).symm.trans turn
      exact ⟨q', before.turn next, Sum.inr.inj counted⟩
    | inl r =>
      rcases Reader.step_stops next with ⟨finished, -⟩ | ⟨raw, after, entry, fault, -, -, -, -, taken, rfl⟩
      · unfold countTurn at turn
        simp only [finished] at turn
        cases turn
      · rw [insideLine_overflow taken] at next
        exact absurd ⟨q, before, next⟩ roomy

private theorem reader_overflows (numbers : Word × Word) :
    Overflows (Reader.step d src srcLen) ⟨0, .start numbers⟩ ↔ ¬ModulesBounded d src srcLen := by
  constructor
  · rintro ⟨q, reached, ends⟩ bounded
    obtain ⟨after, k, turn, full⟩ := Reader.step_overflows ends
    have follows (c : Nat × Option Nat) (q q' : Reader) (same : c = (q.offset, q.count))
        (turn : Reader.step d src srcLen q = .inr q') :
        ∃ c', Reaches (countTurn d src srcLen) c c' ∧ c' = (q'.offset, q'.count) :=
      ⟨_, .turn (.start c) (same ▸ Reader.step_count turn), rfl⟩
    obtain ⟨c, counted, rfl⟩ := reaches_simulated (fun c q => c = (q.offset, q.count)) follows rfl reached
    exact Nat.not_lt.mpr (bounded after k (counted.turn turn)) full
  · intro crowded
    by_contra roomy
    refine crowded fun offset k counted => ?_
    obtain ⟨q, reached, same⟩ := reaches_count numbers roomy counted
    exact reader_count_le reached k (congrArg Prod.snd same)

/-- The parser overflows where the reader does. -/
theorem parser_overflows (scratch : Word × Word) (regular : d.Regular) (lists : heap.Lists menu old) :
    Overflows (step d src srcLen menu scratch) (.start heap) ↔ ¬ModulesBounded d src srcLen := by
  rw [← reader_overflows (heap.numbers menu)]
  obtain ⟨m, r, runs⟩ := reader_terminates regular src srcLen ⟨0, .start (heap.numbers menu)⟩
  obtain ⟨fuel, r', result, agrees⟩ := parse_follows scratch regular lists runs
  have parser := run_result_iff (fun r => r = .error .moduleOverflow) result
  have reader := run_result_iff (fun r => r = .error .moduleOverflow) runs
  have same : r' = .error .moduleOverflow ↔ r = .error .moduleOverflow := by
    cases r' <;> cases r
    · rw [show _ = _ from agrees]
      simp
    · exact agrees.elim
    · exact agrees.elim
    · simp
  unfold Overflows
  constructor
  · rintro ⟨p, reached, ends⟩
    obtain ⟨q, _, reached', ends', rfl⟩ := reader.mp (same.mp (parser.mpr ⟨p, _, reached, ends, rfl⟩))
    exact ⟨q, reached', ends'⟩
  · rintro ⟨q, reached, ends⟩
    obtain ⟨p, _, reached', ends', rfl⟩ := parser.mp (same.mpr (reader.mpr ⟨q, _, reached, ends, rfl⟩))
    exact ⟨p, reached', ends'⟩

private theorem reached_roomy (lists : heap.Lists menu old)
    (reached : Reaches (step d src srcLen menu scratch) (.start heap) p) : p.Roomy heap.fresh := by
  refine reached.invariant (Parser.Roomy heap.fresh) (fun p p' roomy turn => ?_) ⟨le_rfl, le_rfl, ?_⟩
  · exact roomy.turn (step_turn turn)
  · intro a node later held
    cases held.symm.trans (lists.unused a later)

private theorem step_error (fails : step d src srcLen menu scratch p = .inl (.error fault)) :
    p.turn d src srcLen menu scratch = .error fault := by
  unfold step at fails
  split at fails
  · cases fails
    assumption
  · cases fails
  · cases fails

/-- A parser that overflows stores a module behind the array. -/
theorem Parser.Roomy.overflow_stores (roomy : p.Roomy fresh) (fails : p.direct = .error .moduleOverflow) :
    p.StoresModule maxModules := by
  obtain ⟨text, node, entry, read, held, taken, full⟩ := direct_overflow fails
  have room := roomy.room _ node roomy.entry (node_held held)
  have length := (directive_fields taken).modules
  have waits : p.status = .M := by
    by_contra other
    rw [if_neg other] at length
    omega
  rw [if_pos waits] at length
  refine ⟨waits, text, node, read, held, fun empty => ?_, by omega⟩
  rw [waits] at taken
  simp only [directive, moduleLine, wordLine, empty, if_true] at taken
  cases taken

theorem Parser.StoresModule.overflows {index : Nat} (stores : p.StoresModule index) (full : maxModules ≤ index) :
    p.direct = .error .moduleOverflow := by
  obtain ⟨waits, text, node, read, held, word, rfl⟩ := stores
  have taken : directive p.status text node.entry = some { node.entry with
      modules := node.entry.modules ++ [⟨getnextword (strtrim text), none, none⟩] } := by
    rw [waits]
    exact if_neg word
  refine direct_overflows read (node_held held) taken ?_
  rw [List.length_append, List.length_singleton]
  omega

/-- The modules of a parser stay inside the array where no entry of the text has more. -/
theorem parser_stores_inside (scratch : Word × Word) (regular : d.Regular) (lists : heap.Lists menu old) :
    StoresInside d src srcLen heap menu scratch ↔ ModulesBounded d src srcLen := by
  have overflows : Overflows (step d src srcLen menu scratch) (.start heap) ↔ ¬ModulesBounded d src srcLen :=
    parser_overflows scratch regular lists
  constructor
  · intro inside
    by_contra crowded
    obtain ⟨p, reached, fails⟩ := overflows.mpr crowded
    have stores := (reached_roomy lists reached).overflow_stores (turn_overflows (step_error fails))
    exact absurd (inside.stores p reached _ stores) (lt_irrefl _)
  · intro bounded
    refine ⟨fun p reached index stores => ?_, fun p reached => (reached_roomy lists reached).room⟩
    by_contra full
    refine overflows.mp ⟨p, reached, ?_⟩ bounded
    have directs : p.status.Directs := by
      rw [stores.1]
      decide
    have turn := turn_directs d src srcLen menu scratch directs
    rw [stores.overflows (Nat.not_lt.mp full)] at turn
    exact turn_faults turn

/-- Whatever the text is, the parsers keep to the arrays of modules exactly where no entry
of the text has more than fit. -/
theorem modules_inside_iff (lists : heap.Lists menu old) :
    (StoresInside menuLst src srcLen heap menu scratch ↔ ModulesBounded menuLst src srcLen) ∧
      (StoresInside kicklayout src srcLen heap menu scratch ↔ ModulesBounded kicklayout src srcLen) :=
  ⟨parser_stores_inside scratch menuLst_regular lists, parser_stores_inside scratch kicklayout_regular lists⟩

end

def twoModules : List Byte := chars "title a\nmodule m\nmodule n\n"

private theorem twoModules_bounded : ModulesBounded menuLst twoModules 26 := by
  have first : countTurn menuLst twoModules 26 (0, none) = .inr (8, some 0) := rfl
  have second : countTurn menuLst twoModules 26 (8, some 0) = .inr (17, some 1) := rfl
  have third : countTurn menuLst twoModules 26 (17, some 1) = .inr (26, some 2) := rfl
  have last : countTurn menuLst twoModules 26 (26, some 2) = .inl () := rfl
  have counted (c : Nat × Option Nat) (reached : Reaches (countTurn menuLst twoModules 26) (0, none) c) :
      c ∈ [(0, none), (8, some 0), (17, some 1), (26, some 2)] := by
    induction reached with
    | start => decide
    | turn _ next ih =>
      simp only [List.mem_cons, List.not_mem_nil, or_false] at ih
      rcases ih with rfl | rfl | rfl | rfl
      · cases first.symm.trans next
        decide
      · cases second.symm.trans next
        decide
      · cases third.symm.trans next
        decide
      · cases last.symm.trans next
  intro offset k reached
  have listed := counted _ reached
  simp only [List.mem_cons, Prod.mk.injEq, reduceCtorEq, and_false, Option.some.injEq, List.not_mem_nil, false_or,
    or_false] at listed
  unfold maxModules
  omega

/-- Two modules are stored in the array. -/
theorem twoModules_stored : StoresInside menuLst twoModules 26 headOnly 0 (0, 0) :=
  (modules_inside_iff headOnly_lists).1.mpr twoModules_bounded

/-- An entry with a module more than fit. -/
def crowded : List Byte := chars "title a\n" ++ (List.replicate 101 (chars "module m\n")).flatten

private theorem crowded_drop {k : Nat} (inside : k ≤ 100) : crowded.drop (8 + 9 * k) =
    chars "module m" ++ newline :: (List.replicate (100 - k) (chars "module m\n")).flatten := by
  have count : 101 = k + (100 - k + 1) := by omega
  have length : (List.replicate k (chars "module m\n")).flatten.length = 9 * k := by
    rw [List.length_flatten, List.map_replicate, List.sum_replicate_nat, Nat.mul_comm]
    rfl
  have title : (chars "title a\n").length = 8 := rfl
  rw [← List.drop_drop, crowded, count, List.replicate_add, List.flatten_append, List.drop_left' title,
    List.drop_left' length, List.replicate_succ, List.flatten_cons]
  rfl

/-- Each line adds a module to the count. -/
theorem crowded_counted {k : Nat} (inside : k ≤ 101) :
    Reaches (countTurn menuLst crowded 917) (0, none) (8 + 9 * k, some k) := by
  induction k with
  | zero => exact .turn (.start _) rfl
  | succ k ih =>
    have line : getline crowded 917 (8 + 9 * k) = some (chars "module m" ++ [newline], 8 + 9 * k + 9) :=
      getline_terminated (by omega) (crowded_drop (by omega)) (by decide) (by decide)
    refine .turn (ih (by omega)) ?_
    unfold countTurn
    simp only [line]
    rfl

theorem crowded_stores_outside : ¬StoresInside menuLst crowded 917 headOnly 0 (0, 0) := by
  intro inside
  have bounded := (parser_stores_inside (0, 0) menuLst_regular headOnly_lists).mp inside
  exact absurd (bounded _ _ (crowded_counted le_rfl)) (by decide)

end Parthenope.Menu
