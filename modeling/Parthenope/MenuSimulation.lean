import Parthenope.MenuOwnership

/-! The parser follows the reader: where the reader takes a line, the parser
takes the turns from `S` or `IN` to `S` or `IN`, and faults where it does. -/
namespace Parthenope.Menu
open CString LinkedList StepLoop

/-- The parser between two lines. What the flag `kernel` and the state say agrees
with the entry it holds. -/
structure Follows (start : Heap) (menu : Addr) (old : List Addr) (p : Parser) (q : Reader) : Prop where
  offset : p.offset = q.offset
  listed : Listed start menu old (appendedOf p.events) p.heap q.book
  holding : match q.book.current with
    | none => p.status = .S ∧ Accounted start old [] p.heap p.events
    | some entry => p.status = .IN ∧ p.kernel = bootable entry ∧
        Accounted start old [p.entry] p.heap p.events ∧
        ∃ x y, p.heap.cells p.entry = some ⟨entry, x, y, none⟩

/-- Both end in the same fault, or with the same list. -/
def Agrees (start : Heap) (menu : Addr) (old : List Addr) :
    Except Fault (Nat × Parser) → Except Fault Book → Prop
  | .ok (_, p), .ok b => Listed start menu old (appendedOf p.events) p.heap b ∧
      Accounted start old [] p.heap p.events
  | .error fault, .error fault' => fault = fault'
  | _, _ => False

section
variable {d : Dialect} {src : List Byte} {srcLen : Nat} {start : Heap} {menu : Addr}
  {old : List Addr} {scratch : Word × Word} {p p' : Parser} {q q' : Reader} {b b' : Book}
  {entry : Entry} {raw line text word : List Byte} {offset : Nat} {status : Status} {fault : Fault}

theorem Follows.between (rel : Follows start menu old p q) (idle : q.book.current = none) :
    p.status = .S ∧ Accounted start old [] p.heap p.events := by
  have holding := rel.holding
  rw [idle] at holding
  exact holding

theorem Follows.within (rel : Follows start menu old p q) (reading : q.book.current = some entry) :
    p.status = .IN ∧ p.kernel = bootable entry ∧ Accounted start old [p.entry] p.heap p.events ∧
      ∃ x y, p.heap.cells p.entry = some ⟨entry, x, y, none⟩ := by
  have holding := rel.holding
  rw [reading] at holding
  exact holding

private theorem follows_idle (place : p.offset = offset) (waits : p.status = .S)
    (idle : b.current = none) (listed : Listed start menu old (appendedOf p.events) p.heap b)
    (accounted : Accounted start old [] p.heap p.events) : Follows start menu old p ⟨offset, b⟩ := by
  refine ⟨place, listed, ?_⟩
  simp only [idle]
  exact ⟨waits, accounted⟩

private theorem follows_reading (place : p.offset = offset) (waits : p.status = .IN)
    (reading : b.current = some entry) (kernel : p.kernel = bootable entry)
    (listed : Listed start menu old (appendedOf p.events) p.heap b)
    (accounted : Accounted start old [p.entry] p.heap p.events)
    (held : ∃ x y, p.heap.cells p.entry = some ⟨entry, x, y, none⟩) :
    Follows start menu old p ⟨offset, b⟩ := by
  refine ⟨place, listed, ?_⟩
  simp only [reading]
  exact ⟨waits, kernel, accounted, held⟩

/-- Only the list and the numbers of a book are in the menu. -/
theorem Listed.of_book {heap : Heap} {appended : List Addr} {b' : Book}
    (listed : Listed start menu old appended heap b) (added : b'.added = b.added)
    (defaultOs : b'.defaultOs = b.defaultOs) (delay : b'.delay = b.delay) :
    Listed start menu old appended heap b' :=
  listed.congr (fun _ _ => rfl) added defaultOs delay

private theorem turn_reaches (turn : p.turn d src srcLen menu scratch = .ok (.inr p')) :
    step d src srcLen menu scratch p = .inr p' := by
  rw [step, turn]

private theorem turn_ends {n : Nat} (turn : p.turn d src srcLen menu scratch = .ok (.inl (n, p'))) :
    step d src srcLen menu scratch p = .inl (.ok (n, p')) := by
  rw [step, turn]

theorem turn_faults (turn : p.turn d src srcLen menu scratch = .error fault) :
    step d src srcLen menu scratch p = .inl (.error fault) := by
  rw [step, turn]

private theorem nextLine_none (place : p.offset = offset) (finished : getline src srcLen offset = none) :
    p.nextLine d src srcLen = .ok none := by
  unfold Parser.nextLine
  rw [place, if_neg (Int.not_lt.mpr (Int.natCast_nonneg offset)), Int.toNat_natCast, finished]

private theorem nextLine_some {after : Nat} (place : p.offset = offset)
    (read : getline src srcLen offset = some (raw, after)) :
    p.nextLine d src srcLen = .ok (some (d.clean raw, p.hold (d.clean raw) after)) := by
  unfold Parser.nextLine
  rw [place, if_neg (Int.not_lt.mpr (Int.natCast_nonneg offset)), Int.toNat_natCast, read]

private theorem hold_live : (p.hold line offset).lines p.freshLine = some line := if_pos rfl

private theorem freeLine_live (live : p.lines p.line = some line) : p.freeLine = .ok p.release := by
  rw [Parser.freeLine, live]

private theorem text_live (live : p.lines p.lineptr.1 = some line) :
    p.text = .ok (line.drop p.lineptr.2) := by
  rw [Parser.text, live]

private theorem node_live {a : Addr} {node : Node} (live : p.heap.cells a = some node) :
    p.node a = .ok node := by
  rw [Parser.node, live]

/-- The line that state `S` or `IN` hands on, and the place behind its keyword. -/
def Parser.keyword (status : Status) (word line : List Byte) (offset : Nat) (p : Parser) : Parser :=
  { p.hold line offset with status := status, lineptr := (p.freshLine, word.length) }

private theorem keyword_text : (p.keyword status word line offset).text = .ok (line.drop word.length) :=
  text_live (if_pos rfl)

private theorem outside_blank {after : Nat} (menu : Addr) (scratch : Word × Word)
    (waits : p.status = .S) (place : p.offset = offset)
    (read : getline src srcLen offset = some (raw, after)) (blank : d.clean raw = []) :
    p.turn d src srcLen menu scratch =
      .ok (.inr { (p.hold (d.clean raw) after).release with status := .S }) := by
  unfold Parser.turn Parser.outside
  simp only [waits, nextLine_some (d := d) place read, bind, Except.bind, pure, Except.pure, blank,
    if_true, freeLine_live (p := p.hold [] after) hold_live]

private theorem outside_unknown {after : Nat} (menu : Addr) (scratch : Word × Word)
    (waits : p.status = .S) (place : p.offset = offset)
    (read : getline src srcLen offset = some (raw, after)) (text : d.clean raw ≠ [])
    (unknown : d.outside.lookup (getnextword (d.clean raw)) = none) :
    p.turn d src srcLen menu scratch =
      .ok (.inr { p.hold (d.clean raw) after with status := .S }) := by
  unfold Parser.turn Parser.outside
  simp only [waits, nextLine_some (d := d) place read, bind, Except.bind, pure, Except.pure, text,
    if_false, unknown]

private theorem outside_known {after : Nat} (menu : Addr) (scratch : Word × Word)
    (waits : p.status = .S) (place : p.offset = offset)
    (read : getline src srcLen offset = some (raw, after)) (text : d.clean raw ≠ [])
    (known : d.outside.lookup (getnextword (d.clean raw)) = some status) :
    p.turn d src srcLen menu scratch =
      .ok (.inr (p.keyword status (getnextword (d.clean raw)) (d.clean raw) after)) := by
  unfold Parser.turn Parser.outside
  simp only [waits, nextLine_some (d := d) place read, bind, Except.bind, pure, Except.pure, text,
    if_false, known]
  rfl

private theorem step_default (waits : p.status = .DEF)
    (result : p.number menu (fun value node => { node with defaultOs := value }) = .ok p') :
    step d src srcLen menu scratch p = .inr p' := by
  apply turn_reaches
  unfold Parser.turn
  simp only [waits, result, bind, Except.bind, pure, Except.pure]

private theorem step_delay (waits : p.status = .DLY)
    (result : p.number menu (fun value node => { node with delay := value }) = .ok p') :
    step d src srcLen menu scratch p = .inr p' := by
  apply turn_reaches
  unfold Parser.turn
  simp only [waits, result, bind, Except.bind, pure, Except.pure]

private theorem step_title (waits : p.status = .TIT) (result : p.openEntry scratch = .ok p') :
    step d src srcLen menu scratch p = .inr p' := by
  apply turn_reaches
  unfold Parser.turn
  simp only [waits, result, bind, Except.bind, pure, Except.pure]

private theorem number_missing {store : Word → Node → Node} (text : p.text = .ok line)
    (missing : numberLine line = none) : p.number menu store = .ok { p with status := .S } := by
  unfold Parser.number
  simp only [text, bind, Except.bind, pure, Except.pure, missing]

private theorem number_stored {store : Word → Node → Node} {node : Node} {value : Word}
    (text : p.text = .ok line) (number : numberLine line = some value)
    (live : p.heap.cells menu = some node) :
    p.number menu store = .ok { p with
      status := .S, heap := p.heap.set menu (some (store value node)) } := by
  unfold Parser.number
  simp only [text, bind, Except.bind, pure, Except.pure, number, node_live live]

private theorem openEntry_empty (scratch : Word × Word) (live : p.lines p.line = some line) (text : p.text = .ok word)
    (empty : strtrim word = []) : p.openEntry scratch = .ok { p.release with status := .S } := by
  unfold Parser.openEntry
  simp only [text, freeLine_live live, bind, Except.bind, pure, Except.pure, empty, ne_eq,
    not_true_eq_false, if_false]

private theorem openEntry_titled (scratch : Word × Word) (live : p.lines p.line = some line) (text : p.text = .ok word)
    (titled : strtrim word ≠ []) :
    p.openEntry scratch = .ok { p.release with
      status := .IN
      kernel := false
      heap := { p.heap.set p.heap.fresh
          (some ⟨{ entryAlloc with title := some (strtrim word) }, scratch.1, scratch.2, none⟩) with
        fresh := p.heap.fresh + 1 }
      entry := p.heap.fresh
      events := p.events ++ [.allocated p.heap.fresh] } := by
  unfold Parser.openEntry
  simp only [text, freeLine_live live, bind, Except.bind, pure, Except.pure, titled, ne_eq,
    not_false_eq_true, if_true]
  rfl

/-- The title opens an entry, or is empty and opens none. -/
theorem title_follows (src : List Byte) (srcLen : Nat) (scratch : Word × Word) (after : Nat)
    (idle : b.current = none)
    (listed : Listed start menu old (appendedOf p.events) p.heap b)
    (accounted : Accounted start old [] p.heap p.events)
    (known : d.outside.lookup (getnextword line) = some .TIT) :
    ∃ p', step d src srcLen menu scratch (p.keyword .TIT (getnextword line) line after) = .inr p' ∧
      Follows start menu old p' ⟨after, b.outsideLine d line⟩ := by
  unfold Book.outsideLine
  simp only [known]
  by_cases titled : strtrim (line.drop (getnextword line).length) = []
  · have opened := openEntry_empty scratch
      (p := p.keyword .TIT (getnextword line) line after) (if_pos rfl) keyword_text titled
    refine ⟨_, step_title rfl opened, ?_⟩
    rw [if_neg (not_not_intro titled)]
    exact follows_idle rfl rfl idle listed accounted
  · have opened := openEntry_titled scratch
      (p := p.keyword .TIT (getnextword line) line after) (if_pos rfl) keyword_text titled
    refine ⟨_, step_title rfl opened, ?_⟩
    rw [if_pos titled]
    refine follows_reading rfl rfl rfl rfl ?_ accounted.allocate ⟨_, _, Heap.set_same⟩
    rw [appendedOf_allocated]
    refine listed.congr ?_ rfl rfl rfl
    intro a inside
    exact Heap.set_other (Nat.ne_of_lt (accounted.below inside))

/-- The number of a `default` or `delay` line goes into the head. -/
theorem number_follows {after : Nat} {store : Word → Node → Node} (word line : List Byte) (b' : Book)
    (idle : b.current = none) (listed : Listed start menu old (appendedOf p.events) p.heap b)
    (accounted : Accounted start old [] p.heap p.events)
    (turn : ∀ p', (p.keyword status word line after).number menu store = .ok p' →
      step d src srcLen menu scratch (p.keyword status word line after) = .inr p')
    (missing : numberLine (line.drop word.length) = none → b' = b)
    (stored : ∀ value, numberLine (line.drop word.length) = some value →
      ∀ node, node.defaultOs = b.defaultOs → node.delay = b.delay →
        (store value node).next = node.next ∧ (store value node).entry = node.entry ∧
        (store value node).defaultOs = b'.defaultOs ∧ (store value node).delay = b'.delay)
    (added : b'.added = b.added) (current : b'.current = b.current) :
    ∃ p', step d src srcLen menu scratch (p.keyword status word line after) = .inr p' ∧
      Follows start menu old p' ⟨after, b'⟩ := by
  cases number : numberLine (line.drop word.length) with
  | none =>
    refine ⟨_, turn _ (number_missing keyword_text number), ?_⟩
    rw [missing number]
    exact follows_idle rfl rfl idle listed accounted
  | some value =>
    obtain ⟨node, live, defaultOs, delay⟩ := listed.numbers
    refine ⟨_, turn _ (number_stored keyword_text number live), ?_⟩
    obtain ⟨next, entry, defaultOs', delay'⟩ := stored value number node defaultOs delay
    have below := accounted.below (List.mem_append_left _ listed.menu_old)
    refine follows_idle rfl rfl (current.trans idle) ?_ (accounted.set _ below)
    exact listed.set_numbers live next entry added defaultOs' delay'

private theorem outside_follows {after : Nat} (scratch : Word × Word) (regular : d.Regular)
    (rel : Follows start menu old p q) (idle : q.book.current = none)
    (read : getline src srcLen q.offset = some (raw, after)) :
    ∃ p', Reaches (step d src srcLen menu scratch) p p' ∧
      Follows start menu old p' ⟨after, if d.clean raw = [] then q.book
        else q.book.outsideLine d (d.clean raw)⟩ := by
  obtain ⟨waits, accounted⟩ := rel.between idle
  by_cases blank : d.clean raw = []
  · have turn := outside_blank menu scratch waits rel.offset read blank
    rw [if_pos blank]
    refine ⟨_, .turn (.start _) (turn_reaches turn), ?_⟩
    exact follows_idle rfl rfl idle rel.listed accounted
  · rw [if_neg blank]
    cases known : d.outside.lookup (getnextword (d.clean raw)) with
    | none =>
      have turn := outside_unknown menu scratch waits rel.offset read blank known
      have same : q.book.outsideLine d (d.clean raw) = q.book := by
        simp only [Book.outsideLine, known]
      rw [same]
      refine ⟨_, .turn (.start _) (turn_reaches turn), ?_⟩
      exact follows_idle rfl rfl idle rel.listed accounted
    | some status =>
      have first := turn_reaches
        (outside_known menu scratch waits rel.offset read blank known)
      obtain ⟨-, rfl | rfl | rfl⟩ := regular.outside_status known
      · obtain ⟨p', second, follows⟩ := title_follows src srcLen scratch after idle
          rel.listed accounted known
        exact ⟨p', .turn (.turn (.start _) first) second, follows⟩
      · obtain ⟨p', second, follows⟩ := number_follows (getnextword (d.clean raw))
          (d.clean raw) (q.book.outsideLine d (d.clean raw)) idle rel.listed accounted
          (fun p' => step_default rfl)
          (by intro missing; simp only [Book.outsideLine, known, missing, Option.getD_none])
          (by
            intro value number node defaultOs delay
            simp only [Book.outsideLine, known, number, Option.getD_some, delay, and_self])
          (by simp only [Book.outsideLine, known]) (by simp only [Book.outsideLine, known])
        exact ⟨p', .turn (.turn (.start _) first) second, follows⟩
      · obtain ⟨p', second, follows⟩ := number_follows (getnextword (d.clean raw))
          (d.clean raw) (q.book.outsideLine d (d.clean raw)) idle rel.listed accounted
          (fun p' => step_delay rfl)
          (by intro missing; simp only [Book.outsideLine, known, missing, Option.getD_none])
          (by
            intro value number node defaultOs delay
            simp only [Book.outsideLine, known, number, Option.getD_some, defaultOs, and_self])
          (by simp only [Book.outsideLine, known]) (by simp only [Book.outsideLine, known])
        exact ⟨p', .turn (.turn (.start _) first) second, follows⟩

/-- What the parser holds inside an entry, whichever state it is in. -/
structure Reading (start : Heap) (menu : Addr) (old : List Addr) (p : Parser) (b : Book)
    (entry : Entry) : Prop where
  listed : Listed start menu old (appendedOf p.events) p.heap b
  accounted : Accounted start old [p.entry] p.heap p.events
  held : ∃ x y, p.heap.cells p.entry = some ⟨entry, x, y, none⟩

theorem Follows.reading (rel : Follows start menu old p q) (reading : q.book.current = some entry) :
    p.status = .IN ∧ p.kernel = bootable entry ∧ Reading start menu old p q.book entry := by
  obtain ⟨waits, kernel, accounted, held⟩ := rel.within reading
  exact ⟨waits, kernel, rel.listed, accounted, held⟩

/-- The walk to the last entry takes no more turns than there are entries. -/
theorem last_spells {a : Addr} {l : List Addr} {n : Nat} (spells : Spells p.heap.link a l)
    (fuel : l.length ≤ n) :
    ∃ z node, p.last n a = .ok (z, node) ∧ p.heap.cells z = some node ∧ l.getLast? = some z := by
  induction spells generalizing n with
  | @last a ends =>
    obtain ⟨n, rfl⟩ : ∃ k, n = k + 1 := Nat.exists_eq_succ_of_ne_zero (by rintro rfl; cases fuel)
    obtain ⟨node, live, next⟩ := Option.map_eq_some_iff.mp ends
    refine ⟨a, node, ?_, live, rfl⟩
    unfold Parser.last
    simp only [node_live live, bind, Except.bind, next, pure, Except.pure]
  | @more a c l linked rest ih =>
    obtain ⟨n, rfl⟩ : ∃ k, n = k + 1 := Nat.exists_eq_succ_of_ne_zero (by rintro rfl; cases fuel)
    obtain ⟨node, live, next⟩ := Option.map_eq_some_iff.mp linked
    obtain ⟨z, last, walked, present, final⟩ := ih (Nat.le_of_succ_le_succ fuel)
    refine ⟨z, last, ?_, present, ?_⟩
    · unfold Parser.last
      simp only [node_live live, bind, Except.bind, next]
      exact walked
    · rw [List.getLast?_cons, final, Option.getD_some]

/-- The entry goes to the end of the list. -/
theorem append_turn (b' : Book) (reading : Reading start menu old p b entry)
    (listed' : b'.added = b.added ++ [entry]) (defaultOs : b'.defaultOs = b.defaultOs)
    (delay : b'.delay = b.delay) :
    ∃ p', p.append menu = .ok p' ∧ p'.offset = p.offset ∧
      Listed start menu old (appendedOf p'.events) p'.heap b' ∧
      Accounted start old [] p'.heap p'.events := by
  obtain ⟨listed, accounted, x, y, held⟩ := reading
  have bound := listed.spelled.length_le fun _ => accounted.below
  obtain ⟨z, node, walked, live, last⟩ := last_spells listed.spelled (Nat.le_succ_of_le bound)
  have apart := accounted.held_apart
  let p' : Parser := { p with
    heap := p.heap.set z (some { node with next := some p.entry })
    events := p.events ++ [.appended p.entry] }
  refine ⟨p', ?_, rfl, ?_, ?_⟩
  · unfold Parser.append
    simp only [walked, bind, Except.bind, pure, Except.pure]
    rfl
  · rw [appendedOf_appended]
    exact listed.append last live apart held rfl listed' defaultOs delay
  · exact (accounted.set _ (accounted.below (List.mem_of_getLast? last))).append

private theorem free_turn (b' : Book) (reading : Reading start menu old p b entry)
    (added : b'.added = b.added) (defaultOs : b'.defaultOs = b.defaultOs)
    (delay : b'.delay = b.delay) :
    ∃ p', p.entryFree = .ok p' ∧ p'.offset = p.offset ∧
      Listed start menu old (appendedOf p'.events) p'.heap b' ∧
      Accounted start old [] p'.heap p'.events := by
  obtain ⟨listed, accounted, x, y, held⟩ := reading
  refine ⟨{ p with heap := p.heap.set p.entry none, events := p.events ++ [.freed p.entry] }, ?_, rfl,
    ?_, accounted.free⟩
  · unfold Parser.entryFree
    simp only [node_live held, bind, Except.bind, pure, Except.pure]
  · rw [appendedOf_freed]
    exact (listed.set_apart accounted.held_apart).of_book added defaultOs delay

/-- State `A`. -/
theorem kept_follows (d : Dialect) (src : List Byte) (srcLen : Nat) (scratch : Word × Word)
    (waits : p.status = .A) (place : p.offset = offset)
    (reading : Reading start menu old p b entry) :
    ∃ p', step d src srcLen menu scratch p = .inr p' ∧
      Follows start menu old p' ⟨offset, { b with current := none, added := b.added ++ [entry] }⟩ := by
  obtain ⟨p', appended, same, listed, accounted⟩ := append_turn
    { b with current := none, added := b.added ++ [entry] } reading rfl rfl rfl
  refine ⟨{ p' with n := p'.n + 1, status := .S }, turn_reaches ?_,
    follows_idle (same.trans place) rfl rfl listed accounted⟩
  unfold Parser.turn
  simp only [waits, appended, bind, Except.bind, pure, Except.pure]

/-- State `R`. -/
theorem discarded_follows (d : Dialect) (src : List Byte) (srcLen : Nat) (scratch : Word × Word)
    (waits : p.status = .R) (place : p.offset = offset)
    (reading : Reading start menu old p b entry) :
    ∃ p', step d src srcLen menu scratch p = .inr p' ∧
      Follows start menu old p' ⟨offset, b.discard⟩ := by
  obtain ⟨p', freed, same, listed, accounted⟩ := free_turn b.discard reading rfl rfl rfl
  refine ⟨{ p' with status := .S }, turn_reaches ?_,
    follows_idle (same.trans place) rfl rfl listed accounted⟩
  unfold Parser.turn
  simp only [waits, freed, bind, Except.bind, pure, Except.pure]

/-- What is returned at the end of the text, outside an entry or inside. -/
def Dialect.returns (d : Dialect) (n : Nat) (b : Book) : Nat :=
  match b.current with
  | none => d.result n
  | some entry => if bootable entry then 1 else 0

/-- The end of the text, inside an entry or outside. -/
theorem end_returns (scratch : Word × Word) (rel : Follows start menu old p q)
    (finished : getline src srcLen q.offset = none) :
    ∃ n p', run (step d src srcLen menu scratch) n p = some (.ok (d.returns p.n q.book, p')) ∧
      Listed start menu old (appendedOf p'.events) p'.heap q.book.close ∧
      Accounted start old [] p'.heap p'.events := by
  have last : p.nextLine d src srcLen = .ok none := nextLine_none rel.offset finished
  unfold Dialect.returns
  cases current : q.book.current with
  | none =>
    obtain ⟨waits, accounted⟩ := rel.between current
    have same : q.book.close = q.book := by simp only [Book.close, current]
    refine ⟨1, p, run_ends (turn_ends ?_), ?_⟩
    · unfold Parser.turn Parser.outside
      simp only [waits, last, bind, Except.bind, pure, Except.pure]
    · rw [same]
      exact ⟨rel.listed, accounted⟩
  | some entry =>
    obtain ⟨waits, kernel, reading⟩ := rel.reading current
    have first : step d src srcLen menu scratch p =
        .inr { p with status := if p.kernel then .AQ else .RQ } := by
      apply turn_reaches
      unfold Parser.turn Parser.inside
      simp only [waits, last, bind, Except.bind, pure, Except.pure]
    have closed : Reading start menu old { p with status := if p.kernel then .AQ else .RQ } q.book
        entry := ⟨reading.listed, reading.accounted, reading.held⟩
    dsimp only
    rw [← kernel]
    cases kept : p.kernel with
    | true =>
      have close : q.book.close = { q.book with current := none, added := q.book.added ++ [entry] } := by
        simp only [Book.close, current, ← kernel, kept, if_true]
      obtain ⟨p', appended, -, listed, accounted⟩ := append_turn
        { q.book with current := none, added := q.book.added ++ [entry] } closed rfl rfl rfl
      refine ⟨2, p', (run_turns first).trans (run_ends (turn_ends ?_)), ?_⟩
      · unfold Parser.turn
        simp only [kept, if_true] at appended ⊢
        simp only [appended, bind, Except.bind, pure, Except.pure]
      · rw [close]
        exact ⟨listed, accounted⟩
    | false =>
      have close : q.book.close = q.book.discard := by
        simp only [Book.close, current, ← kernel, kept, Bool.false_eq_true, if_false]
      obtain ⟨p', freed, -, listed, accounted⟩ := free_turn q.book.discard closed rfl rfl rfl
      refine ⟨2, p', (run_turns first).trans (run_ends (turn_ends ?_)), ?_⟩
      · unfold Parser.turn
        simp only [kept, Bool.false_eq_true, if_false] at freed ⊢
        simp only [freed, bind, Except.bind, pure, Except.pure]
      · rw [close]
        exact ⟨listed, accounted⟩

private theorem inside_blank {after : Nat} (menu : Addr) (scratch : Word × Word)
    (waits : p.status = .IN) (place : p.offset = offset)
    (read : getline src srcLen offset = some (raw, after)) (blank : d.clean raw = []) :
    p.turn d src srcLen menu scratch =
      .ok (.inr { (p.hold (d.clean raw) after).release with status := .IN }) := by
  unfold Parser.turn Parser.inside
  simp only [waits, nextLine_some (d := d) place read, bind, Except.bind, pure, Except.pure, blank,
    if_true, freeLine_live (p := p.hold [] after) hold_live]

private theorem inside_known {after : Nat} (menu : Addr) (scratch : Word × Word)
    (waits : p.status = .IN) (place : p.offset = offset)
    (read : getline src srcLen offset = some (raw, after)) (text : d.clean raw ≠ [])
    (known : d.inside.lookup (getnextword (d.clean raw)) = some status) :
    p.turn d src srcLen menu scratch =
      .ok (.inr (p.keyword status (getnextword (d.clean raw)) (d.clean raw) after)) := by
  unfold Parser.turn Parser.inside
  simp only [waits, nextLine_some (d := d) place read, bind, Except.bind, pure, Except.pure, text,
    if_false, known]
  rfl

/-- The parser behind a line that is no directive: the line is given back, and the
offset is set anew. -/
def Parser.leave (status : Status) (word line : List Byte) (offset : Nat) (place : Int) (p : Parser) :
    Parser :=
  { (p.keyword .IN word line offset).release with status := status, offset := place }

private theorem inside_unknown {after : Nat} (menu : Addr) (scratch : Word × Word)
    (waits : p.status = .IN) (place : p.offset = offset)
    (read : getline src srcLen offset = some (raw, after)) (text : d.clean raw ≠ [])
    (unknown : d.inside.lookup (getnextword (d.clean raw)) = none) :
    p.turn d src srcLen menu scratch = .ok (.inr
      (if getnextword (d.clean raw) = d.title then
        p.leave (if p.kernel then .A else .R) (getnextword (d.clean raw)) (d.clean raw) after
          ((after : Int) - ((d.clean raw).length + 1))
      else p.leave .R (getnextword (d.clean raw)) (d.clean raw) after after)) := by
  let held := p.hold (d.clean raw) after
  have released (k : Nat) : Parser.freeLine { held with lineptr := (held.line, k) } =
      .ok (Parser.release { held with lineptr := (held.line, k) }) := freeLine_live (if_pos rfl)
  unfold Parser.turn Parser.inside
  simp only [waits, nextLine_some (d := d) place read, bind, Except.bind, pure, Except.pure, text,
    if_false, unknown]
  rw [released]
  by_cases title : getnextword (d.clean raw) = d.title
  · simp only [title, if_true]
    rfl
  · simp only [title, if_false]
    rfl

theorem turn_directs (d : Dialect) (src : List Byte) (srcLen : Nat) (menu : Addr)
    (scratch : Word × Word) (waits : p.status.Directs) :
    p.turn d src srcLen menu scratch = (do return .inr (← p.direct)) := by
  unfold Parser.turn
  rcases waits with waits | waits | waits | waits | waits | waits <;> rw [waits]

/-- `K` and `O` are the two states that set the flag `kernel`. -/
theorem directive_bootable {entry' : Entry} (directs : status.Directs)
    (taken : directive status text entry = some entry') :
    bootable entry' = (bootable entry || status == .K || status == .O) := by
  have fields := directive_fields taken
  unfold bootable
  rcases directs with rfl | rfl | rfl | rfl | rfl | rfl
  · rw [fields.named rfl]
    cases entry.kernel <;> cases entry.other <;> rfl
  · rw [fields.kernel (by decide), fields.other (by decide)]
    cases entry.kernel <;> cases entry.other <;> rfl
  · rw [fields.kernel (by decide), fields.chained rfl]
    cases entry.kernel <;> cases entry.other <;> rfl
  all_goals
    rw [fields.kernel (by decide), fields.other (by decide)]
    cases entry.kernel <;> cases entry.other <;> rfl

private theorem direct_rejects {node : Node} (live : p.lines p.line = some line) (text : p.text = .ok word)
    (held : p.heap.cells p.entry = some node) (rejected : directive p.status word node.entry = none) :
    p.direct = .ok { p.release with status := .R } := by
  unfold Parser.direct
  simp only [text, node_live held, bind, Except.bind, pure, Except.pure, rejected, freeLine_live live]

theorem direct_overflows {node : Node} (text : p.text = .ok word)
    (held : p.heap.cells p.entry = some node) (taken : directive p.status word node.entry = some entry)
    (full : maxModules < entry.modules.length) : p.direct = .error .moduleOverflow := by
  unfold Parser.direct
  simp only [text, node_live held, bind, Except.bind, taken, full, if_true]

/-- What a directive leaves, but for the line. -/
theorem direct_takes {node : Node} (live : p.lines p.line = some line) (text : p.text = .ok word)
    (held : p.heap.cells p.entry = some node) (taken : directive p.status word node.entry = some entry)
    (fits : ¬ maxModules < entry.modules.length) :
    ∃ p', p.direct = .ok p' ∧ p'.status = .IN ∧ p'.offset = p.offset ∧ p'.entry = p.entry ∧
      p'.events = p.events ∧ p'.kernel = (p.kernel || p.status == .K || p.status == .O) ∧
      p'.heap = p.heap.set p.entry (some { node with entry := entry }) := by
  let stored : Parser := { p with
    heap := p.heap.set p.entry (some { node with entry := entry })
    kernel := p.kernel || p.status == .K || p.status == .O }
  have freed : stored.freeLine = .ok stored.release := freeLine_live live
  unfold Parser.direct
  simp only [text, node_live held, bind, Except.bind, pure, Except.pure, taken, fits, if_false]
  by_cases other : p.status = .O
  · exact ⟨{ stored with status := .IN }, by simp only [other, if_true, stored], rfl, rfl, rfl, rfl, rfl, rfl⟩
  · refine ⟨{ stored.release with status := .IN }, ?_, rfl, rfl, rfl, rfl, rfl, rfl⟩
    simp only [other, if_false]
    rw [show Parser.freeLine _ = Except.ok stored.release from freed]

private theorem leave_reading {place : Int} (reading : Reading start menu old p b entry) :
    Reading start menu old (p.leave status word line offset place) b entry :=
  ⟨reading.listed, reading.accounted, reading.held⟩

theorem Reading.below (reading : Reading start menu old p b entry) : p.entry < p.heap.fresh :=
  (reading.accounted.allocated_range (List.mem_append_right _ (List.mem_singleton.mpr rfl))).2

/-- One turn in the state of a directive, and the one after it where the line is
rejected. -/
theorem directive_follows (d : Dialect) (src : List Byte) (srcLen : Nat) (scratch : Word × Word)
    (word line : List Byte) (after : Nat) (directs : status.Directs)
    (kernel : p.kernel = bootable entry) (reading : Reading start menu old p b entry) :
    match directive status (line.drop word.length) entry with
    | none => ∃ p', Reaches (step d src srcLen menu scratch) (p.keyword status word line after) p' ∧
        Follows start menu old p' ⟨after, b.discard⟩
    | some entry' =>
      if maxModules < entry'.modules.length then
        step d src srcLen menu scratch (p.keyword status word line after) =
          .inl (.error .moduleOverflow)
      else ∃ p', Reaches (step d src srcLen menu scratch) (p.keyword status word line after) p' ∧
        Follows start menu old p' ⟨after, { b with current := some entry' }⟩ := by
  obtain ⟨x, y, held⟩ := reading.held
  have live : (p.keyword status word line after).lines (p.keyword status word line after).line =
      some line := if_pos rfl
  have turn := turn_directs (p := p.keyword status word line after) d src srcLen menu scratch directs
  cases taken : directive status (line.drop word.length) entry with
  | none =>
    have rejected := direct_rejects live keyword_text held taken
    rw [rejected] at turn
    obtain ⟨p', freed, follows⟩ := discarded_follows d src srcLen scratch
      (p := p.leave .R word line after after) rfl rfl (leave_reading reading)
    exact ⟨p', .turn (.turn (.start _) (turn_reaches turn)) freed, follows⟩
  | some entry' =>
    by_cases full : maxModules < entry'.modules.length
    · rw [direct_overflows keyword_text held taken full] at turn
      simp only [full, if_true]
      exact turn_faults turn
    · obtain ⟨p', result, waits, place, same, events, flag, heap⟩ :=
        direct_takes live keyword_text held taken full
      rw [result] at turn
      simp only [full, if_false]
      refine ⟨p', .turn (.start _) (turn_reaches turn), ?_⟩
      refine follows_reading place waits rfl ?_ ?_ ?_ ?_
      · rw [flag, directive_bootable directs taken]
        exact congrArg (fun k => k || status == .K || status == .O) kernel
      · rw [events, heap]
        exact (reading.listed.set_apart reading.accounted.held_apart).of_book rfl rfl rfl
      · rw [events, heap, same]
        exact reading.accounted.set _ reading.below
      · rw [heap, same]
        exact ⟨x, y, Heap.set_same⟩

/-- A closing line: `A` or `R` follows, by the flag `kernel`. -/
theorem closing_follows {after : Nat} (rel : Follows start menu old p q)
    (current : q.book.current = some entry)
    (read : getline src srcLen q.offset = some (raw, after)) (text : d.clean raw ≠ [])
    (closes : d.closes (d.clean raw) = true) (room : (d.clean raw).length + 1 ≤ after) :
    ∃ p', Reaches (step d src srcLen menu scratch) p p' ∧
      Follows start menu old p' ⟨after - ((d.clean raw).length + 1), q.book.close⟩ := by
  obtain ⟨waits, kernel, reading⟩ := rel.reading current
  simp only [Dialect.closes, Bool.and_eq_true, Option.isNone_iff_eq_none, beq_iff_eq] at closes
  obtain ⟨unknown, title⟩ := closes
  have back : (after : Int) - ((d.clean raw).length + 1) =
      ((after - ((d.clean raw).length + 1) : Nat) : Int) := by omega
  have turn := inside_unknown menu scratch waits rel.offset read text unknown
  rw [if_pos title, back] at turn
  cases kept : p.kernel with
  | true =>
    rw [kept, if_pos rfl] at turn
    have close : q.book.close = { q.book with current := none, added := q.book.added ++ [entry] } := by
      simp only [Book.close, current, ← kernel, kept, if_true]
    obtain ⟨p', second, follows⟩ := kept_follows d src srcLen scratch
      (p := p.leave .A (getnextword (d.clean raw)) (d.clean raw) after
        (after - ((d.clean raw).length + 1) : Nat)) rfl rfl (leave_reading reading)
    rw [close]
    exact ⟨p', .turn (.turn (.start _) (turn_reaches turn)) second, follows⟩
  | false =>
    rw [kept, if_neg (by decide)] at turn
    have close : q.book.close = q.book.discard := by
      simp only [Book.close, current, ← kernel, kept, Bool.false_eq_true, if_false]
    obtain ⟨p', second, follows⟩ := discarded_follows d src srcLen scratch
      (p := p.leave .R (getnextword (d.clean raw)) (d.clean raw) after
        (after - ((d.clean raw).length + 1) : Nat)) rfl rfl (leave_reading reading)
    rw [close]
    exact ⟨p', .turn (.turn (.start _) (turn_reaches turn)) second, follows⟩

/-- Any other line inside an entry. -/
theorem inside_follows {after : Nat} (scratch : Word × Word) (regular : d.Regular) (rel : Follows start menu old p q)
    (current : q.book.current = some entry)
    (read : getline src srcLen q.offset = some (raw, after)) (text : d.clean raw ≠ [])
    (stays : d.closes (d.clean raw) = false) :
    match q.book.insideLine d (d.clean raw) entry with
    | .error fault => ∃ n, run (step d src srcLen menu scratch) n p = some (.error fault)
    | .ok b => ∃ p', Reaches (step d src srcLen menu scratch) p p' ∧
        Follows start menu old p' ⟨after, b⟩ := by
  obtain ⟨waits, kernel, reading⟩ := rel.reading current
  cases known : d.inside.lookup (getnextword (d.clean raw)) with
  | none =>
    have other : getnextword (d.clean raw) ≠ d.title := by
      simpa [Dialect.closes, known] using stays
    have turn := inside_unknown menu scratch waits rel.offset read text known
    rw [if_neg other] at turn
    rw [Book.insideLine_unknown known]
    obtain ⟨p', second, follows⟩ := discarded_follows d src srcLen scratch
      (p := p.leave .R (getnextword (d.clean raw)) (d.clean raw) after
        after) rfl rfl (leave_reading reading)
    exact ⟨p', .turn (.turn (.start _) (turn_reaches turn)) second, follows⟩
  | some status =>
    have first := turn_reaches
      (inside_known menu scratch waits rel.offset read text known)
    have second := directive_follows d src srcLen scratch (getnextword (d.clean raw)) (d.clean raw) after
      (regular.inside_status known) kernel reading
    rw [Book.insideLine_known known]
    cases taken : directive status ((d.clean raw).drop (getnextword (d.clean raw)).length) entry with
    | none =>
      rw [taken] at second
      obtain ⟨p', reached, follows⟩ := second
      exact ⟨p', reached.before first, follows⟩
    | some entry' =>
      rw [taken] at second
      dsimp only at second ⊢
      by_cases full : maxModules < entry'.modules.length
      · rw [if_pos full] at second ⊢
        exact ⟨2, (run_turns first).trans (run_ends second)⟩
      · rw [if_neg full] at second ⊢
        obtain ⟨p', reached, follows⟩ := second
        exact ⟨p', reached.before first, follows⟩

/-- A line of the reader takes the parser some turns further. -/
theorem reader_turns (scratch : Word × Word) (regular : d.Regular) (rel : Follows start menu old p q)
    (placed : q.Placed)
    (turn : Reader.step d src srcLen q = .inr q') :
    ∃ p', Reaches (step d src srcLen menu scratch) p p' ∧ Follows start menu old p' q' := by
  obtain ⟨raw, after, read, takes⟩ := Reader.step_takes turn
  cases takes with
  | blank blank =>
    cases current : q.book.current with
    | none =>
      have follows := outside_follows scratch regular rel current read
      rwa [if_pos blank] at follows
    | some entry =>
      obtain ⟨waits, kernel, reading⟩ := rel.reading current
      have first := inside_blank menu scratch waits rel.offset read blank
      refine ⟨_, .turn (.start _) (turn_reaches first), ?_⟩
      exact follows_reading rfl rfl current kernel reading.listed reading.accounted reading.held
  | outside text current =>
    have follows := outside_follows scratch regular rel current read
    rwa [if_neg text] at follows
  | closing text current closes =>
    have reading : q.book.current ≠ none := by rw [current]; exact Option.some_ne_none _
    exact closing_follows rel current read text closes (placed.back reading read)
  | inside text current closes taken =>
    have follows := inside_follows scratch regular rel current read text
      closes
    rwa [taken] at follows

private theorem reader_ends {r : Except Fault Book} (scratch : Word × Word) (regular : d.Regular)
    (rel : Follows start menu old p q)
    (ends : Reader.step d src srcLen q = .inl r) :
    ∃ n r', run (step d src srcLen menu scratch) n p = some r' ∧ Agrees start menu old r' r := by
  rcases Reader.step_stops ends with
    ⟨finished, rfl⟩ | ⟨raw, after, entry, fault, read, text, current, closes, taken, rfl⟩
  · obtain ⟨n, p', result, agrees⟩ := end_returns scratch rel finished
    exact ⟨n, _, result, agrees⟩
  · have follows := inside_follows scratch regular rel current read text
      closes
    rw [taken] at follows
    obtain ⟨n, result⟩ := follows
    exact ⟨n, .error fault, result, rfl⟩

end

/-- The numbers in the head of a menu. -/
def Heap.numbers (heap : Heap) (menu : Addr) : Word × Word :=
  match heap.cells menu with
  | some node => (node.defaultOs, node.delay)
  | none => (0, 0)

theorem start_follows {heap : Heap} {menu : Addr} {old : List Addr} (lists : heap.Lists menu old) :
    Follows heap menu old (.start heap) ⟨0, .start (heap.numbers menu)⟩ := by
  have head := lists.spelled.head_mem
  have live : ∀ a ∈ old, heap.cells a ≠ none := by
    intro a inside gone
    apply lists.spelled.live a inside
    rw [Heap.link, gone, Option.map_none]
  refine follows_idle rfl rfl rfl ⟨?_, head, fun _ _ => rfl, rfl, ?_⟩ ⟨.refl _, ?_, le_rfl, lists.unused, ?_⟩
  · rw [show appendedOf (Parser.start heap).events = [] from rfl, List.append_nil]
    exact lists.spelled
  · obtain ⟨node, present⟩ := Option.ne_none_iff_exists'.mp (live menu head)
    refine ⟨node, present, ?_, ?_⟩ <;> simp only [Book.start, Heap.numbers, present]
  · rw [Parser.start, Nat.sub_self]
    rfl
  · intro a inside
    by_contra beyond
    exact live a inside (lists.unused a (Nat.not_lt.mp beyond))

/-- A run of the reader is a run of the parser, with the same list in the end. -/
theorem parse_follows {d : Dialect} {src : List Byte} {srcLen m : Nat} {heap : Heap} {menu : Addr}
    {old : List Addr} {r : Except Fault Book} (scratch : Word × Word) (regular : d.Regular)
    (lists : heap.Lists menu old)
    (runs : run (Reader.step d src srcLen) m ⟨0, .start (heap.numbers menu)⟩ = some r) :
    ∃ n r', parse d src srcLen heap menu scratch n = some r' ∧ Agrees heap menu old r' r := by
  have first : Reader.Placed ⟨0, .start (heap.numbers menu)⟩ := fun reading => absurd rfl reading
  refine run_simulated (fun p q => Follows heap menu old p q ∧ q.Placed) (Agrees heap menu old)
    ?_ ?_ ⟨start_follows lists, first⟩ runs
  · rintro p q q' ⟨rel, placed⟩ turn
    obtain ⟨p', reached, rel'⟩ := reader_turns scratch regular rel placed turn
    exact ⟨p', reached, rel', Reader.placed_step turn⟩
  · rintro p q r ⟨rel, -⟩ ends
    exact reader_ends scratch regular rel ends

end Parthenope.Menu
