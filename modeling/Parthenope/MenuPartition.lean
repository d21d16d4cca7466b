import Mathlib.Data.Nat.Digits.Lemmas
import Parthenope.MenuFound
import Parthenope.MenuReference

/-! The partition an entry is booted from. Its number goes from a decimal in the text
through a word to a byte, and indexes the partition table from there. -/
namespace Parthenope.Menu
open CString LinkedList StepLoop

def IsDigit (c : Byte) : Prop := 48 ≤ c.toNat ∧ c.toNat ≤ 57

/-- A number in decimal, of one digit at least. -/
structure Decimal (s : List Byte) : Prop where
  text : s ≠ []
  digits : ∀ c ∈ s, IsDigit c

/-- The number that the digits stand for. -/
def decimal (s : List Byte) : Nat := Nat.ofDigits 10 (s.reverse.map fun c => c.toNat - 48)

/-- The line `root ide D:P`. -/
def rootIde (drive number : List Byte) : List Byte :=
  unwords [chars "root", chars "ide", drive ++ colon :: number]

/-- What the lines inside an entry make of it. -/
inductive ReadFrom (d : Dialect) : List (List Byte) → Entry → Prop
  | opened (title : List Byte) : ReadFrom d [] { entryAlloc with title := some title }
  | line {status : Status} {lines : List (List Byte)} {line : List Byte} {entry entry' : Entry} :
      ReadFrom d lines entry → d.inside.lookup (getnextword line) = some status →
      directive status (line.drop (getnextword line).length) entry = some entry' →
      ReadFrom d (lines ++ [line]) entry'

/-- A partition of the table. -/
def Devices.slot {Device Partition : Type} (s : Devices Device Partition) (n : Nat) : Option Partition :=
  if n < rdbLocationLimit then s.table n else none

/-- The calls for a partition open what is on it. -/
def Devices.Opens {Device Partition : Type} (s : Devices Device Partition) (o : Bootstrap.Outcomes) : Prop :=
  ∀ disk partition, o.ide disk partition =
    ((s.rdbPartitionTableGet (partition.setWidth 8)).bind s.create).isSome

/-- The entry is booted from the slot if there is a file system on it, no other partition
is looked up for it, and `bootstrap` stops without one. -/
structure Devices.BootsSlot {Device Partition : Type} (s : Devices Device Partition) (boot : Option Device)
    (entry : Entry) (n : Nat) : Prop where
  partition : s.rdbPartitionTableGet (entry.partition.setWidth 8) = s.slot n
  device : s.bootDevice boot entry = (s.slot n).bind s.create
  unmarked : ∀ i, mark i entry = entry
  stops : ∀ o b m, s.Opens o → entry.other = none → (s.slot n).bind s.create = none →
    Bootstrap.bootstrap o b (some entry) m = Bootstrap.exit m

section
variable {Device Partition : Type} {s : Devices Device Partition} {d : Dialect} {text drive number src raw : List Byte}
  {lines before after : List (List Byte)} {entry entry' : Entry} {status : Status} {boot : Option Device}
  {n srcLen offset next : Nat}

/-- An entry is read from lines of the text. -/
def Entry.Written (d : Dialect) (src : List Byte) (srcLen : Nat) (entry : Entry) : Prop :=
  ∃ lines, ReadFrom d lines entry ∧ ∀ line ∈ lines, ∃ offset raw after,
    getline src srcLen offset = some (raw, after) ∧ line = d.clean raw

/-- The entries of a book are read from the text. -/
structure Book.Written (d : Dialect) (src : List Byte) (srcLen : Nat) (b : Book) : Prop where
  current : ∀ entry, b.current = some entry → entry.Written d src srcLen
  added : ∀ entry ∈ b.added, entry.Written d src srcLen

/-- Between entries only those that are complete count. -/
theorem Book.Written.idle {b : Book} (idle : b.current = none)
    (added : ∀ entry ∈ b.added, entry.Written d src srcLen) : b.Written d src srcLen := by
  refine ⟨fun entry current => ?_, added⟩
  rw [idle] at current
  cases current

theorem Book.Written.close {b : Book} (written : b.Written d src srcLen) : b.close.Written d src srcLen := by
  unfold Book.close
  cases current : b.current with
  | none => exact written
  | some entry =>
    dsimp only
    split
    · refine .idle rfl fun other inside => ?_
      rcases List.mem_append.mp inside with earlier | last
      · exact written.added other earlier
      · cases List.mem_singleton.mp last
        exact written.current entry current
    · exact .idle rfl written.added

/-- A line inside an entry is one more that it is read from. -/
theorem Entry.Written.line (written : entry.Written d src srcLen)
    (read : getline src srcLen offset = some (raw, next))
    (known : d.inside.lookup (getnextword (d.clean raw)) = some status)
    (taken : directive status ((d.clean raw).drop (getnextword (d.clean raw)).length) entry = some entry') :
    entry'.Written d src srcLen := by
  obtain ⟨lines, from_, inText⟩ := written
  refine ⟨lines ++ [d.clean raw], .line from_ known taken, fun line inside => ?_⟩
  rcases List.mem_append.mp inside with earlier | last
  · exact inText line earlier
  · exact ⟨offset, raw, next, read, List.mem_singleton.mp last⟩

theorem Book.Written.step {q q' : Reader} (regular : d.Regular) (written : q.book.Written d src srcLen)
    (turn : Reader.step d src srcLen q = .inr q') : q'.book.Written d src srcLen := by
  obtain ⟨raw, after, read, takes⟩ := Reader.step_takes turn
  cases takes with
  | blank => exact written
  | outside _ idle =>
    refine ⟨fun entry opened => ?_, fun entry inside => written.added entry (outsideLine_added ▸ inside)⟩
    obtain ⟨-, -, name, -, rfl⟩ := outsideLine_opens regular idle opened
    exact ⟨[], .opened name, fun _ none => absurd none List.not_mem_nil⟩
  | closing => exact written.close
  | @inside entry b _ current _ taken =>
    cases known : d.inside.lookup (getnextword (d.clean raw)) with
    | none =>
      rw [Book.insideLine_unknown known] at taken
      cases taken
      exact .idle rfl written.added
    | some status =>
      rw [Book.insideLine_known known] at taken
      split at taken
      · cases taken
        exact .idle rfl written.added
      · rename_i entry' directed
        split at taken
        · cases taken
        · cases taken
          refine ⟨fun other same => ?_, written.added⟩
          cases same
          exact (written.current entry current).line read known directed

/-- Every entry of a menu is read from lines of its file. -/
theorem collected_written {k : Nat} {sources : List (Option Nat × Device)} {loaded : List (Loaded Device)}
    (collected : s.Collected sources k loaded) {found : Loaded Device} (inside : found ∈ loaded) :
    ∃ d src srcLen, s.menuFile found.device = some (d, src, srcLen) ∧ found.found.Written d src srcLen := by
  obtain ⟨-, b, ends, added⟩ := mem_collected collected found inside
  unfold Devices.EndOf at ends
  cases file : s.menuFile found.device with
  | none =>
    simp only [file] at ends
    subst ends
    cases added
  | some menu =>
    obtain ⟨d, src, srcLen⟩ := menu
    simp only [file] at ends
    obtain ⟨q, reached, -, rfl⟩ := ends
    have written : q.book.Written d src srcLen := by
      refine reached.invariant (fun q => q.book.Written d src srcLen) (fun q q' written turn => ?_)
        (.idle rfl fun _ none => absurd none List.not_mem_nil)
      exact written.step (menuFile_regular file) turn
    exact ⟨d, src, srcLen, rfl, written.close.added _ added⟩

private theorem decimal_cons (c : Byte) (text : List Byte) :
    decimal (c :: text) = decimal text + 10 ^ text.length * (c.toNat - 48) := by
  unfold decimal
  rw [List.reverse_cons, List.map_append, List.map_singleton, Nat.ofDigits_append, Nat.ofDigits_singleton,
    List.length_map, List.length_reverse]

/-- `strtol` wraps around, and is right up to that. -/
theorem strtol_decimal (digits : ∀ c ∈ text, IsDigit c) : strtol text = BitVec.ofNat 32 (decimal text) := by
  have folded (f : Byte → Word × Word → Word × Word)
      (adds : ∀ c l m, f c (l, m) = (l + (c.setWidth 32 - 48) * m, m * 10)) :
      text.foldr f (0, 1) = (BitVec.ofNat 32 (decimal text), BitVec.ofNat 32 (10 ^ text.length)) := by
    induction text with
    | nil => rfl
    | cons c rest ih =>
      have digit := digits c List.mem_cons_self
      have value : c.setWidth 32 - 48 = BitVec.ofNat 32 (c.toNat - 48) := by
        obtain ⟨low, high⟩ := digit
        bv_omega
      rw [List.foldr_cons, ih fun b member => digits b (List.mem_cons_of_mem _ member), adds, decimal_cons,
        List.length_cons, pow_succ, value]
      simp only [BitVec.ofNat_add, BitVec.ofNat_mul, Prod.mk.injEq]
      exact ⟨congrArg _ (BitVec.mul_comm _ _), rfl⟩
  unfold strtol
  rw [folded _ fun _ _ _ => rfl]

theorem IsDigit.letter {c : Byte} (digit : IsDigit c) :
    isspace c = false ∧ c ≠ nul ∧ c ≠ colon ∧ c ≠ menuLst.comment := by
  obtain ⟨low, high⟩ := digit
  have apart (b : Byte) (other : b.toNat < 48 ∨ 57 < b.toNat) : c ≠ b := by
    rintro rfl
    omega
  have space : isspace c = false := by
    simp only [isspace, Bool.or_eq_false_iff, beq_eq_false_iff_ne]
    exact ⟨⟨⟨⟨⟨apart _ (by decide), apart _ (by decide)⟩, apart _ (by decide)⟩, apart _ (by decide)⟩,
      apart _ (by decide)⟩, apart _ (by decide)⟩
  exact ⟨space, apart _ (by decide), apart _ (by decide), apart _ (by decide)⟩

theorem rootIde_words (disk : Decimal drive) (partition : Decimal number) :
    ∀ w ∈ [chars "root", chars "ide", drive ++ colon :: number], IsWord menuLst w := by
  intro w member
  simp only [List.mem_cons, List.not_mem_nil, or_false] at member
  rcases member with rfl | rfl | rfl
  · exact isWord_of_letters (by decide) (by decide)
  · exact isWord_of_letters (by decide) (by decide)
  · refine isWord_of_letters (List.append_ne_nil_of_left_ne_nil disk.text _) fun c inside => ?_
    rcases List.mem_append.mp inside with digit | rest
    · have letter := (disk.digits c digit).letter
      exact ⟨letter.1, letter.2.1, letter.2.2.2⟩
    · rcases List.mem_cons.mp rest with rfl | digit
      · decide
      · have letter := (partition.digits c digit).letter
        exact ⟨letter.1, letter.2.1, letter.2.2.2⟩

private theorem rootIde_word (disk : Decimal drive) (partition : Decimal number) :
    getnextword (rootIde drive number) = chars "root" := getnextword_unwords (rootIde_words disk partition)

/-- The line is taken, and leaves the number less one. -/
theorem rootIde_taken (disk : Decimal drive) (partition : Decimal number) (entry : Entry) :
    directive .RT ((rootIde drive number).drop (getnextword (rootIde drive number)).length) entry =
      some { entry with deviceType := .ide, deviceNum := strtol drive, partition := strtol number - 1 } := by
  have words := rootIde_words disk partition
  have later : ∀ w ∈ [chars "ide", drive ++ colon :: number], IsWord menuLst w := fun w member =>
    words w (List.mem_cons_of_mem _ member)
  have before : ∀ c ∈ drive, (c != colon) = true := fun c inside =>
    bne_iff_ne.mpr (disk.digits c inside).letter.2.2.1
  have place : unwords [drive ++ colon :: number] = drive ++ colon :: number := List.append_nil _
  rw [rootIde_word disk partition, rootIde, drop_unwords, directive, rootLine_spaced later]
  have behind : (drive ++ colon :: number).dropWhile (· != colon) = colon :: number := by
    rw [List.dropWhile_append_of_pos before, List.dropWhile_cons_of_neg (by decide)]
  have front : (drive ++ colon :: number).takeWhile (· != colon) = drive := by
    rw [List.takeWhile_append_of_pos before, List.takeWhile_cons_of_neg (by decide), List.append_nil]
  obtain ⟨first, more, rfl⟩ := List.exists_cons_of_ne_nil partition.text
  unfold Reference.root
  dsimp only
  rw [if_neg (by decide), if_neg (by decide), if_pos rfl, place, behind, front]

private theorem lookup_root {word : List Byte} (known : menuLst.inside.lookup word = some .RT) :
    word = chars "root" := by
  have member := lookup_mem known
  simpa [menuLst] using member

/-- An entry keeps the place of its last root line. -/
theorem ReadFrom.place (read : ReadFrom menuLst lines entry) (disk : Decimal drive) (partition : Decimal number)
    (canonical : lines = before ++ rootIde drive number :: after)
    (last : ∀ line ∈ after, getnextword line ≠ chars "root") :
    entry.deviceType = .ide ∧ entry.partition = BitVec.ofNat 32 (decimal number) - 1 := by
  induction read generalizing after with
  | opened title => cases before <;> cases canonical
  | @line status ls line entry entry' _ known taken ih =>
    rcases List.eq_nil_or_concat after with rfl | ⟨rest, line', rfl⟩
    · obtain ⟨-, same⟩ := List.append_inj' canonical rfl
      cases same
      have root : menuLst.inside.lookup (getnextword (rootIde drive number)) = some .RT := by
        rw [rootIde_word disk partition]
        decide
      cases known.symm.trans root
      rw [rootIde_taken disk partition] at taken
      cases taken
      exact ⟨rfl, congrArg (· - 1) (strtol_decimal partition.digits)⟩
    · rw [List.concat_eq_append, ← List.cons_append, ← List.append_assoc] at canonical
      obtain ⟨first, same⟩ := List.append_inj' canonical rfl
      cases same
      have other : status ≠ .RT := by
        rintro rfl
        exact last line (by simp) (lookup_root known)
      have kept := directive_place taken other
      rw [kept.1, kept.2]
      exact ih first fun line member => last line (by simp [member])

/-- A number is narrowed to a byte. -/
theorem narrowed (n : Nat) (positive : 1 ≤ n) :
    ((BitVec.ofNat 32 n - 1).setWidth 8).toNat = (n - 1) % 256 := by
  obtain ⟨k, rfl⟩ := Nat.exists_eq_add_of_le' positive
  have less : BitVec.ofNat 32 (k + 1) - 1 = BitVec.ofNat 32 k := by
    rw [BitVec.ofNat_add]
    exact BitVec.add_sub_cancel _ _
  rw [less, BitVec.setWidth_ofNat_of_le (by decide), BitVec.toNat_ofNat]
  rfl

/-- A byte looks the right slot up where it is the number, where it is behind the table,
or where nothing is in its slot. -/
theorem narrowed_get {byte : Byte} (narrow : byte.toNat = n % 256) :
    s.rdbPartitionTableGet byte = s.slot n ↔ n < 256 ∨ rdbLocationLimit ≤ n % 256 ∨ s.table (n % 256) = none := by
  unfold Devices.rdbPartitionTableGet Devices.slot rdbLocationLimit
  rw [narrow]
  by_cases small : n < 256
  · rw [Nat.mod_eq_of_lt small]
    simp only [small, true_or, iff_true]
    by_cases inside : n < 16
    · rw [if_neg (Nat.not_le.mpr inside), if_pos inside]
    · rw [if_pos (Nat.not_lt.mp inside), if_neg inside]
  · rw [if_neg (by omega : ¬n < 16)]
    rw [or_iff_right small, ite_eq_left_iff, or_iff_not_imp_left]

/-- The other ways in which an entry depends on its place follow the lookup. -/
theorem bootsSlot_iff (placed : entry.deviceType = .ide) :
    s.BootsSlot boot entry n ↔ s.rdbPartitionTableGet (entry.partition.setWidth 8) = s.slot n := by
  refine ⟨Devices.BootsSlot.partition, fun same => ?_⟩
  have device : s.bootDevice boot entry = (s.slot n).bind s.create := by
    unfold Devices.bootDevice
    rw [placed, ← same]
  have unmarked (i : Nat) : mark i entry = entry := if_neg (by rw [placed]; decide)
  refine ⟨same, device, unmarked, fun o b m opens chained empty => ?_⟩
  have closed : Bootstrap.opens o entry = false := by
    unfold Bootstrap.opens
    rw [placed]
    rw [← same] at empty
    exact (opens _ _).trans (congrArg Option.isSome empty)
  unfold Bootstrap.bootstrap
  simp only [chained, closed, Bool.not_false, if_true]

/-- An entry is booted from the partition of its last root line exactly where the number
comes through its narrowing, or where that leads to no partition. -/
theorem rootIde_boots_iff (read : ReadFrom menuLst lines entry) (drives : Decimal drive) (numbers : Decimal number)
    (canonical : lines = before ++ rootIde drive number :: after)
    (last : ∀ line ∈ after, getnextword line ≠ chars "root") (positive : 1 ≤ decimal number) :
    s.BootsSlot boot entry (decimal number - 1) ↔
      decimal number ≤ 256 ∨ rdbLocationLimit ≤ (decimal number - 1) % 256 ∨
        s.table ((decimal number - 1) % 256) = none := by
  obtain ⟨placed, partition⟩ := read.place drives numbers canonical last
  have byte : decimal number - 1 < 256 ↔ decimal number ≤ 256 := by omega
  rw [bootsSlot_iff placed, partition, narrowed_get (narrowed _ positive), byte]

end

/-- The entry of a title line, a root line for partition `number` and a kernel line. -/
def rooted (number : List Byte) : Entry :=
  { entryAlloc with
    title := some (chars "a")
    kernel := some (chars "k")
    deviceType := .ide
    partition := strtol number - 1 }

private theorem rooted_read {number : List Byte} (numbers : Decimal number) :
    ReadFrom menuLst ([] ++ rootIde (chars "0") number :: [chars "kernel k"]) (rooted number) := by
  have drives : Decimal (chars "0") := ⟨by decide, by unfold IsDigit; decide⟩
  have known : menuLst.inside.lookup (getnextword (rootIde (chars "0") number)) = some .RT := by
    rw [rootIde_word drives numbers]
    decide
  have first := ReadFrom.line (.opened (chars "a")) known (rootIde_taken drives numbers _)
  have kernel : menuLst.inside.lookup (getnextword (chars "kernel k")) = some .K := by decide
  exact .line first kernel rfl

/-- A table with a partition in its first slot only. -/
def firstSlot : Devices (List Byte) (List Byte) where
  table i := if i = 0 then some [] else none
  ext2Create := some
  sfsCreate _ := none
  tftpCreate := none
  cdromCreate := none
  loadFile _ _ := (-1, [])

theorem rooted_firstSlot :
    firstSlot.BootsSlot none (rooted (chars "1")) (decimal (chars "1") - 1) ↔
      decimal (chars "1") ≤ 256 ∨ rdbLocationLimit ≤ (decimal (chars "1") - 1) % 256 ∨
        firstSlot.table ((decimal (chars "1") - 1) % 256) = none := by
  have drives : Decimal (chars "0") := ⟨by decide, by unfold IsDigit; decide⟩
  have numbers : Decimal (chars "1") := ⟨by decide, by unfold IsDigit; decide⟩
  exact rootIde_boots_iff (rooted_read numbers) drives numbers rfl (by decide) (by decide)

/-- Partition 257 of a drive is its first. -/
theorem partition257_aliases :
    decimal (chars "257") = 257 ∧ firstSlot.slot 256 = none ∧
      ReadFrom menuLst [rootIde (chars "0") (chars "257"), chars "kernel k"] (rooted (chars "257")) ∧
      ¬firstSlot.BootsSlot none (rooted (chars "257")) 256 := by
  have numbers : Decimal (chars "257") := ⟨by decide, by unfold IsDigit; decide⟩
  refine ⟨by decide, by decide, rooted_read numbers, fun boots => ?_⟩
  have partition := boots.partition
  revert partition
  decide

end Parthenope.Menu
