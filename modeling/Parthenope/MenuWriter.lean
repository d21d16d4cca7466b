import Parthenope.MenuPartition

/-! A writer of menu files, which the loader itself does not have. It writes what can be
read at all: `fsm` gives back the entries that are written, and all that it makes of a
canonical text can be written again. -/
namespace Parthenope.Menu
open CString LinkedList

/-- Words with one blank between them. -/
def IsText (text : List Byte) : Prop := ∀ w ∈ text.splitOn blank, IsWord menuLst w

def decimalText (n : Nat) : List Byte :=
  if n = 0 then [48] else (Nat.digits 10 n).reverse.map fun k => BitVec.ofNat 8 (48 + k)

/-- An entry that a menu file can have. The numbers of a device come with a root line. -/
structure Entry.Writable (entry : Entry) : Prop where
  title : ∃ title, entry.title = some title ∧ IsText title
  kernel : ∀ name, entry.kernel = some name → IsWord menuLst name
  append : ∀ text, entry.append = some text → IsText text ∧ entry.kernel.isSome
  other : ∀ name, entry.other = some name → IsWord menuLst name
  initrd : ∀ name, entry.initrd = some name → IsWord menuLst name
  dtb : ∀ name, entry.dtb = some name → IsWord menuLst name
  modules : ∀ module ∈ entry.modules, IsWord menuLst module.name ∧ module = ⟨module.name, none, none⟩
  few : entry.modules.length ≤ maxModules
  device : entry.deviceType = .default → entry.deviceNum = 0 ∧ entry.partition = 0

namespace Writer

/-- The device of an entry, with its numbers also where they do not matter. -/
def rootLines (entry : Entry) : List (List (List Byte)) :=
  let ide := [chars "root", chars "ide",
    decimalText entry.deviceNum.toNat ++ colon :: decimalText (entry.partition + 1).toNat]
  match entry.deviceType with
  | .default => []
  | .ide => [ide]
  | .tftp => [ide, [chars "root", chars "tftp"]]
  | .cd => [ide, [chars "root", chars "cdrom"]]

def kernelLine (entry : Entry) : List (List (List Byte)) :=
  entry.kernel.toList.map fun name =>
    chars "kernel" :: name :: entry.append.elim [] fun text => text.splitOn blank

/-- A line for a name that may be missing. -/
def nameLine (word : List Byte) (name : Option (List Byte)) : List (List (List Byte)) :=
  name.toList.map fun name => [word, name]

def moduleLines (modules : List EntryObject) : List (List (List Byte)) :=
  modules.map fun module => [chars "module", module.name]

def titleLine (entry : Entry) : List (List Byte) := chars "title" :: (entry.title.getD []).splitOn blank

/-- The lines behind the title. -/
def body (entry : Entry) : List (List (List Byte)) :=
  rootLines entry ++ (kernelLine entry ++ (nameLine (chars "other") entry.other ++
    (nameLine (chars "initrd") entry.initrd ++ (nameLine (chars "dtb") entry.dtb ++ moduleLines entry.modules))))

def menu (numbers : Word × Word) (entries : List Entry) : List (List (List Byte)) :=
  [chars "default", decimalText numbers.1.toNat] :: [chars "delay", decimalText numbers.2.toNat] ::
    entries.flatMap fun entry => titleLine entry :: body entry

def text (numbers : Word × Word) (entries : List Entry) : List Byte := textOf ((menu numbers entries).map unwords)

end Writer

/-- All entries of a book could be written. -/
structure Book.Writable (b : Book) : Prop where
  current : ∀ entry, b.current = some entry → entry.Writable
  added : ∀ entry ∈ b.added, entry.Writable ∧ bootable entry = true

/-- Lines inside an entry, with room for so many modules. -/
structure Short (lines : List (List (List Byte))) (n : Nat) : Prop where
  words : Canonical menuLst lines
  fits : ∀ rest, Fits menuLst rest → Fits menuLst (lines.map unwords ++ rest)
  modules : ∀ rest, modulesAhead menuLst (lines.map unwords ++ rest) ≤ n + modulesAhead menuLst rest

/-- Lines inside an entry that make another of it. -/
def Makes (lines : List (List (List Byte))) (entry entry' : Entry) : Prop :=
  ∀ b : Book, b.current = some entry → lines.foldl Reference.line b = { b with current := some entry' }

section
variable {entry entry' entry'' : Entry} {lines lines' : List (List (List Byte))} {words : List (List Byte)}
  {word name text : List Byte} {n k : Nat} {b b' : Book} {numbers : Word × Word} {entries : List Entry}

private theorem unwords_intercalate (words : List (List Byte)) : unwords words = [blank].intercalate words := by
  induction words with
  | nil => rfl
  | cons word rest ih =>
    cases rest with
    | nil =>
      rw [List.intercalate_singleton]
      exact List.append_nil word
    | cons next rest => rw [List.intercalate_cons_cons, ← ih, unwords, spaced_cons, List.append_cons]

private theorem unwords_splitOn (text : List Byte) : unwords (text.splitOn blank) = text := by
  rw [unwords_intercalate, List.intercalate_splitOn]

private theorem splitOn_unwords (isWord : ∀ w ∈ words, IsWord menuLst w) (some : words ≠ []) :
    (unwords words).splitOn blank = words := by
  rw [unwords_intercalate]
  exact List.splitOn_intercalate blank (fun w inside => (isWord w inside).unspaced) some

/-- What is written with words is a text. -/
theorem isText_unwords (isWord : ∀ w ∈ words, IsWord menuLst w) (some : words ≠ []) : IsText (unwords words) := by
  rw [IsText, splitOn_unwords isWord some]
  exact isWord

private theorem decimalText_decimal (n : Nat) : Decimal (decimalText n) ∧ decimal (decimalText n) = n := by
  by_cases zero : n = 0
  · subst zero
    exact ⟨⟨by decide, fun c inside => (List.mem_singleton.mp inside) ▸ (by constructor <;> decide)⟩, by decide⟩
  have small (k : Nat) (inside : k ∈ Nat.digits 10 n) : (BitVec.ofNat 8 (48 + k)).toNat = 48 + k := by
    have := Nat.digits_lt_base (by decide) inside
    rw [BitVec.toNat_ofNat, Nat.mod_eq_of_lt (by omega)]
  rw [decimalText, if_neg zero]
  refine ⟨⟨?_, fun c inside => ?_⟩, ?_⟩
  · simpa using Nat.digits_ne_nil_iff_ne_zero.mpr zero
  · obtain ⟨k, digit, rfl⟩ := List.mem_map.mp inside
    have digit := List.mem_reverse.mp digit
    have := Nat.digits_lt_base (by decide) digit
    rw [IsDigit, small k digit]
    omega
  · have same : ((Nat.digits 10 n).reverse.map fun k => BitVec.ofNat 8 (48 + k)).reverse.map (fun c => c.toNat - 48) =
        Nat.digits 10 n := by
      rw [← List.map_reverse, List.reverse_reverse, List.map_map]
      refine (List.map_congr_left fun k inside => ?_).trans (List.map_id _)
      rw [Function.comp_apply, small k inside, Nat.add_sub_cancel_left, id]
    rw [decimal, same, Nat.ofDigits_digits]

/-- A number is read as it was written. -/
theorem strtol_decimalText (v : Word) : strtol (decimalText v.toNat) = v := by
  obtain ⟨decimal, same⟩ := decimalText_decimal v.toNat
  rw [strtol_decimal decimal.digits, same, BitVec.ofNat_toNat, BitVec.setWidth_eq]

private theorem isWord_decimalText (n : Nat) : IsWord menuLst (decimalText n) := by
  obtain ⟨decimal, -⟩ := decimalText_decimal n
  exact isWord_of_letters decimal.text fun c inside => ⟨(decimal.digits c inside).letter.1,
    (decimal.digits c inside).letter.2.1, (decimal.digits c inside).letter.2.2.2⟩

theorem Makes.append (first : Makes lines entry entry') (second : Makes lines' entry' entry'') :
    Makes (lines ++ lines') entry entry'' := by
  intro b current
  rw [List.foldl_append, first b current, second _ rfl]

private theorem makes_nil (entry : Entry) : Makes [] entry entry := by
  intro b current
  rw [List.foldl_nil, ← current]

/-- A line is known inside an entry. -/
theorem makes_line (other : word ≠ chars "title") (taken : Reference.directive word words entry = some entry') :
    Makes [word :: words] entry entry' := by
  intro b current
  rw [List.foldl_cons, List.foldl_nil, Reference.line, current]
  dsimp only
  rw [if_neg other, taken]

private theorem rootLines_make (device : entry'.deviceType = .default → entry'.deviceNum = 0 ∧ entry'.partition = 0)
    (new : entry.deviceType = .default ∧ entry.deviceNum = 0 ∧ entry.partition = 0) :
    Makes (Writer.rootLines entry') entry
      { entry with deviceType := entry'.deviceType, deviceNum := entry'.deviceNum, partition := entry'.partition } := by
  obtain ⟨type, disk, partition⟩ := new
  have root : chars "root" ≠ chars "title" := by decide
  have numbers : Makes [[chars "root", chars "ide",
        decimalText entry'.deviceNum.toNat ++ colon :: decimalText (entry'.partition + 1).toNat]] entry
      { entry with deviceType := .ide, deviceNum := entry'.deviceNum, partition := entry'.partition } := by
    refine makes_line root ?_
    have digits := (decimalText_decimal entry'.deviceNum.toNat).1.digits
    have before : ∀ c ∈ decimalText entry'.deviceNum.toNat, (c != colon) = true := fun c inside =>
      bne_iff_ne.mpr (digits c inside).letter.2.2.1
    have text := (decimalText_decimal (entry'.partition + 1).toNat).1.text
    have read := strtol_decimalText (entry'.partition + 1)
    have place (number : List Byte) : unwords [number] = number := List.append_nil _
    rw [Reference.directive, if_pos rfl, Reference.root, if_neg (by decide), if_neg (by decide), if_pos rfl, place,
      List.dropWhile_append_of_pos before, List.dropWhile_cons_of_neg (by simp),
      List.takeWhile_append_of_pos before, List.takeWhile_cons_of_neg (by simp), List.append_nil]
    cases number : decimalText (entry'.partition + 1).toNat with
    | nil => exact absurd number text
    | cons first more =>
      dsimp only
      rw [← number, read, strtol_decimalText, BitVec.add_sub_cancel]
  rw [Writer.rootLines]
  cases type' : entry'.deviceType with
  | default =>
    obtain ⟨disk', partition'⟩ := device type'
    have same : { entry with deviceType := .default, deviceNum := 0, partition := 0 } = entry := by
      cases entry
      simp_all
    rw [disk', partition', same]
    exact makes_nil entry
  | ide => exact numbers
  | tftp => exact numbers.append (makes_line root rfl)
  | cd => exact numbers.append (makes_line root rfl)

private theorem kernelLine_makes (text : ∀ text, entry'.append = some text → IsText text ∧ entry'.kernel.isSome)
    (new : entry.kernel = none ∧ entry.append = none) :
    Makes (Writer.kernelLine entry') entry { entry with kernel := entry'.kernel, append := entry'.append } := by
  obtain ⟨kernel, append⟩ := new
  rw [Writer.kernelLine]
  cases named : entry'.kernel with
  | none =>
    have bare : entry'.append = none := by
      cases command : entry'.append with
      | none => rfl
      | some words =>
        have := (text words command).2
        rw [named] at this
        cases this
    have same : { entry with kernel := none, append := none } = entry := by
      cases entry
      simp_all
    rw [bare, same]
    exact makes_nil entry
  | some name =>
    refine makes_line (by decide) ?_
    cases command : entry'.append with
    | none => exact congrArg (fun text => some { entry with kernel := some name, append := text }) append
    | some words =>
      have spelled := unwords_splitOn words
      rw [Option.elim_some, Reference.directive, if_neg (by decide), if_pos rfl,
        if_neg (List.splitOn_ne_nil _ _), spelled]

private theorem moduleLines_make (modules : List EntryObject)
    (named : ∀ module ∈ modules, module = ⟨module.name, none, none⟩) :
    Makes (Writer.moduleLines modules) entry { entry with modules := entry.modules ++ modules } := by
  induction modules generalizing entry with
  | nil =>
    rw [List.append_nil]
    exact makes_nil entry
  | cons module rest ih =>
    have first : Makes [[chars "module", module.name]] entry { entry with modules := entry.modules ++ [module] } := by
      refine makes_line (by decide) ?_
      rw [named module List.mem_cons_self]
      rfl
    have later := @ih { entry with modules := entry.modules ++ [module] }
      fun other inside => named other (List.mem_cons_of_mem _ inside)
    rw [List.append_assoc] at later
    exact first.append later

private theorem nameLine_makes (word : List Byte) (store : Option (List Byte) → Entry)
    (name : Option (List Byte)) (other : word ≠ chars "title")
    (new : store none = entry) (taken : ∀ name, Reference.directive word [name] entry = some (store (some name))) :
    Makes (Writer.nameLine word name) entry (store name) := by
  cases name with
  | none =>
    rw [new]
    exact makes_nil entry
  | some name => exact makes_line other (taken name)

/-- The lines behind the title give all that the entry has. -/
theorem body_makes (writable : entry.Writable) :
    Makes (Writer.body entry) { entryAlloc with title := entry.title } entry := by
  rw [Writer.body]
  refine (rootLines_make writable.device ⟨rfl, rfl, rfl⟩).append ?_
  refine (kernelLine_makes writable.append ⟨rfl, rfl⟩).append ?_
  refine (nameLine_makes (chars "other")
    (fun name => { entry with initrd := none, dtb := none, modules := [], other := name })
    entry.other (by decide) rfl fun _ => rfl).append ?_
  refine (nameLine_makes (chars "initrd") (fun name => { entry with dtb := none, modules := [], initrd := name })
    entry.initrd (by decide) rfl fun _ => rfl).append ?_
  refine (nameLine_makes (chars "dtb") (fun name => { entry with modules := [], dtb := name })
    entry.dtb (by decide) rfl fun _ => rfl).append ?_
  exact moduleLines_make entry.modules fun module inside => (writable.modules module inside).2

/-- A title ends the entry before it. -/
theorem titleLine_opens (writable : entry.Writable) (b : Book) :
    Reference.line b (Writer.titleLine entry) =
      { b.close with current := some { entryAlloc with title := entry.title } } := by
  obtain ⟨title, present, text⟩ := writable.title
  have spelled := unwords_splitOn title
  obtain ⟨first, rest, split⟩ := List.exists_cons_of_ne_nil (List.splitOn_ne_nil blank title)
  have opens (b : Book) : Reference.outside (chars "title") (title.splitOn blank) b =
      { b with current := some { entryAlloc with title := some title } } := by
    rw [split] at spelled ⊢
    rw [Reference.outside, if_pos rfl, spelled]
  rw [Writer.titleLine, present, Option.getD_some, Reference.line]
  cases current : b.current with
  | none =>
    have same : b.close = b := by
      unfold Book.close
      rw [current]
    rw [same]
    exact opens b
  | some entry => exact (if_pos rfl).trans (opens b.close)

/-- Every entry that is written is added behind those before it. -/
theorem entries_added (writable : ∀ entry ∈ entries, entry.Writable ∧ bootable entry = true) (b : Book) :
    ((entries.flatMap fun entry => Writer.titleLine entry :: Writer.body entry).foldl Reference.line b).close =
      { b.close with current := none, added := b.close.added ++ entries } := by
  induction entries generalizing b with
  | nil =>
    rw [List.append_nil, ← b.close_current]
    rfl
  | cons entry rest ih =>
    obtain ⟨written, boots⟩ := writable entry List.mem_cons_self
    have closed (b : Book) : Book.close { b with current := some entry } =
        { b with current := none, added := b.added ++ [entry] } := if_pos boots
    rw [List.flatMap_cons, List.foldl_append, List.foldl_cons, titleLine_opens written, body_makes written _ rfl,
      ih fun other inside => writable other (List.mem_cons_of_mem _ inside)]
    dsimp only
    rw [closed, List.append_assoc]
    rfl

/-- Reading what is written. -/
theorem menu_written (before numbers : Word × Word)
    (writable : ∀ entry ∈ entries, entry.Writable ∧ bootable entry = true) :
    Reference.menu before (Writer.menu numbers entries) = ⟨none, entries, numbers.1, numbers.2⟩ := by
  have first (b : Book) (idle : b.current = none) :
      Reference.line b [chars "default", decimalText numbers.1.toNat] = { b with defaultOs := numbers.1 } := by
    rw [Reference.line, idle]
    dsimp only [Reference.outside]
    rw [if_neg (by decide), if_pos rfl, strtol_decimalText, idle]
  have second (b : Book) (idle : b.current = none) :
      Reference.line b [chars "delay", decimalText numbers.2.toNat] = { b with delay := numbers.2 } := by
    rw [Reference.line, idle]
    dsimp only [Reference.outside]
    rw [if_neg (by decide), if_neg (by decide), if_pos rfl, strtol_decimalText, idle]
  rw [Reference.menu, Writer.menu, List.foldl_cons, first _ rfl, List.foldl_cons, second _ rfl, entries_added writable]
  rfl

private theorem isTitle_words (isWord : ∀ w ∈ word :: words, IsWord menuLst w) :
    isTitle menuLst (unwords (word :: words)) = (word == chars "title") := by
  rw [isTitle, getnextword_unwords isWord]
  rfl

theorem Short.append (first : Short lines n) (second : Short lines' k) : Short (lines ++ lines') (n + k) := by
  have split (rest : List (List Byte)) :
      (lines ++ lines').map unwords ++ rest = lines.map unwords ++ (lines'.map unwords ++ rest) := by
    rw [List.map_append, List.append_assoc]
  refine ⟨fun words inside => ?_, fun rest fit => ?_, fun rest => ?_⟩
  · exact (List.mem_append.mp inside).elim (first.words words) (second.words words)
  · rw [split]
    exact first.fits _ (second.fits rest fit)
  · rw [split]
    have := first.modules (lines'.map unwords ++ rest)
    have := second.modules rest
    omega

private theorem short_nil : Short [] 0 :=
  ⟨fun _ none => absurd none List.not_mem_nil, fun _ fit => fit, fun _ => (Nat.zero_add _).ge⟩

/-- A line that is no title, and the room for it. -/
theorem short_line (isWord : ∀ w ∈ word :: words, IsWord menuLst w) (other : word ≠ chars "title") :
    Short [word :: words] (if menuLst.inside.lookup word = some .M then 1 else 0) := by
  have untitled : isTitle menuLst (unwords (word :: words)) = false := by
    rw [isTitle_words isWord]
    exact beq_eq_false_iff_ne.mpr other
  refine ⟨fun line inside => ?_, fun rest fit => ⟨fun titled => ?_, fit⟩, fun rest => ?_⟩
  · rw [List.mem_singleton.mp inside]
    exact isWord
  · rw [untitled] at titled
    cases titled
  · rw [List.map_singleton, List.singleton_append, modulesAhead, untitled, isModule, getnextword_unwords isWord]
    simp only [Bool.false_eq_true, if_false, beq_iff_eq]
    exact (Nat.add_comm ..).le

private theorem rootLines_short (entry : Entry) : Short (Writer.rootLines entry) 0 := by
  have disk := (decimalText_decimal entry.deviceNum.toNat).1
  have partition := (decimalText_decimal (entry.partition + 1).toNat).1
  have numbers := short_line (rootIde_words disk partition) (by decide)
  have place (name : List Byte) (isWord : IsWord menuLst name) : Short [[chars "root", name]] 0 := by
    refine @short_line [name] (chars "root") (fun w inside => ?_) (by decide)
    rcases List.mem_cons.mp inside with rfl | last
    · exact isWord_of_letters (by decide) (by decide)
    · rw [List.mem_singleton.mp last]
      exact isWord
  rw [Writer.rootLines]
  cases entry.deviceType with
  | default => exact short_nil
  | ide => exact numbers
  | tftp => exact numbers.append (place (chars "tftp") (isWord_of_letters (by decide) (by decide)))
  | cd => exact numbers.append (place (chars "cdrom") (isWord_of_letters (by decide) (by decide)))

private theorem kernelLine_short (writable : entry.Writable) : Short (Writer.kernelLine entry) 0 := by
  rw [Writer.kernelLine]
  cases named : entry.kernel with
  | none => exact short_nil
  | some name =>
    refine @short_line _ (chars "kernel") (fun w inside => ?_) (by decide)
    rcases List.mem_cons.mp inside with rfl | inside
    · exact isWord_of_letters (by decide) (by decide)
    rcases List.mem_cons.mp inside with rfl | inside
    · exact writable.kernel w named
    · cases command : entry.append with
      | none =>
        rw [command] at inside
        cases inside
      | some text =>
        rw [command] at inside
        exact (writable.append text command).1 w inside

private theorem nameLine_short (word : List Byte) {name : Option (List Byte)} (isWord : IsWord menuLst word)
    (other : word ≠ chars "title") (known : menuLst.inside.lookup word ≠ some .M)
    (named : ∀ text, name = some text → IsWord menuLst text) : Short (Writer.nameLine word name) 0 := by
  cases name with
  | none => exact short_nil
  | some text =>
    have short := @short_line [text] word (fun w inside => ?_) other
    · rw [if_neg known] at short
      exact short
    rcases List.mem_cons.mp inside with rfl | last
    · exact isWord
    · rw [List.mem_singleton.mp last]
      exact named text rfl

private theorem moduleLines_short (modules : List EntryObject)
    (named : ∀ module ∈ modules, IsWord menuLst module.name) :
    Short (Writer.moduleLines modules) modules.length := by
  induction modules with
  | nil => exact short_nil
  | cons module rest ih =>
    have first : Short [[chars "module", module.name]] 1 := by
      refine @short_line [module.name] (chars "module") (fun w inside => ?_) (by decide)
      rcases List.mem_cons.mp inside with rfl | last
      · exact isWord_of_letters (by decide) (by decide)
      · rw [List.mem_singleton.mp last]
        exact named module List.mem_cons_self
    have more := first.append (ih fun other inside => named other (List.mem_cons_of_mem _ inside))
    rw [Nat.add_comm] at more
    exact more

private theorem body_short (writable : entry.Writable) : Short (Writer.body entry) entry.modules.length := by
  have named (word : List Byte) (name : Option (List Byte)) (isWord : ∀ text, name = some text → IsWord menuLst text)
      (key : word ∈ [chars "other", chars "initrd", chars "dtb"]) : Short (Writer.nameLine word name) 0 := by
    simp only [List.mem_cons, List.not_mem_nil, or_false] at key
    rcases key with rfl | rfl | rfl
    all_goals exact nameLine_short _ (isWord_of_letters (by decide) (by decide)) (by decide) (by decide) isWord
  have total : entry.modules.length = 0 + (0 + (0 + (0 + (0 + entry.modules.length)))) := by simp only [Nat.zero_add]
  rw [Writer.body, total]
  refine (rootLines_short entry).append ((kernelLine_short writable).append ?_)
  refine (named _ _ writable.other (by decide)).append ((named _ _ writable.initrd (by decide)).append ?_)
  exact (named _ _ writable.dtb (by decide)).append
    (moduleLines_short entry.modules fun module inside => (writable.modules module inside).1)

/-- The entries of a menu fit where each of them does. -/
theorem entries_fit (writable : ∀ entry ∈ entries, entry.Writable) :
    Canonical menuLst (entries.flatMap fun entry => Writer.titleLine entry :: Writer.body entry) ∧
      Fits menuLst ((entries.flatMap fun entry => Writer.titleLine entry :: Writer.body entry).map unwords) ∧
      modulesAhead menuLst ((entries.flatMap fun entry =>
        Writer.titleLine entry :: Writer.body entry).map unwords) = 0 := by
  induction entries with
  | nil => exact ⟨fun _ none => absurd none List.not_mem_nil, trivial, rfl⟩
  | cons entry rest ih =>
    obtain ⟨canonical, fit, none⟩ := ih fun other inside => writable other (List.mem_cons_of_mem _ inside)
    have written := writable entry List.mem_cons_self
    have short := body_short written
    obtain ⟨title, present, text⟩ := written.title
    have words : ∀ w ∈ Writer.titleLine entry, IsWord menuLst w := by
      intro w inside
      rw [Writer.titleLine, present] at inside
      rcases List.mem_cons.mp inside with rfl | inside
      · exact isWord_of_letters (by decide) (by decide)
      · exact text w inside
    rw [List.flatMap_cons, List.cons_append, List.map_cons, List.map_append]
    refine ⟨fun line inside => ?_, ⟨fun _ => ?_, short.fits _ fit⟩, ?_⟩
    · rcases List.mem_cons.mp inside with rfl | inside
      · exact words
      · exact (List.mem_append.mp inside).elim (short.words line) (canonical line)
    · refine (short.modules _).trans ?_
      rw [none, Nat.add_zero]
      exact written.few
    · rw [modulesAhead, if_pos]
      rw [Writer.titleLine, isTitle_words words]
      rfl

private theorem root_writable (writable : entry.Writable)
    (taken : Reference.root entry words = some entry') : entry'.Writable := by
  have placed (type : DeviceType) (disk partition : Word) (other : type ≠ .default) :
      Entry.Writable { entry with deviceType := type, deviceNum := disk, partition := partition } :=
    { writable with device := fun same => absurd same other }
  cases words with
  | nil => cases taken
  | cons place rest =>
    rw [Reference.root] at taken
    split at taken
    · cases taken
      exact placed .tftp _ _ (by decide)
    split at taken
    · cases taken
      exact placed .cd _ _ (by decide)
    split at taken
    · split at taken
      · cases taken
        exact placed .ide _ _ (by decide)
      · cases taken
    · cases taken

/-- A directive leaves an entry that could be written, if there is room for its modules. -/
theorem directive_writable (isWord : ∀ w ∈ words, IsWord menuLst w) (writable : entry.Writable)
    (taken : Reference.directive word words entry = some entry') (room : entry'.modules.length ≤ maxModules) :
    entry'.Writable := by
  have single {name other : List Byte} (here : IsWord menuLst name) (same : some name = some other) :
      IsWord menuLst other := Option.some.inj same ▸ here
  unfold Reference.directive at taken
  split at taken
  · exact root_writable writable taken
  cases words with
  | nil => cases taken
  | cons first rest =>
    have named := isWord first List.mem_cons_self
    dsimp only at taken
    split at taken
    · cases taken
      refine { writable with kernel := fun _ => single named, append := fun text command => ⟨?_, rfl⟩ }
      dsimp only at command
      split at command
      · exact (writable.append text command).1
      · rename_i some
        cases command
        exact isText_unwords (fun w inside => isWord w (List.mem_cons_of_mem _ inside)) some
    split at taken
    · cases taken
      exact { writable with other := fun _ => single named }
    split at taken
    · cases taken
      exact { writable with initrd := fun _ => single named }
    split at taken
    · cases taken
      exact { writable with dtb := fun _ => single named }
    split at taken
    · cases taken
      refine { writable with modules := fun module inside => ?_, few := room }
      rcases List.mem_append.mp inside with earlier | last
      · exact writable.modules module earlier
      · rw [List.mem_singleton.mp last]
        exact ⟨named, rfl⟩
    · cases taken

theorem Book.Writable.close (writable : b.Writable) : b.close.Writable := by
  refine ⟨fun entry current => ?_, fun entry inside => ?_⟩
  · rw [b.close_current] at current
    cases current
  · unfold Book.close at inside
    cases current : b.current with
    | none =>
      rw [current] at inside
      exact writable.added entry inside
    | some entry' =>
      rw [current] at inside
      dsimp only at inside
      split at inside
      · rename_i boots
        rcases List.mem_append.mp inside with earlier | last
        · exact writable.added entry earlier
        · rw [List.mem_singleton.mp last]
          exact ⟨writable.current entry' current, boots⟩
      · exact writable.added entry inside

private theorem outside_writable (isWord : ∀ w ∈ words, IsWord menuLst w) (writable : b.Writable) :
    (Reference.outside word words b).Writable := by
  cases words with
  | nil => exact writable
  | cons first rest =>
    rw [Reference.outside]
    split
    · refine ⟨fun entry current => ?_, writable.added⟩
      cases current
      have text := isText_unwords isWord (List.cons_ne_nil _ _)
      exact ⟨⟨_, rfl, text⟩, nofun, nofun, nofun, nofun, nofun, nofun, Nat.zero_le _, fun _ => ⟨rfl, rfl⟩⟩
    split
    · exact ⟨writable.current, writable.added⟩
    split
    · exact ⟨writable.current, writable.added⟩
    · exact writable

/-- A line of words leaves a book whose entries could be written. -/
theorem heeds_writable (isWord : ∀ w ∈ words, IsWord menuLst w) (writable : b.Writable)
    (taken : heeds menuLst b (unwords words) = .ok b') : b'.Writable := by
  rw [heeds, takeLine] at taken
  cases words with
  | nil =>
    rw [unwords, if_pos rfl] at taken
    cases taken
    exact writable
  | cons word rest =>
    have later : ∀ w ∈ rest, IsWord menuLst w := fun w inside => isWord w (List.mem_cons_of_mem _ inside)
    have first := getnextword_unwords isWord
    rw [if_neg (unwords_ne_nil isWord)] at taken
    cases current : b.current with
    | none =>
      rw [current] at taken
      cases taken
      rw [outsideLine_words isWord]
      exact outside_writable later writable
    | some entry =>
      rw [current] at taken
      dsimp only at taken
      split at taken
      · cases taken
        rw [outsideLine_words isWord]
        exact outside_writable later writable.close
      · have discarded : b.discard.Writable := ⟨fun entry same => (by cases same), writable.added⟩
        cases known : menuLst.inside.lookup word with
        | none =>
          rw [Book.insideLine_unknown (first.symm ▸ known : menuLst.inside.lookup _ = none)] at taken
          cases taken
          exact discarded
        | some status =>
          have known' : menuLst.inside.lookup (getnextword (unwords (word :: rest))) = some status := first.symm ▸ known
          rw [Book.insideLine_known known', first, drop_unwords, directive_words isWord known] at taken
          split at taken
          · cases taken
            exact discarded
          · rename_i entry' directed
            split at taken
            · cases taken
            · rename_i room
              cases taken
              refine ⟨fun other same => ?_, writable.added⟩
              cases same
              exact directive_writable later (writable.current entry current) directed (Nat.not_lt.mp room)

/-- All entries of a canonical text could be written. -/
theorem foldLines_writable (canonical : Canonical menuLst lines) (writable : b.Writable)
    (folded : foldLines (heeds menuLst) (lines.map unwords) b = .ok b') : b'.Writable := by
  induction lines generalizing b with
  | nil =>
    cases folded
    exact writable.close
  | cons words rest ih =>
    rw [List.map_cons, foldLines] at folded
    cases taken : heeds menuLst b (unwords words) with
    | error fault =>
      rw [taken] at folded
      cases folded
    | ok next =>
      rw [taken] at folded
      have step := heeds_writable (canonical words List.mem_cons_self) writable taken
      exact ih (fun words inside => canonical words (List.mem_cons_of_mem _ inside)) step folded

private theorem menu_fits (numbers : Word × Word) (writable : ∀ entry ∈ entries, entry.Writable) :
    Canonical menuLst (Writer.menu numbers entries) ∧ Fits menuLst ((Writer.menu numbers entries).map unwords) := by
  obtain ⟨canonical, fit, -⟩ := entries_fit writable
  have number (word : List Byte) (n : Nat) (isWord : IsWord menuLst word) (other : word ≠ chars "title") :=
    @short_line [decimalText n] word (fun w inside => by
      rcases List.mem_cons.mp inside with rfl | last
      · exact isWord
      · rw [List.mem_singleton.mp last]
        exact isWord_decimalText n) other
  have first := number (chars "default") numbers.1.toNat (isWord_of_letters (by decide) (by decide)) (by decide)
  have second := number (chars "delay") numbers.2.toNat (isWord_of_letters (by decide) (by decide)) (by decide)
  have both := first.append second
  refine ⟨fun words inside => ?_, both.fits _ fit⟩
  exact (List.mem_append.mp (List.append_assoc .. ▸ inside)).elim (both.words words) (canonical words)

/-- What is written in canonical words is read as the reference reads it. -/
theorem fsm_reads {heap : Heap} {menu : Addr} {old : List Addr} (scratch : Word × Word) (beyond : List Byte)
    (lists : heap.Lists menu old) (canonical : Canonical menuLst lines) (fit : Fits menuLst (lines.map unwords)) :
    ∃ fuel n p, fsm (textOf (lines.map unwords) ++ beyond) (textOf (lines.map unwords)).length heap
        menu scratch fuel = some (.ok (n, p)) ∧
      Holds heap menu old (Reference.menu (heap.numbers menu) lines) p ∧
      (Reference.menu (heap.numbers menu) lines).Writable := by
  obtain ⟨b, folded⟩ := foldLines_fits menuLst_regular (by decide) canonical fit (heap.numbers menu)
  obtain ⟨fuel, n, p, result, listed⟩ := parse_fits scratch beyond menuLst_regular (by decide) lists canonical folded
  have writable := foldLines_writable canonical
    ⟨fun _ none => (by cases none), fun _ none => absurd none List.not_mem_nil⟩ folded
  rw [foldLines_words canonical folded] at listed writable
  exact ⟨fuel, n, p, result, listed.holds, writable⟩

end

/-- `fsm` gives back all entries that are written, in their order, and the numbers of the head. -/
theorem written_menu_read {heap : Heap} {menu : Addr} {old : List Addr} {entries : List Entry} (scratch : Word × Word)
    (beyond : List Byte) (numbers : Word × Word) (lists : heap.Lists menu old)
    (writable : ∀ entry ∈ entries, entry.Writable ∧ bootable entry = true) :
    ∃ fuel n p, fsm (Writer.text numbers entries ++ beyond)
      (Writer.text numbers entries).length heap menu scratch fuel =
        some (.ok (n, p)) ∧ Holds heap menu old ⟨none, entries, numbers.1, numbers.2⟩ p := by
  obtain ⟨canonical, fit⟩ := menu_fits numbers fun entry inside => (writable entry inside).1
  obtain ⟨fuel, n, p, result, holds, -⟩ := fsm_reads scratch beyond lists canonical fit
  rw [menu_written _ numbers writable] at holds
  exact ⟨fuel, n, p, result, holds⟩

/-- A canonical text and what is written for its entries are read as the same menu. -/
theorem read_menu_rewritten {lines : List (List (List Byte))} {heap : Heap} {menu : Addr} {old : List Addr}
    (scratch : Word × Word) (beyond : List Byte) (lists : heap.Lists menu old) (canonical : Canonical menuLst lines)
    (fit : Fits menuLst (lines.map unwords)) :
    ∃ b : Book, (∀ entry ∈ b.added, entry.Writable ∧ bootable entry = true) ∧
      ∀ text ∈ [textOf (lines.map unwords), Writer.text (b.defaultOs, b.delay) b.added],
        ∃ fuel n p, fsm (text ++ beyond) text.length heap menu scratch fuel = some (.ok (n, p)) ∧
          Holds heap menu old b p := by
  obtain ⟨fuel, n, p, result, holds, writable⟩ := fsm_reads scratch beyond lists canonical fit
  refine ⟨_, writable.added, fun text inside => ?_⟩
  rcases List.mem_cons.mp inside with rfl | last
  · exact ⟨fuel, n, p, result, holds⟩
  · have idle : (Reference.menu (heap.numbers menu) lines).current = none := Book.close_current _
    generalize Reference.menu (heap.numbers menu) lines = b at *
    obtain ⟨canonical', fit'⟩ := menu_fits (b.defaultOs, b.delay) fun entry inside => (writable.added entry inside).1
    obtain ⟨fuel, n, p, result, holds, -⟩ := fsm_reads scratch beyond lists canonical' fit'
    rw [menu_written _ _ writable.added, ← idle] at holds
    rw [List.mem_singleton.mp last]
    exact ⟨fuel, n, p, result, holds⟩

/-- An entry of the second disk with a command line and a module. -/
def secondEntry : Entry where
  title := some (chars "a b")
  kernel := some (chars "k")
  other := none
  append := some (chars "x y")
  initrd := some (chars "i")
  dtb := none
  modules := [⟨chars "m", none, none⟩]
  deviceType := .ide
  deviceNum := 1
  partition := 11

private theorem secondEntry_writable : secondEntry.Writable := by
  have letters (words : List (List Byte)) (check : (words.all fun word =>
      !word.isEmpty && word.all fun c => !isspace c && c != nul && c != menuLst.comment) = true) :
      ∀ w ∈ words, IsWord menuLst w :=
    canonical_of_letters (List.all_eq_true.mpr fun _ same => List.mem_singleton.mp same ▸ check) words
      (List.mem_singleton_self _)
  have word (name : List Byte) (check : ([name].all fun word =>
      !word.isEmpty && word.all fun c => !isspace c && c != nul && c != menuLst.comment) = true) :
      IsWord menuLst name := letters [name] check name (List.mem_singleton_self _)
  have title := isText_unwords (letters [chars "a", chars "b"] (by decide)) (by decide)
  have append := isText_unwords (letters [chars "x", chars "y"] (by decide)) (by decide)
  refine ⟨⟨_, rfl, title⟩, ?_, ?_, nofun, ?_, nofun, ?_, by decide, nofun⟩
  · rintro _ ⟨⟩
    exact word (chars "k") (by decide)
  · rintro _ ⟨⟩
    exact ⟨append, rfl⟩
  · rintro _ ⟨⟩
    exact word (chars "i") (by decide)
  · intro module inside
    rw [List.mem_singleton.mp inside]
    exact ⟨word (chars "m") (by decide), rfl⟩

/-- The entry is written twice and comes back twice. -/
theorem secondEntry_read :
    ∃ fuel n p, fsm (Writer.text (1, 9) [secondEntry, secondEntry] ++ [104])
        (Writer.text (1, 9) [secondEntry, secondEntry]).length headOnly 0 (0, 0) fuel = some (.ok (n, p)) ∧
      Holds headOnly 0 [0] ⟨none, [secondEntry, secondEntry], 1, 9⟩ p := by
  refine written_menu_read (0, 0) [104] (1, 9) headOnly_lists fun entry inside => ?_
  have same : entry = secondEntry := by
    simpa using inside
  rw [same]
  exact ⟨secondEntry_writable, rfl⟩

theorem bootLines_rewritten :
    ∃ b : Book, (∀ entry ∈ b.added, entry.Writable ∧ bootable entry = true) ∧
      ∀ text ∈ [textOf (bootLines.map unwords), Writer.text (b.defaultOs, b.delay) b.added],
        ∃ fuel n p, fsm (text ++ [104]) text.length headOnly 0 (0, 0) fuel = some (.ok (n, p)) ∧
          Holds headOnly 0 [0] b p :=
  read_menu_rewritten (0, 0) [104] headOnly_lists (canonical_of_letters (by decide)) (fits_short (by decide))

end Parthenope.Menu
