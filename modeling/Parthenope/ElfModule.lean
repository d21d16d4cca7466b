import Mathlib.Tactic.SplitIfs
import Parthenope.ElfLayout

/-! The module record that `load_elf_file` leaves for the debugger: the bounds of the
code, a copy of a string table, and the symbols of the code. -/
namespace Parthenope.ElfModule
open ByteMemory Elf ElfLayout

/-- The section header table and the memory that a file's module is registered from;
none for a file that is refused. -/
def relocated (file : Word) (st : Loader) : Option (SectionTable × Mem) :=
  let eh := elfHeaderAt st.mem file
  if checkHeader eh = false then none
  else
    let (sh, st) := placeSections file eh.shnum.toNat 0 (sectionTable st.mem file) st
    match relocateSections file eh.shnum.toNat 0 sh st.mem with
    | (false, _, _) => none
    | (true, sh, m) => some (sh, m)

/-- A section of code that has an address. -/
def inMemory (h : SHeader) : Bool := decide (h.addr ≠ 0) && isCode h

/-- The entries of a symbol table. -/
def entries (m : Mem) (h : SHeader) : List Symbol :=
  (List.range (h.size.toNat / 16)).map fun j => symbolAt m (h.addr + BitVec.ofNat 32 (16 * j))

/-- The section that an entry names, or what is behind the table. -/
def home (sh : SectionTable) (sym : Symbol) : SHeader := sh sym.shindex.toNat

/-- The record of an entry. -/
def debugSymbol (sh : SectionTable) (sym : Symbol) : DebugSymbol :=
  let lowest := (home sh sym).addr + sym.value + displacement
  ⟨sym.name, lowest, lowest + sym.size⟩

/-- The first section of a file with a property. -/
def firstSection (eh : ElfHeader) (p : Nat → Bool) : Option Nat := (List.range eh.shnum.toNat).find? p

/-- The symbol table that symbols are taken from: the first one that has an address. -/
def usedSymtab (eh : ElfHeader) (sh : SectionTable) : Option Nat :=
  firstSection eh fun i => (sh i).addr ≠ 0 ∧ (sh i).type = shtSymtab

/-- The string table that is copied: the first one other than that of the sections' names. -/
def copiedStrtab (eh : ElfHeader) (sh : SectionTable) : Option Nat :=
  firstSection eh fun i => (sh i).type = shtStrtab ∧ i ≠ eh.shstrndx.toNat

def strings (m : Mem) (h : SHeader) : List (BitVec 8) := bytesFrom m h.addr h.size.toNat

/-- The records of the entries with a property, in reverse order. -/
def records (sh : SectionTable) (m : Mem) (p : Symbol → Bool) (table : Option Nat) : List DebugSymbol :=
  match table with
  | none => []
  | some i => (((entries m (sh i)).filter p).map (debugSymbol sh)).reverse

section
variable {eh : ElfHeader} {sh sh' : SectionTable} {m : Mem} {mod : Module} {file : Word} {st : Loader}
  {name : List (BitVec 8)} {i : Nat}

private theorem loadHunk_debugInfo (file : Word) (h : SHeader) (st : Loader) :
    (loadHunk file h st).2.debugInfo = st.debugInfo := by
  by_cases empty : h.size = 0
  · rw [loadHunk_empty file st empty]
  · rw [loadHunk_placed file st empty]

theorem placeSections_debugInfo (file : Word) (n i : Nat) (sh : SectionTable) (st : Loader) :
    (placeSections file n i sh st).2.debugInfo = st.debugInfo :=
  @placeSections_keeps (fun later => later.debugInfo = st.debugInfo) st
    (fun file h later same => (loadHunk_debugInfo file h later).trans same) file n i sh rfl

theorem loadElfFile_module (name : List (BitVec 8)) (loads : relocated file st = some (sh, m)) :
    (loadElfFile name file st).1 = true ∧
      (loadElfFile name file st).2.debugInfo =
        registerModule name (elfHeaderAt st.mem file) sh m :: st.debugInfo := by
  unfold relocated at loads
  dsimp only at loads
  split at loads
  · cases loads
  · rename_i accepted
    have kept := placeSections_debugInfo file (elfHeaderAt st.mem file).shnum.toNat 0
      (sectionTable st.mem file) st
    split at loads
    · cases loads
    · rename_i passed
      cases loads
      unfold loadElfFile
      dsimp only
      rw [if_neg accepted, passed, kept]
      exact ⟨rfl, rfl⟩

/-- Where `load_elf_file` returns 1 a module is registered. -/
theorem loadElfFile_relocated (loaded : (loadElfFile name file st).1 = true) :
    ∃ sh m, relocated file st = some (sh, m) := by
  unfold loadElfFile at loaded
  unfold relocated
  dsimp only at loaded ⊢
  split
  · rename_i refused
    rw [if_pos refused] at loaded
    cases loaded
  · rename_i accepted
    rw [if_neg accepted] at loaded
    split
    · rename_i failed
      rw [failed] at loaded
      cases loaded
    · exact ⟨_, _, rfl⟩

theorem inMemory_iff {h : SHeader} : inMemory h = true ↔ h.addr ≠ 0 ∧ isCode h = true := by
  simp only [inMemory, Bool.and_eq_true, decide_eq_true_eq]

private theorem registerSymbol_eq (a : Word) (symbols : List DebugSymbol) (j : Nat) :
    registerSymbol sh m a symbols j =
      if inMemory (home sh (symbolAt m (a + BitVec.ofNat 32 (16 * j)))) = true then
        debugSymbol sh (symbolAt m (a + BitVec.ofNat 32 (16 * j))) :: symbols
      else symbols := by
  simp only [registerSymbol, debugSymbol, home, inMemory_iff]

private theorem registerSymbols_eq (a : Word) (js : List Nat) (symbols : List DebugSymbol) :
    js.foldl (registerSymbol sh m a) symbols =
      (((js.map fun j => symbolAt m (a + BitVec.ofNat 32 (16 * j))).filter fun sym =>
        inMemory (home sh sym)).map (debugSymbol sh)).reverse ++ symbols := by
  induction js generalizing symbols with
  | nil => rfl
  | cons j js ih =>
    rw [List.foldl_cons, ih, List.map_cons, List.filter_cons]
    rw [registerSymbol_eq]
    by_cases code : inMemory (home sh (symbolAt m (a + BitVec.ofNat 32 (16 * j)))) = true
    · rw [if_pos code, if_pos code, List.map_cons, List.reverse_cons, List.append_assoc]
      rfl
    · rw [if_neg code, if_neg code]

private theorem measureSection_symbols (h : SHeader) : (measureSection eh m i h mod).symbols = mod.symbols := by
  unfold measureSection
  dsimp only
  split_ifs <;> rfl

private theorem measureSections_symbols (is : List Nat) :
    (is.foldl (fun mod i => measureSection eh m i (sh i) mod) mod).symbols = mod.symbols := by
  induction is generalizing mod with
  | nil => rfl
  | cons i is ih => rw [List.foldl_cons, ih, measureSection_symbols]

/-- The symbols of a module are those of the code, in the reverse order of the table. -/
theorem registerModule_symbols :
    (registerModule name eh sh m).symbols =
      records sh m (fun sym => inMemory (home sh sym)) (usedSymtab eh sh) := by
  unfold registerModule
  change (match usedSymtab eh sh with
    | none => _
    | some i => _ : Module).symbols = _
  cases usedSymtab eh sh with
  | none => exact measureSections_symbols _
  | some i =>
    refine (registerSymbols_eq _ _ []).trans ?_
    rw [List.append_nil]
    rfl

/-- A section is a string table to be copied if there is no copy yet. -/
theorem measureSection_str (h : SHeader) : (measureSection eh m i h mod).str =
    if h.type = shtStrtab ∧ i ≠ eh.shstrndx.toNat ∧ mod.str = none then some (strings m h) else mod.str := by
  unfold measureSection
  dsimp only
  split_ifs <;> rfl

/-- The copy of a module is that of the first string table. -/
theorem measureSections_str (is : List Nat) (none_yet : mod.str = none) :
    (is.foldl (fun mod i => measureSection eh m i (sh i) mod) mod).str =
      (is.find? fun i => (sh i).type = shtStrtab ∧ i ≠ eh.shstrndx.toNat).map fun i => strings m (sh i) := by
  have kept {text : List (BitVec 8)} (is : List Nat) (mod : Module) (copied : mod.str = some text) :
      (is.foldl (fun mod i => measureSection eh m i (sh i) mod) mod).str = some text := by
    induction is generalizing mod with
    | nil => exact copied
    | cons i is ih =>
      refine ih _ ?_
      rw [measureSection_str, copied, if_neg fun both => by cases both.2.2]
  induction is generalizing mod with
  | nil => exact none_yet
  | cons i is ih =>
    rw [List.foldl_cons, List.find?_cons]
    by_cases table : (sh i).type = shtStrtab ∧ i ≠ eh.shstrndx.toNat
    · rw [decide_eq_true table]
      refine kept is _ ?_
      rw [measureSection_str, if_pos ⟨table.1, table.2, none_yet⟩]
    · rw [decide_eq_false table]
      refine ih ?_
      rw [measureSection_str, if_neg fun both => table ⟨both.1, both.2.1⟩, none_yet]

theorem registerModule_str : (registerModule name eh sh m).str =
    (copiedStrtab eh sh).map fun i => strings m (sh i) := by
  unfold registerModule
  dsimp only
  split
  · exact measureSections_str _ rfl
  · exact measureSections_str _ rfl

theorem measureSection_code (eh : ElfHeader) (m : Mem) (i : Nat) (mod : Module) {h : SHeader}
    (code : inMemory h = true) :
    (measureSection eh m i h mod).lowest =
        (if h.addr + displacement < mod.lowest then h.addr + displacement else mod.lowest) ∧
      (measureSection eh m i h mod).highest =
        if h.addr + displacement + h.size > mod.highest then h.addr + displacement + h.size
        else mod.highest := by
  obtain ⟨addressed, code⟩ := inMemory_iff.mp code
  unfold measureSection
  dsimp only
  rw [if_pos ⟨code, addressed⟩]
  split_ifs <;> exact ⟨rfl, rfl⟩

theorem measureSection_other (eh : ElfHeader) (m : Mem) (i : Nat) (mod : Module) {h : SHeader}
    (other : inMemory h ≠ true) :
    (measureSection eh m i h mod).lowest = mod.lowest ∧
      (measureSection eh m i h mod).highest = mod.highest := by
  unfold measureSection
  dsimp only
  rw [if_neg fun both => other (inMemory_iff.mpr both.symm)]
  split_ifs <;> exact ⟨rfl, rfl⟩

/-- The string table linked from the symbol table. -/
def linkedStrtab (eh : ElfHeader) (sh : SectionTable) : Option Nat :=
  match usedSymtab eh sh with
  | none => none
  | some i =>
    if (sh i).link.toNat < eh.shnum.toNat ∧ (sh (sh i).link.toNat).type = shtStrtab then
      some (sh i).link.toNat
    else none

/-- A string stands at an offset of a table. -/
def StringAt (table : List (BitVec 8)) (offset : Word) (text : List (BitVec 8)) : Prop :=
  0 ∉ text ∧ text ++ [0] <+: table.drop offset.toNat

/-- Each symbol's name is found in the copy as it stands in the linked table. -/
def NamesCopied (eh : ElfHeader) (sh : SectionTable) (m : Mem) (mod : Module) : Prop :=
  ∀ k, linkedStrtab eh sh = some k → ∀ s ∈ mod.symbols, ∀ text,
    StringAt (strings m (sh k)) s.name text → ∃ copied, mod.str = some copied ∧ StringAt copied s.name text

/-- The names are copied if and only if the table copied is the linked one, or spells the
same names. -/
theorem names_copied_iff (name : List (BitVec 8)) (loads : relocated file st = some (sh, m)) :
    ∃ mod, (loadElfFile name file st).2.debugInfo = mod :: st.debugInfo ∧
      (NamesCopied (elfHeaderAt st.mem file) sh m mod ↔
        ∀ k, linkedStrtab (elfHeaderAt st.mem file) sh = some k →
          copiedStrtab (elfHeaderAt st.mem file) sh = some k ∨
          ∀ s ∈ records sh m (fun sym => inMemory (home sh sym)) (usedSymtab (elfHeaderAt st.mem file) sh),
            ∀ text, StringAt (strings m (sh k)) s.name text →
              ∃ c, copiedStrtab (elfHeaderAt st.mem file) sh = some c ∧
                StringAt (strings m (sh c)) s.name text) := by
  refine ⟨_, (loadElfFile_module name loads).2, ?_⟩
  generalize elfHeaderAt st.mem file = eh
  rw [NamesCopied, registerModule_symbols, registerModule_str]
  constructor
  · intro copied k linked
    refine .inr fun s inside text stands => ?_
    obtain ⟨_, same, text'⟩ := copied k linked s inside text stands
    obtain ⟨c, table, rfl⟩ := Option.map_eq_some_iff.mp same
    exact ⟨c, table, text'⟩
  · intro tables k linked s inside text stands
    rcases tables k linked with same | alike
    · rw [same]
      exact ⟨_, rfl, stands⟩
    · obtain ⟨c, table, text'⟩ := alike s inside text stands
      rw [table]
      exact ⟨_, rfl, text'⟩

end

def wordBytes (x : Word) : List (BitVec 8) := (List.range 4).map (byteOf 4 x)

def headerBytes (h : SHeader) : List (BitVec 8) :=
  [h.name, h.type, h.flags, h.addr, h.offset, h.size, h.link, h.info, h.addralign, h.entsize].flatMap wordBytes

/-- A relocatable file for the PowerPC: the section headers, and their contents behind. -/
def elfFile (sections : List SHeader) (contents : List (BitVec 8)) : List (BitVec 8) :=
  [0x7f, 0x45, 0x4c, 0x46, 1, 2, 1, 0, 0, 0, 0, 0, 0, 0, 0, 0,
   0, 1, 0, 20, 0, 0, 0, 1, 0, 0, 0, 0, 0, 0, 0, 0,
   0, 0, 0, 52, 0, 0, 0, 0, 0, 52, 0, 0, 0, 0, 0, 40, 0, BitVec.ofNat 8 sections.length, 0, 0] ++
    sections.flatMap headerBytes ++ contents

/-- A file with four bytes of code, one symbol in them, and the string tables `a` and `b`.
The symbol's section and the table of its name are given. -/
def oneSymbol (shindex : BitVec 16) (strtab : Word) : List (BitVec 8) :=
  elfFile
    [⟨0, 0, 0, 0, 0, 0, 0, 0, 0, 0⟩,
     ⟨0, 1, 6, 0, 252, 4, 0, 0, 4, 0⟩,
     ⟨0, shtSymtab, 0, 0, 256, 16, strtab, 0, 4, 16⟩,
     ⟨0, shtStrtab, 0, 0, 272, 3, 0, 0, 1, 0⟩,
     ⟨0, shtStrtab, 0, 0, 275, 3, 0, 0, 1, 0⟩]
    ([0x4e, 0x80, 0, 0x20] ++ [0, 0, 0, 1, 0, 0, 0, 0, 0, 0, 0, 4, 0x12, 0] ++
      [byteOf 2 shindex 0, byteOf 2 shindex 1] ++ [0, 0x61, 0] ++ [0, 0x62, 0])

def symbolLoader (shindex : BitVec 16) (strtab : Word) : Loader :=
  Loader.initial (memoryWith (oneSymbol shindex strtab))

example : (loadElfFile [] 0x1000 (symbolLoader 1 3)).2.debugInfo =
    [⟨[], some [0, 0x61, 0], 0xff800000, 0xff800004, [⟨1, 0xff800000, 0xff800004⟩]⟩] := by decide

private theorem oneSymbol_loads : ∃ sh m, relocated 0x1000 (symbolLoader 1 3) = some (sh, m) :=
  loadElfFile_relocated (show (loadElfFile [] 0x1000 (symbolLoader 1 3)).1 = true by decide)

/-- What holds of the tables of a file holds of those it is registered from. -/
theorem relocated_any (file : Word) (st : Loader) (p : SectionTable × Mem → Prop) [DecidablePred p]
    (holds : (relocated file st).any (fun tables => decide (p tables)) = true) :
    ∃ sh m, relocated file st = some (sh, m) ∧ p (sh, m) := by
  obtain ⟨⟨sh, m⟩, loads, holds⟩ := (Option.any_eq_true _ _).mp holds
  exact ⟨sh, m, loads, of_decide_eq_true holds⟩

theorem oneSymbol_named : ∃ sh m mod,
    (loadElfFile [] 0x1000 (symbolLoader 1 3)).2.debugInfo = mod :: (symbolLoader 1 3).debugInfo ∧
      (NamesCopied (elfHeaderAt (symbolLoader 1 3).mem 0x1000) sh m mod ↔
        ∀ k, linkedStrtab (elfHeaderAt (symbolLoader 1 3).mem 0x1000) sh = some k →
          copiedStrtab (elfHeaderAt (symbolLoader 1 3).mem 0x1000) sh = some k ∨
          ∀ s ∈ records sh m (fun sym => inMemory (home sh sym))
              (usedSymtab (elfHeaderAt (symbolLoader 1 3).mem 0x1000) sh),
            ∀ text, StringAt (strings m (sh k)) s.name text →
              ∃ c, copiedStrtab (elfHeaderAt (symbolLoader 1 3).mem 0x1000) sh = some c ∧
                StringAt (strings m (sh c)) s.name text) := by
  obtain ⟨sh, m, loads⟩ := oneSymbol_loads
  exact ⟨sh, m, names_copied_iff [] loads⟩

/-- The symbol is called `b` in the table linked, and `a` in the one copied. -/
theorem second_table_uncopied : ∃ sh m mod, relocated 0x1000 (symbolLoader 1 4) = some (sh, m) ∧
    (loadElfFile [] 0x1000 (symbolLoader 1 4)).2.debugInfo = mod :: (symbolLoader 1 4).debugInfo ∧
    ¬NamesCopied (elfHeaderAt (symbolLoader 1 4).mem 0x1000) sh m mod := by
  obtain ⟨sh, m, loads, linked, strung, copied, symbols⟩ := relocated_any 0x1000 (symbolLoader 1 4)
    (fun tables => linkedStrtab (elfHeaderAt (symbolLoader 1 4).mem 0x1000) tables.1 = some 4 ∧
      strings tables.2 (tables.1 4) = [0, 0x62, 0] ∧
      (registerModule [] (elfHeaderAt (symbolLoader 1 4).mem 0x1000) tables.1 tables.2).str =
        some [0, 0x61, 0] ∧
      (registerModule [] (elfHeaderAt (symbolLoader 1 4).mem 0x1000) tables.1 tables.2).symbols =
        [⟨1, 0xff800000, 0xff800004⟩]) (by decide)
  refine ⟨sh, m, _, loads, (loadElfFile_module [] loads).2, fun named => ?_⟩
  obtain ⟨text, same, -, stands⟩ := named 4 linked ⟨1, 0xff800000, 0xff800004⟩ (symbols ▸ List.mem_singleton_self _)
    [0x62] ⟨by decide, by rw [strung]; decide⟩
  rw [copied] at same
  cases same
  exact absurd stands (by decide)

end Parthenope.ElfModule