import Parthenope.ByteMemory

/-! The ELF loader of `elf.c`, which places the AROS kernel and its modules
around `KERNEL_PHYS_BASE`. Memory is flat: the file image, its symbol and
relocation tables and every placed hunk are read and written at their
addresses. Only the section header table is kept as an array of its own, read
when the file is opened; the loader changes nothing in it but `addr`. An index
beyond `shnum` reads whatever header the memory after the table spells. -/
namespace Parthenope.Elf
open ByteMemory

abbrev Word := BitVec 32
abbrev Mem := Memory 32

def kernelPhysBase : Word := 0x00800000
def kernelVirtBase : Word := 0xff800000

/-- The displacement between where a hunk is written and where it runs. -/
def displacement : Word := kernelVirtBase - kernelPhysBase

def shtSymtab : Word := 2
def shtStrtab : Word := 3
def shtRela : Word := 4
def shtNobits : Word := 8

def etRel : BitVec 16 := 1
def emPpc : BitVec 16 := 20

def shnUndef : BitVec 16 := 0
def shnAbs : BitVec 16 := 0xfff1
def shnCommon : BitVec 16 := 0xfff2

def shfWrite : Word := 1
def shfAlloc : Word := 2
def shfExecinstr : Word := 4

def rPpcNone : Word := 0
def rPpcAddr32 : Word := 1
def rPpcAddr16Lo : Word := 4
def rPpcAddr16Ha : Word := 6
def rPpcRel24 : Word := 10
def rPpcRel32 : Word := 26

/-- `struct elfheader`, the fields the loader reads. -/
structure ElfHeader where
  ident : Fin 4 → BitVec 8
  type : BitVec 16
  machine : BitVec 16
  shoff : Word
  shnum : BitVec 16
  shstrndx : BitVec 16

/-- `struct sheader`. -/
structure SHeader where
  name : Word
  type : Word
  flags : Word
  addr : Word
  offset : Word
  size : Word
  link : Word
  info : Word
  addralign : Word
  entsize : Word
  deriving DecidableEq

/-- `struct symbol`, without the two bytes nothing reads. -/
structure Symbol where
  name : Word
  value : Word
  size : Word
  shindex : BitVec 16

/-- `struct relo`. -/
structure Relo where
  offset : Word
  info : Word
  addend : Word

def elfHeaderAt (m : Mem) (p : Word) : ElfHeader where
  ident i := m (p + BitVec.ofNat 32 i.val)
  type := load16 m (p + 16)
  machine := load16 m (p + 18)
  shoff := load32 m (p + 32)
  shnum := load16 m (p + 48)
  shstrndx := load16 m (p + 50)

def sheaderAt (m : Mem) (p : Word) : SHeader where
  name := load32 m p
  type := load32 m (p + 4)
  flags := load32 m (p + 8)
  addr := load32 m (p + 12)
  offset := load32 m (p + 16)
  size := load32 m (p + 20)
  link := load32 m (p + 24)
  info := load32 m (p + 28)
  addralign := load32 m (p + 32)
  entsize := load32 m (p + 36)

def symbolAt (m : Mem) (p : Word) : Symbol where
  name := load32 m p
  value := load32 m (p + 4)
  size := load32 m (p + 8)
  shindex := load16 m (p + 14)

def reloAt (m : Mem) (p : Word) : Relo where
  offset := load32 m p
  info := load32 m (p + 4)
  addend := load32 m (p + 8)

/-- `ELF32_R_SYM` and `ELF32_R_TYPE`. -/
def Relo.sym (r : Relo) : Word := r.info >>> 8
def Relo.type (r : Relo) : Word := r.info &&& 0xff

abbrev SectionTable := Nat → SHeader

def SectionTable.setAddr (sh : SectionTable) (i : Nat) (addr : Word) : SectionTable :=
  fun k => if k = i then { sh i with addr := addr } else sh k

structure BssTracker where
  addr : Word
  length : Word
  deriving DecidableEq

/-- `symbol_t`; `name` is the index into the module's string copy. -/
structure DebugSymbol where
  name : Word
  lowest : Word
  highest : Word
  deriving DecidableEq

/-- `module_t`, with the list of symbols from its head on. -/
structure Module where
  name : List (BitVec 8)
  str : Option (List (BitVec 8))
  lowest : Word
  highest : Word
  symbols : List DebugSymbol
  deriving DecidableEq

/-- One placement made by `load_hunk`: the header it was called with, the
address it chose and the two pointers it left. -/
structure Hunk where
  sh : SHeader
  addr : Word
  ptrRo : Word
  ptrRw : Word
  deriving DecidableEq

/-- The loader's static data and the memory. `tracker` is indexed past its
`MAX_BSS_SECTIONS` slots as the code does; `placed` records every placement,
newest first, and is read by nothing. -/
structure Loader where
  mem : Mem
  ptrRo : Word
  ptrRw : Word
  tracker : Nat → BssTracker
  bssTracker : Nat
  debugInfo : List Module
  placed : List Hunk

/-- `check_header`. -/
def checkHeader (eh : ElfHeader) : Bool :=
  if eh.ident 0 ≠ 0x7f ∨ eh.ident 1 ≠ 0x45 ∨ eh.ident 2 ≠ 0x4c ∨ eh.ident 3 ≠ 0x46 then false
  else if eh.type ≠ etRel ∨ eh.machine ≠ emPpc then false
  else true

/-- Writable hunks grow down from the base: room for the alignment is taken
below the hunk before rounding down. -/
def hunkBelow (ptrRw size addralign : Word) : Word :=
  (ptrRw - size - addralign + 1) &&& ~~~(addralign - 1)

/-- Read-only hunks grow up, each from the next aligned address. -/
def hunkAbove (ptrRo addralign : Word) : Word :=
  (ptrRo + addralign - 1) &&& ~~~(addralign - 1)

/-- A section that gets write access. -/
def SHeader.writable (sh : SHeader) : Bool := sh.flags &&& shfWrite ≠ 0

/-- The allocation in `load_hunk`: aligned memory beneath the kernel for a
writable section, above it for any other. -/
def takeHunk (sh : SHeader) (st : Loader) : Word × Loader :=
  if sh.writable then
    let ptr := hunkBelow st.ptrRw sh.size sh.addralign
    (ptr, { st with ptrRw := ptr })
  else
    let ptr := hunkAbove st.ptrRo sh.addralign
    (ptr, { st with ptrRo := ptr + sh.size })

/-- `load_hunk`: the header comes back with its address. -/
def loadHunk (file : Word) (sh : SHeader) (st : Loader) : SHeader × Loader :=
  if sh.size = 0 then (sh, st)
  else
    let (ptr, st) := takeHunk sh st
    let st := { st with placed := ⟨sh, ptr, st.ptrRo, st.ptrRw⟩ :: st.placed }
    let sh := { sh with addr := ptr }
    if sh.type ≠ shtNobits then
      (sh, { st with mem := copy st.mem sh.addr (file + sh.offset) sh.size.toNat })
    else
      (sh, { st with
        mem := fill st.mem ptr 0 sh.size.toNat
        tracker := fun k => if k = st.bssTracker then ⟨ptr + displacement, sh.size⟩
          else st.tracker k
        bssTracker := st.bssTracker + 1 })

/-- `strncmp` on two strings given by their characters: the difference at the
first place they differ, zero past a common end. -/
def strncmp (s1 s2 : Nat → BitVec 8) : Nat → Int
  | 0 => 0
  | max + 1 =>
    let diff : Int := (s2 0).toNat - (s1 0).toNat
    if diff ≠ 0 then diff
    else if s1 0 = 0 then 0
    else strncmp (fun i => s1 (i + 1)) (fun i => s2 (i + 1)) max

/-- The characters of `"SysBase"` and its terminator. -/
def sysBaseName (i : Nat) : BitVec 8 :=
  [0x53, 0x79, 0x73, 0x42, 0x61, 0x73, 0x65].getD i 0

/-- What `relocate` sets up before its loop. -/
structure Relocation where
  sh : SectionTable
  symtab : Word
  strtab : Word
  rel : Word
  base : Word
  virt : Word

/-- The value of the symbol an entry refers to and the displacement added to
absolute fields; `none` for undefined and common symbols. The first absolute
symbol named `SysBase` is remembered by its address. -/
def Relocation.resolve (c : Relocation) (m : Mem) (sysBase : Option Word) (symAddr : Word) :
    Option (Word × Word × Option Word) :=
  let sym := symbolAt m symAddr
  if sym.shindex = shnUndef then none
  else if sym.shindex = shnCommon then none
  else if sym.shindex = shnAbs then
    match sysBase with
    | none =>
      if strncmp (fun i => m (c.strtab + sym.name + BitVec.ofNat 32 i)) sysBaseName 8 = 0 then
        some (4, 0, some symAddr)
      else some (sym.value, c.virt, none)
    | some known =>
      if known = symAddr then some (4, 0, some known)
      else some (sym.value, c.virt, some known)
  else some ((c.sh sym.shindex.toNat).addr + sym.value, c.virt, sysBase)

/-- The low halfword of a word. -/
def lowHalf (x : Word) : BitVec 16 := x.setWidth 16

/-- The field one entry patches at `p`, its symbol resolved to `s`; `none` for
an unknown type. -/
def patch (m : Mem) (p : Word) (r : Relo) (s virtoffset : Word) : Option Mem :=
  if r.type = rPpcAddr32 then some (store32 m p (s + r.addend + virtoffset))
  else if r.type = rPpcAddr16Lo then
    some (store16 m p (lowHalf ((s + r.addend + virtoffset) &&& 0xffff)))
  else if r.type = rPpcAddr16Ha then
    let temp := s + r.addend + virtoffset
    let m := store16 m p (lowHalf (temp >>> 16))
    if temp &&& 0x8000 ≠ 0 then some (store16 m p (load16 m p + 1)) else some m
  else if r.type = rPpcRel24 then
    let m := store32 m p (load32 m p &&& ~~~0x3fffffc)
    some (store32 m p (load32 m p ||| ((s + r.addend - p) &&& 0x3fffffc)))
  else if r.type = rPpcRel32 then some (store32 m p (s + r.addend - p))
  else if r.type = rPpcNone then some m
  else none

/-- One turn of the loop in `relocate`, for entry `i`. -/
def Relocation.entry (c : Relocation) (i : Nat) (sysBase : Option Word) (m : Mem) :
    Option (Option Word × Mem) :=
  let r := reloAt m (c.rel + BitVec.ofNat 32 (12 * i))
  let p := c.base + r.offset
  match c.resolve m sysBase (c.symtab + 16 * r.sym) with
  | none => none
  | some (s, virtoffset, sysBase) =>
    match patch m p r s virtoffset with
    | none => none
    | some m => some (sysBase, m)

/-- The loop, `n` entries from entry `i` on. Patches made before a refused
entry stay. -/
def Relocation.run (c : Relocation) : Nat → Nat → Option Word → Mem → Bool × Mem
  | 0, _, _, m => (true, m)
  | n + 1, i, sysBase, m =>
    match c.entry i sysBase m with
    | none => (false, m)
    | some (sysBase, m) => c.run n (i + 1) sysBase m

/-- The sections and tables that relocation section `shrelIdx` names. -/
def relocation (sh : SectionTable) (shrelIdx : Nat) (virt : Word) : Relocation :=
  let shrel := sh shrelIdx
  let shsymtab := sh shrel.link.toNat
  let toreloc := sh shrel.info.toNat
  { sh, virt
    symtab := shsymtab.addr
    strtab := (sh shsymtab.link.toNat).addr
    rel := shrel.addr
    base := toreloc.addr }

/-- `relocate`. -/
def relocate (sh : SectionTable) (shrelIdx : Nat) (virt : Word) (m : Mem) : Bool × Mem :=
  let numrel := (sh shrelIdx).size.toNat / (sh shrelIdx).entsize.toNat
  (relocation sh shrelIdx virt).run numrel 0 none m

/-- The first loop of `load_elf_file`, `n` headers from header `i` on: tables
stay in the file, allocated sections are placed. -/
def placeSections (file : Word) : Nat → Nat → SectionTable → Loader → SectionTable × Loader
  | 0, _, sh, st => (sh, st)
  | n + 1, i, sh, st =>
    if (sh i).type = shtSymtab ∨ (sh i).type = shtStrtab then
      placeSections file n (i + 1) (sh.setAddr i (file + (sh i).offset)) st
    else if (sh i).flags &&& shfAlloc ≠ 0 then
      let (placed, st) := loadHunk file (sh i) st
      placeSections file n (i + 1) (sh.setAddr i placed.addr) st
    else placeSections file n (i + 1) sh st

/-- The second loop: every relocation section whose target has an address. -/
def relocateSections (file : Word) : Nat → Nat → SectionTable → Mem → Bool × SectionTable × Mem
  | 0, _, sh, m => (true, sh, m)
  | n + 1, i, sh, m =>
    if (sh i).type = shtRela ∧ (sh (sh i).info.toNat).addr ≠ 0 then
      let sh := sh.setAddr i (file + (sh i).offset)
      if (sh i).addr = 0 then (false, sh, m)
      else
        match relocate sh i displacement m with
        | (false, m) => (false, sh, m)
        | (true, m) => relocateSections file n (i + 1) sh m
    else relocateSections file n (i + 1) sh m

/-- Both flags of a section that holds code in memory. -/
def isCode (h : SHeader) : Bool :=
  h.flags &&& (shfAlloc ||| shfExecinstr) = shfAlloc ||| shfExecinstr

def bytesFrom (m : Mem) (a : Word) (n : Nat) : List (BitVec 8) :=
  (List.range n).map fun i => m (a + BitVec.ofNat 32 i)

/-- One turn of the loop that copies the string table and widens the module's
bounds to a loaded code section. -/
def measureSection (eh : ElfHeader) (m : Mem) (i : Nat) (h : SHeader) (mod : Module) : Module :=
  let mod := if h.type = shtStrtab ∧ i ≠ eh.shstrndx.toNat ∧ mod.str = none then
      { mod with str := some (bytesFrom m h.addr h.size.toNat) }
    else mod
  if isCode h ∧ h.addr ≠ 0 then
    let virt := h.addr + displacement
    let mod := if virt < mod.lowest then { mod with lowest := virt } else mod
    if virt + h.size > mod.highest then { mod with highest := virt + h.size } else mod
  else mod

/-- One turn of the loop over the symbols at `st`: functions and data of
loaded code sections are put at the head of the module's list. -/
def registerSymbol (sh : SectionTable) (m : Mem) (st : Word) (symbols : List DebugSymbol) (j : Nat) :
    List DebugSymbol :=
  let sym := symbolAt m (st + BitVec.ofNat 32 (16 * j))
  let home := sh sym.shindex.toNat
  if home.addr ≠ 0 ∧ isCode home then
    let lowest := home.addr + sym.value + displacement
    ⟨sym.name, lowest, lowest + sym.size⟩ :: symbols
  else symbols

/-- The last part of `load_elf_file`: the module record with its symbols, from
the first symbol table that has an address. -/
def registerModule (name : List (BitVec 8)) (eh : ElfHeader) (sh : SectionTable) (m : Mem) : Module :=
  let indices := List.range eh.shnum.toNat
  let mod := indices.foldl (fun mod i => measureSection eh m i (sh i) mod)
    { name, str := none, lowest := 0xffffffff, highest := 0, symbols := [] }
  match indices.find? (fun i => (sh i).addr ≠ 0 ∧ (sh i).type = shtSymtab) with
  | none => mod
  | some i =>
    { mod with
      symbols := (List.range ((sh i).size.toNat / 16)).foldl (registerSymbol sh m (sh i).addr) [] }

/-- The section header table of the file at `file`. -/
def sectionTable (m : Mem) (file : Word) : SectionTable :=
  fun i => sheaderAt m (file + (elfHeaderAt m file).shoff + BitVec.ofNat 32 (40 * i))

/-- `load_elf_file`, without its messages. -/
def loadElfFile (name : List (BitVec 8)) (file : Word) (st : Loader) : Bool × Loader :=
  let eh := elfHeaderAt st.mem file
  if checkHeader eh = false then (false, st)
  else
    let (sh, st) := placeSections file eh.shnum.toNat 0 (sectionTable st.mem file) st
    match relocateSections file eh.shnum.toNat 0 sh st.mem with
    | (false, _, m) => (false, { st with mem := m })
    | (true, sh, m) =>
      (true, { st with mem := m, debugInfo := registerModule name eh sh m :: st.debugInfo })

/-- Both pointers start at the base, nothing is tracked or loaded. -/
def Loader.initial (m : Mem) : Loader where
  mem := m
  ptrRo := kernelPhysBase
  ptrRw := kernelPhysBase
  tracker _ := ⟨0, 0⟩
  bssTracker := 0
  debugInfo := []
  placed := []

end Parthenope.Elf
