import Mathlib.Data.List.Find
import Parthenope.ElfAbsolute
import Parthenope.ElfImage

/-! What the record of a module depends on. Two loads of a file take the same course while all
that they look at is the same: the headers that the file has, its bytes, and what has been
placed from them. Headers behind the table are looked at where a symbol names one. -/
namespace Parthenope.ElfRecord
open ByteMemory Elf ElfAlignment ElfEntries ElfLayout ElfModule ElfRelocation ElfSections StepLoop

/-- Memories that are alike where they are known. -/
def Agree (known : Word → Prop) (m m' : Mem) : Prop := ∀ x, known x → m' x = m x

/-- Tables that are alike in the headers a file has. -/
def SameHeaders (shnum : Nat) (sh sh' : SectionTable) : Prop := ∀ i < shnum, sh' i = sh i

/-- The bytes of a file, and those of its sections that have been placed when the first loop
comes to section `n`. -/
def Known (file : Word) (len : Nat) (sh : SectionTable) (st : Loader) (n : Nat) (x : Word) : Prop :=
  Within file len x ∨
    ∃ i < n, Loads (sh i) ∧ Within (hunkOf (sh i) (before file sh st i)).addr (sh i).size.toNat x

def KnownAt (known : Word → Prop) (a : Word) (n : Nat) : Prop := ∀ x, Within a n x → known x

/-- As much of a string is known as tells whether it is `SysBase`. -/
def NameKnown (known : Word → Prop) (m : Mem) (a : Word) : Prop :=
  ∃ i < 8, (∀ j ≤ i, known (a + BitVec.ofNat 32 j)) ∧
    (m (a + BitVec.ofNat 32 i) ≠ sysBaseName i ∨ m (a + BitVec.ofNat 32 i) = 0)

/-- What `relocate` looks at for entry `i` is known, and the headers it takes are the file's. -/
structure EntryListed (known : Word → Prop) (shnum : Nat) (sh : SectionTable) (k : Nat) (m : Mem) (i : Nat)
    (sysBase : Option Word) : Prop where
  entry : KnownAt known ((relocation sh k displacement).rel + BitVec.ofNat 32 (12 * i)) 12
  symbol : KnownAt known (symAddr (relocation sh k displacement) m i) 16
  home : (symbolOf (relocation sh k displacement) m i).shindex ≠ shnAbs →
    (symbolOf (relocation sh k displacement) m i).shindex.toNat < shnum
  name : (symbolOf (relocation sh k displacement) m i).shindex = shnAbs → sysBase = none →
    (sh (sh k).link.toNat).link.toNat < shnum ∧
      NameKnown known m
        ((relocation sh k displacement).strtab + (symbolOf (relocation sh k displacement) m i).name)

/-- All that is looked at in a load is of the file, where a relocation leads to it or the record
is made of it; which sections the symbols of the record name is left open. -/
structure SelfContained (file : Word) (len : Nat) (st : Loader) (sh : SectionTable) (m : Mem) : Prop where
  contents : ∀ i < (elfHeaderAt st.mem file).shnum.toNat, Loads (sectionTable st.mem file i) →
    (sectionTable st.mem file i).type ≠ shtNobits →
      KnownAt (Within file len) (file + (sectionTable st.mem file i).offset) (sectionTable st.mem file i).size.toNat
  targets : ∀ k < (elfHeaderAt st.mem file).shnum.toNat, (sectionTable st.mem file k).type = shtRela →
    (sectionTable st.mem file k).info.toNat < (elfHeaderAt st.mem file).shnum.toNat
  tables : ∀ k sh' m', Applies file st k sh' m' → (sh' k).link.toNat < (elfHeaderAt st.mem file).shnum.toNat
  entries : ∀ sh' k i sysBase m', Meets file st sh' k i sysBase m' →
    EntryListed (Known file len (sectionTable st.mem file) st (elfHeaderAt st.mem file).shnum.toNat)
      (elfHeaderAt st.mem file).shnum.toNat sh' k m' i sysBase
  symbols : ∀ i, usedSymtab (elfHeaderAt st.mem file) sh = some i →
    KnownAt (Known file len (sectionTable st.mem file) st (elfHeaderAt st.mem file).shnum.toNat) (sh i).addr
      (16 * ((sh i).size.toNat / 16))
  strings : ∀ i, copiedStrtab (elfHeaderAt st.mem file) sh = some i →
    KnownAt (Known file len (sectionTable st.mem file) st (elfHeaderAt st.mem file).shnum.toNat) (sh i).addr
      (sh i).size.toNat

/-- An entry that names a section of the file, one of code that has an address. -/
def namesCode (eh : ElfHeader) (sh : SectionTable) (sym : Symbol) : Bool :=
  decide (sym.shindex.toNat < eh.shnum.toNat) && inMemory (home sh sym)

def firstSymtab (eh : ElfHeader) (sh : SectionTable) : Option Nat :=
  firstSection eh fun i => (sh i).type = shtSymtab

/-- What the record of a module is to hold: the code of the first symbol table, however the
headers behind the table and the memory outside of the file are when the file is loaded. -/
structure RecordsCode (name : List (BitVec 8)) (file : Word) (len : Nat) (st : Loader) (sh : SectionTable) (m : Mem)
    (mod : Module) : Prop where
  symbols : mod.symbols =
    records sh m (namesCode (elfHeaderAt st.mem file) sh) (firstSymtab (elfHeaderAt st.mem file) sh)
  unconsulted : ∀ table' m', SameHeaders (elfHeaderAt st.mem file).shnum.toNat (sectionTable st.mem file) table' →
    Agree (Within file len) st.mem m' →
      (loadTable name file (elfHeaderAt st.mem file) table' { st with mem := m' }).1 = true ∧
        (loadTable name file (elfHeaderAt st.mem file) table' { st with mem := m' }).2.debugInfo = mod :: st.debugInfo

/-- No entry of the symbol table names a section behind the header table. -/
def Listed (eh : ElfHeader) (sh : SectionTable) (m : Mem) : Prop :=
  ∀ i, usedSymtab eh sh = some i → ∀ sym ∈ entries m (sh i), sym.shindex.toNat < eh.shnum.toNat

section
variable {known : Word → Prop} {shnum i k n len : Nat} {sh sh' : SectionTable} {st : Loader} {m m' start after : Mem}
  {sysBase sysBase' : Option Word} {file a : Word} {h : SHeader}

theorem SameHeaders.setAddr (headers : SameHeaders shnum sh sh') (below : i < shnum) (a : Word) :
    SameHeaders shnum (sh.setAddr i a) (sh'.setAddr i a) := by
  intro k inside
  unfold SectionTable.setAddr
  rw [headers i below, headers k inside]

private theorem Agree.sameAt (agree : Agree known m m') (inside : KnownAt known a n) : SameAt m' m a n :=
  fun x there => agree x (inside x there)

/-- A comparison goes as far as the strings are equal. -/
theorem strncmp_known {s s' t : Nat → BitVec 8} (same : ∀ j ≤ i, s' j = s j) (stops : s i ≠ t i ∨ s i = 0)
    (below : i < n) : strncmp s' t n = strncmp s t n := by
  induction n generalizing i s s' t with
  | zero => exact absurd below (Nat.not_lt_zero i)
  | succ n ih =>
    rw [strncmp, strncmp, same 0 (Nat.zero_le i)]
    split
    · rfl
    · split
      · rfl
      · rename_i equal nonzero
        cases i with
        | zero =>
          rcases stops with differs | zero
          · exact absurd (BitVec.eq_of_toNat_eq (by omega)) differs
          · exact absurd zero nonzero
        | succ i =>
          exact ih (fun j least => same (j + 1) (Nat.succ_le_succ least)) stops (Nat.lt_of_succ_lt_succ below)

/-- A patch is the same in memories that are alike, and leaves them so. -/
theorem patch_agree {p s v : Word} {r : Relo} (agree : Agree known m m') (patched : patch m p r s v = some after) :
    ∃ after', patch m' p r s v = some after' ∧ Agree known after after' := by
  have type : r.type ∈ [rPpcNone, rPpcAddr32, rPpcAddr16Lo, rPpcAddr16Ha, rPpcRel24, rPpcRel32] := by
    by_contra other
    rw [(patch_none_iff m p r s v).mpr other] at patched
    cases patched
  rw [patch_seen m p r s v type] at patched
  cases patched
  exact ⟨_, patch_seen m' p r s v type, fun x there => applyType_agree (agree x there)⟩

/-- What a symbol stands for is the same in memories that are alike, and in tables. -/
theorem resolve_agree (headers : SameHeaders shnum sh sh') (below : k < shnum) (symtab : (sh k).link.toNat < shnum)
    (agree : Agree known m m') (listed : EntryListed known shnum sh k m i sysBase) :
    (relocation sh' k displacement).resolve m' sysBase (symAddr (relocation sh k displacement) m i) =
      (relocation sh k displacement).resolve m sysBase (symAddr (relocation sh k displacement) m i) := by
  let c := relocation sh k displacement
  let c' := relocation sh' k displacement
  have symbol : symbolAt m' (symAddr c m i) = symbolAt m (symAddr c m i) :=
    symbolAt_congr (agree.sameAt listed.symbol)
  change c'.resolve m' sysBase (symAddr c m i) = c.resolve m sysBase (symAddr c m i)
  by_cases absolute : (symbolAt m (symAddr c m i)).shindex = shnAbs
  · have named : IsSysBase c' m' sysBase (symAddr c m i) ↔ IsSysBase c m sysBase (symAddr c m i) := by
      cases sysBase with
      | some known => simp [IsSysBase]
      | none =>
        obtain ⟨linked, j, small, inside, stops⟩ := listed.name absolute rfl
        have strtab : c'.strtab = c.strtab := by
          change (sh' (sh' (sh' k).link.toNat).link.toNat).addr = (sh (sh (sh k).link.toNat).link.toNat).addr
          rw [headers k below, headers _ symtab, headers _ linked]
        let name := c.strtab + (symbolAt m (symAddr c m i)).name
        have compared : strncmp (fun l => m' (name + BitVec.ofNat 32 l)) sysBaseName 8 =
            strncmp (fun l => m (name + BitVec.ofNat 32 l)) sysBaseName 8 :=
          strncmp_known (fun l least => agree _ (inside l least)) stops small
        have same : Named c' m' (symAddr c m i) ↔ Named c m (symAddr c m i) := by
          unfold Named
          rw [strtab, symbol, compared]
        rw [IsSysBase, IsSysBase, same]
    rw [resolve_absolute absolute, resolve_absolute (symbol ▸ absolute), symbol]
    simp only [named]
    rfl
  · by_cases refused : (symbolAt m (symAddr c m i)).shindex ∈ [shnUndef, shnCommon]
    · rw [(resolve_none_iff c m sysBase _).mpr refused, (resolve_none_iff c' m' sysBase _).mpr (symbol ▸ refused)]
    · have defined : (symbolAt m (symAddr c m i)).shindex ∉ [shnUndef, shnCommon, shnAbs] := by
        simp only [List.mem_cons, List.not_mem_nil, or_false] at refused ⊢
        tauto
      have home : c'.sh (symbolAt m (symAddr c m i)).shindex.toNat =
          c.sh (symbolAt m (symAddr c m i)).shindex.toNat :=
        headers _ (listed.home absolute)
      rw [resolve_defined c m sysBase _ defined, resolve_defined c' m' sysBase _ (symbol ▸ defined), symbol, home]
      rfl

/-- One turn of the loop of `relocate` is the same in memories that are alike. -/
theorem entry_agree (headers : SameHeaders shnum sh sh') (below : k < shnum) (target : (sh k).info.toNat < shnum)
    (symtab : (sh k).link.toNat < shnum) (agree : Agree known m m') (listed : EntryListed known shnum sh k m i sysBase)
    (passed : (relocation sh k displacement).entry i sysBase m = some (sysBase', after)) :
    ∃ after', (relocation sh' k displacement).entry i sysBase m' = some (sysBase', after') ∧
      Agree known after after' := by
  let c := relocation sh k displacement
  let c' := relocation sh' k displacement
  have rel : c'.rel = c.rel := congrArg SHeader.addr (headers k below)
  have table : c'.symtab = c.symtab := by
    change (sh' (sh' k).link.toNat).addr = (sh (sh k).link.toNat).addr
    rw [headers k below, headers _ symtab]
  have base : c'.base = c.base := by
    change (sh' (sh' k).info.toNat).addr = (sh (sh k).info.toNat).addr
    rw [headers k below, headers _ target]
  have entry : entryAt c' m' i = entryAt c m i := by
    rw [entryAt, rel]
    exact reloAt_congr (agree.sameAt listed.entry)
  have place : symAddr c' m' i = symAddr c m i := by rw [symAddr, table, entry, symAddr]
  have resolved : c'.resolve m' sysBase (symAddr c m i) = c.resolve m sysBase (symAddr c m i) :=
    resolve_agree headers below symtab agree listed
  rw [entry_eq] at passed ⊢
  obtain ⟨r, known, passed⟩ := Option.bind_eq_some_iff.mp passed
  obtain ⟨patched, stores, same⟩ := Option.map_eq_some_iff.mp passed
  cases same
  obtain ⟨after', stores', alike⟩ := patch_agree agree stores
  refine ⟨after', ?_, alike⟩
  rw [place, resolved, known, Option.bind_some, fieldOf, base, entry, ← fieldOf, stores', Option.map_some]

/-- `relocate` does the same in memories that are alike. -/
theorem run_agree (headers : SameHeaders shnum sh sh') (below : k < shnum) (target : (sh k).info.toNat < shnum)
    (symtab : (sh k).link.toNat < shnum)
    (listed : ∀ i sysBase m, Turn sh k start i sysBase m → EntryListed known shnum sh k m i sysBase)
    (reached : Reaches (entryTurn (relocation sh k displacement) (numrel (sh k))) (0, none, start) (i, sysBase, m))
    (count : i + n = numrel (sh k)) (agree : Agree known m m')
    (passed : (relocation sh k displacement).run n i sysBase m = (true, after)) :
    ∃ after', (relocation sh' k displacement).run n i sysBase m' = (true, after') ∧ Agree known after after' := by
  induction n generalizing i sysBase m m' with
  | zero =>
    cases passed
    exact ⟨m', rfl, agree⟩
  | succ n ih =>
    have before : i < numrel (sh k) := by omega
    rw [Relocation.run] at passed ⊢
    cases entered : (relocation sh k displacement).entry i sysBase m with
    | none =>
      rw [entered] at passed
      cases passed
    | some r =>
      rw [entered] at passed
      obtain ⟨later, entered', alike⟩ :=
        entry_agree headers below target symtab agree (listed i sysBase m ⟨before, reached⟩) entered
      rw [entered']
      have turns : entryTurn (relocation sh k displacement) (numrel (sh k)) (i, sysBase, m) =
          .inr (i + 1, r.1, r.2) := by
        rw [entryTurn, if_pos before, entered]
      exact ih (reached.turn turns) (by omega) alike passed

/-- The headers of a table as they are in the file, but for their addresses. -/
def Addressed (table sh : SectionTable) : Prop := ∀ i, ∃ a, sh i = { table i with addr := a }

theorem Addressed.setAddr {table : SectionTable} (addressed : Addressed table sh) (k : Nat) (a : Word) :
    Addressed table (sh.setAddr k a) := by
  intro i
  obtain ⟨b, header⟩ := addressed i
  refine ⟨(sh.setAddr k a i).addr, ?_⟩
  rw [setAddr_header, header]

/-- The target of a relocation section is a section of the file. -/
theorem SelfContained.target {table : SectionTable} {m₁ : Mem} (contained : SelfContained file len st table m₁)
    (addressed : Addressed (sectionTable st.mem file) sh) (below : k < (elfHeaderAt st.mem file).shnum.toNat)
    (rela : (sh k).type = shtRela) : (sh k).info.toNat < (elfHeaderAt st.mem file).shnum.toNat := by
  obtain ⟨a, header⟩ := addressed k
  rw [header] at rela ⊢
  exact contained.targets k below rela

/-- The second loop of `load_elf_file` does the same in memories that are alike. -/
theorem sections_agree {table last : SectionTable} {m₁ : Mem} (accepted : checkHeader (elfHeaderAt st.mem file) = true)
    (contained : SelfContained file len st table m₁) (addressed : Addressed (sectionTable st.mem file) sh)
   
    (reached :
      let placed := placeSections file (elfHeaderAt st.mem file).shnum.toNat 0 (sectionTable st.mem file) st
      Reaches (sectionTurn file (elfHeaderAt st.mem file).shnum.toNat) (0, placed.1, placed.2.mem) (k, sh, m))
    (count : k + n = (elfHeaderAt st.mem file).shnum.toNat)
    (headers : SameHeaders (elfHeaderAt st.mem file).shnum.toNat sh sh')
    (agree : Agree (Known file len (sectionTable st.mem file) st (elfHeaderAt st.mem file).shnum.toNat) m m')
    (passed : relocateSections file n k sh m = (true, last, after)) :
    ∃ last' after', relocateSections file n k sh' m' = (true, last', after') ∧
      SameHeaders (elfHeaderAt st.mem file).shnum.toNat last last' ∧
      Agree (Known file len (sectionTable st.mem file) st (elfHeaderAt st.mem file).shnum.toNat) after after' := by
  induction n generalizing k sh sh' m m' with
  | zero =>
    cases passed
    exact ⟨sh', m', rfl, headers, agree⟩
  | succ n ih =>
    have below : k < (elfHeaderAt st.mem file).shnum.toNat := by omega
    rw [relocateSections] at passed ⊢
    rw [headers k below]
    by_cases applies : (sh k).type = shtRela ∧ (sh (sh k).info.toNat).addr ≠ 0
    · have target := contained.target addressed below applies.1
      have applied : Applies file st k sh m := ⟨accepted, below, reached, applies.1, applies.2⟩
      have symtab := contained.tables k sh m applied
      have header : opened file sh k k = { sh k with addr := file + (sh k).offset } := if_pos rfl
      have alike : SameHeaders _ (opened file sh k) (sh'.setAddr k (file + (sh k).offset)) := headers.setAddr below _
      rw [headers _ target]
      rw [if_pos applies] at passed ⊢
      dsimp only at passed ⊢
      rw [alike k below, header]
      rw [← opened, header] at passed
      dsimp only at passed ⊢
      by_cases unplaced : file + (sh k).offset = 0
      · rw [if_pos unplaced] at passed
        cases passed
      · rw [if_neg unplaced] at passed ⊢
        have turns : sectionTurn file (elfHeaderAt st.mem file).shnum.toNat (k, sh, m) =
            if (relocate (opened file sh k) k displacement m).1 = true then
              .inr (k + 1, opened file sh k, (relocate (opened file sh k) k displacement m).2)
            else .inl (false, opened file sh k, (relocate (opened file sh k) k displacement m).2) := by
          rw [sectionTurn, if_pos below, if_pos applies]
          dsimp only
          rw [← opened, header, if_neg unplaced]
          rcases relocate (opened file sh k) k displacement m with ⟨fine, m₂⟩
          cases fine <;> rfl
        rcases relocated : relocate (opened file sh k) k displacement m with ⟨fine, m₂⟩
        rw [relocated] at passed turns
        cases fine with
        | false => cases passed
        | true =>
          obtain ⟨m₂', relocated', agree'⟩ := run_agree alike below (header.symm ▸ target) (header.symm ▸ symtab)
            (fun i sysBase m₃ turn => contained.entries _ k i sysBase m₃ ⟨sh, m, applied, rfl, unplaced, turn⟩)
            (.start _) (Nat.zero_add _) agree relocated
          have again : relocate (sh'.setAddr k (file + (sh k).offset)) k displacement m' = (true, m₂') := by
            rw [relocate, alike k below]
            exact relocated'
          rw [again]
          exact ih (addressed.setAddr k _) (reached.turn turns) (by omega) alike agree' passed
    · have turns : sectionTurn file (elfHeaderAt st.mem file).shnum.toNat (k, sh, m) = .inr (k + 1, sh, m) := by
        rw [sectionTurn, if_pos below, if_neg applies]
      have other : ¬((sh k).type = shtRela ∧ (sh' (sh k).info.toNat).addr ≠ 0) := by
        rintro ⟨rela, address⟩
        rw [headers _ (contained.target addressed below rela)] at address
        exact applies ⟨rela, address⟩
      rw [if_neg applies] at passed
      rw [if_neg other]
      exact ih addressed (reached.turn turns) (by omega) headers agree passed

/-- Where a hunk is placed does not depend on the memory. -/
theorem hunkOf_mem (h : SHeader) (st : Loader) (m : Mem) : hunkOf h { st with mem := m } = hunkOf h st := by
  unfold hunkOf takeHunk
  split <;> rfl

/-- A hunk is filled the same in memories that are alike, and is known then. -/
theorem loadHunk_agree (nonempty : h.size ≠ 0)
    (contents : h.type ≠ shtNobits → KnownAt known (file + h.offset) h.size.toNat) (agree : Agree known st.mem m') :
    ∃ m'', loadHunk file h { st with mem := m' } =
        ((loadHunk file h st).1, { (loadHunk file h st).2 with mem := m'' }) ∧
      Agree (fun x => known x ∨ Within (hunkOf h st).addr h.size.toNat x) (loadHunk file h st).2.mem m'' := by
  rw [loadHunk_placed file st nonempty, loadHunk_placed file { st with mem := m' } nonempty,
    hunkOf_mem]
  refine ⟨_, rfl, fun x there => ?_⟩
  change (if h.type = shtNobits then fill m' (hunkOf h st).addr 0 h.size.toNat
    else copy m' (hunkOf h st).addr (file + h.offset) h.size.toNat) x = _
  by_cases inside : Within (hunkOf h st).addr h.size.toNat x
  · dsimp only
    split
    · rw [fill, fill, if_pos inside, if_pos inside]
    · rename_i stored
      rw [copy, copy, if_pos inside, if_pos inside]
      refine agree _ (contents stored _ ?_)
      have distance : file + h.offset + (x - (hunkOf h st).addr) - (file + h.offset) = x - (hunkOf h st).addr :=
        add_sub_cancel_left _ _
      rw [Within, distance]
      exact inside
  · dsimp only
    split
    · rw [fill, fill, if_neg inside, if_neg inside]
      exact agree x (there.resolve_right inside)
    · rw [copy, copy, if_neg inside, if_neg inside]
      exact agree x (there.resolve_right inside)

private theorem known_succ {table : SectionTable} {x : Word} : Known file len table st (n + 1) x ↔
    Known file len table st n x ∨
      Loads (table n) ∧ Within (hunkOf (table n) (before file table st n)).addr (table n).size.toNat x := by
  unfold Known
  constructor
  · rintro (inFile | ⟨i, below, there⟩)
    · exact .inl (.inl inFile)
    · rcases Nat.lt_succ_iff_lt_or_eq.mp below with earlier | rfl
      · exact .inl (.inr ⟨i, earlier, there⟩)
      · exact .inr there
  · rintro ((inFile | ⟨i, below, there⟩) | there)
    · exact .inl inFile
    · exact .inr ⟨i, Nat.lt_succ_of_lt below, there⟩
    · exact .inr ⟨n, Nat.lt_succ_self n, there⟩

/-- The first loop does the same in memories that are alike in the file. -/
theorem place_agree {table table' : SectionTable} {m' : Mem}
    (contents : ∀ i < n, Loads (table i) → (table i).type ≠ shtNobits →
      KnownAt (Within file len) (file + (table i).offset) (table i).size.toNat)
    (least : n ≤ shnum) (headers : SameHeaders shnum table table') (agree : Agree (Within file len) st.mem m') :
    SameHeaders shnum (placeSections file n 0 table st).1 (placeSections file n 0 table' { st with mem := m' }).1 ∧
      ∃ m'', (placeSections file n 0 table' { st with mem := m' }).2 = { before file table st n with mem := m'' } ∧
        Agree (Known file len table st n) (before file table st n).mem m'' := by
  induction n with
  | zero =>
    refine ⟨headers, m', rfl, fun x known => agree x (known.resolve_right ?_)⟩
    rintro ⟨i, below, -⟩
    exact Nat.not_lt_zero i below
  | succ n ih =>
    obtain ⟨headers', m'', placed, agree'⟩ := ih (fun i below => contents i (Nat.lt_succ_of_lt below))
      (Nat.le_of_succ_le least)
    have here : (placeSections file n 0 table' { st with mem := m' }).1 n = table n :=
      (placeSections_ahead (Nat.le_refl n)).trans (headers n least)
    have there : (placeSections file n 0 table st).1 n = table n := placeSections_ahead (Nat.le_refl n)
    rw [before_turn, placeSections_last, placeSections_last, placeSection, placeSection, here, there, placed, ← before]
    by_cases loads : Loads (table n)
    · have filed (x : Word) (inFile : Within file len x) : Known file len table st n x := .inl inFile
      obtain ⟨filled, loaded, agree''⟩ := loadHunk_agree loads.2.2.2
        (fun stored x inside => filed x (contents n (Nat.lt_succ_self n) loads stored x inside)) agree'
      rw [if_neg (not_or.mpr ⟨loads.1, loads.2.1⟩), if_neg (not_or.mpr ⟨loads.1, loads.2.1⟩), if_pos loads.2.2.1,
        if_pos loads.2.2.1, if_pos loads, loaded]
      refine ⟨headers'.setAddr least _, filled, rfl, fun x known => agree'' x ?_⟩
      exact (known_succ.mp known).imp_right And.right
    · have kept : Agree (Known file len table st (n + 1)) (before file table st n).mem m'' := fun x known =>
        agree' x ((known_succ.mp known).resolve_right fun there => loads there.1)
      rw [if_neg loads]
      split_ifs with linked allocated
      · exact ⟨headers'.setAddr least _, m'', rfl, kept⟩
      · have empty : (table n).size = 0 := by
          by_contra nonempty
          exact loads ⟨fun type => linked (.inl type), fun type => linked (.inr type), allocated, nonempty⟩
        rw [loadHunk_empty file _ empty, loadHunk_empty file _ empty]
        exact ⟨headers'.setAddr least _, m'', rfl, kept⟩
      · exact ⟨headers', m'', placed, kept⟩

/-- Headers behind the table keep as they are. -/
theorem relocateSections_beyond {j : Nat} (beyond : k + n ≤ j) : (relocateSections file n k sh m).2.1 j = sh j := by
  induction n generalizing k sh m with
  | zero => rfl
  | succ n ih =>
    have other : sh.setAddr k (file + (sh k).offset) j = sh j := if_neg (by omega)
    rw [relocateSections]
    split
    · dsimp only
      split
      · exact other
      · split
        · exact other
        · exact (ih (by omega)).trans other
    · exact ih (by omega)

/-- A file is loaded the same whatever is behind its headers and outside of it. -/
theorem load_agree {table' : SectionTable} (name : List (BitVec 8)) (loads : relocated file st = some (sh, m))
    (contained : SelfContained file len st sh m)
    (headers : SameHeaders (elfHeaderAt st.mem file).shnum.toNat (sectionTable st.mem file) table')
    (agree : Agree (Within file len) st.mem m') :
    ∃ sh' after,
      (loadTable name file (elfHeaderAt st.mem file) table' { st with mem := m' }).1 = true ∧
      (loadTable name file (elfHeaderAt st.mem file) table' { st with mem := m' }).2.debugInfo =
        registerModule name (elfHeaderAt st.mem file) sh' after :: st.debugInfo ∧
      SameHeaders (elfHeaderAt st.mem file).shnum.toNat sh sh' ∧
      Agree (Known file len (sectionTable st.mem file) st (elfHeaderAt st.mem file).shnum.toNat) m after ∧
      ∀ i, (elfHeaderAt st.mem file).shnum.toNat ≤ i → sh' i = table' i := by
  let shnum := (elfHeaderAt st.mem file).shnum.toNat
  unfold relocated at loads
  dsimp only at loads
  split at loads
  · cases loads
  · rename_i accepted
    rw [Bool.not_eq_false] at accepted
    split at loads
    · cases loads
    · rename_i passed
      cases loads
      obtain ⟨headers', m'', placed, agree'⟩ := place_agree contained.contents le_rfl headers agree
      obtain ⟨sh', after, relocated', alike, agree''⟩ := sections_agree accepted contained
        (fun i => ⟨_, placed_header i⟩) (.start _) (Nat.zero_add shnum) headers' agree' passed
      have beyond (i : Nat) (behind : shnum ≤ i) : sh' i = table' i := by
        have kept := @relocateSections_beyond 0 shnum
          (placeSections file shnum 0 table' { st with mem := m' }).1 m'' file i (by omega)
        rw [relocated'] at kept
        exact kept.trans (placeSections_ahead behind)
      have loaded : loadTable name file (elfHeaderAt st.mem file) table' { st with mem := m' } =
          (true, { before file (sectionTable st.mem file) st shnum with
            mem := after
            debugInfo := registerModule name (elfHeaderAt st.mem file) sh' after ::
              (before file (sectionTable st.mem file) st shnum).debugInfo }) := by
        unfold loadTable
        dsimp only
        rw [placed]
        dsimp only
        rw [relocated']
      have kept : (before file (sectionTable st.mem file) st shnum).debugInfo = st.debugInfo :=
        placeSections_debugInfo file shnum 0 _ st
      refine ⟨sh', after, congrArg Prod.fst loaded, ?_, alike, agree'', beyond⟩
      rw [loaded, kept]

/-- Modules alike but for what is read from memory. -/
def SameBounds (mod mod' : Module) : Prop :=
  mod'.name = mod.name ∧ mod'.lowest = mod.lowest ∧ mod'.highest = mod.highest

private theorem SameBounds.eq {mod mod' : Module} (bounds : SameBounds mod mod') (str : mod'.str = mod.str)
    (symbols : mod'.symbols = mod.symbols) : mod' = mod := by
  obtain ⟨name, lowest, highest⟩ := bounds
  cases mod
  cases mod'
  dsimp only at *
  rw [name, lowest, highest, str, symbols]

private theorem measureSection_bounds {eh : ElfHeader} {mod mod' : Module} (m m' : Mem) (same : SameBounds mod mod') :
    SameBounds (measureSection eh m i h mod) (measureSection eh m' i h mod') := by
  have named (m : Mem) (mod : Module) : (measureSection eh m i h mod).name = mod.name := by
    unfold measureSection
    dsimp only
    split_ifs <;> rfl
  obtain ⟨name, lowest, highest⟩ := same
  refine ⟨by rw [named, named, name], ?_⟩
  by_cases code : inMemory h = true
  · obtain ⟨low, high⟩ := measureSection_code eh m i mod code
    obtain ⟨low', high'⟩ := measureSection_code eh m' i mod' code
    rw [low, low', high, high', lowest, highest]
    exact ⟨rfl, rfl⟩
  · obtain ⟨low, high⟩ := measureSection_other eh m i mod code
    obtain ⟨low', high'⟩ := measureSection_other eh m' i mod' code
    rw [low, low', high, high', lowest, highest]
    exact ⟨rfl, rfl⟩

private theorem measureSections_bounds {eh : ElfHeader} (m m' : Mem) {is : List Nat} (headers : ∀ i ∈ is, sh' i = sh i)
    {mod mod' : Module} (same : SameBounds mod mod') :
    SameBounds (is.foldl (fun mod i => measureSection eh m i (sh i) mod) mod)
      (is.foldl (fun mod i => measureSection eh m' i (sh' i) mod) mod') := by
  induction is generalizing mod mod' with
  | nil => exact same
  | cons i is ih =>
    rw [List.foldl_cons, List.foldl_cons, headers i List.mem_cons_self]
    exact ih (fun i inside => headers i (List.mem_cons_of_mem _ inside)) (measureSection_bounds m m' same)

private theorem registerModule_measured (name : List (BitVec 8)) (eh : ElfHeader) (sh : SectionTable) (m : Mem) :
    SameBounds ((List.range eh.shnum.toNat).foldl (fun mod i => measureSection eh m i (sh i) mod)
      ⟨name, none, 0xffffffff, 0, []⟩) (registerModule name eh sh m) := by
  unfold registerModule
  dsimp only
  split <;> exact ⟨rfl, rfl, rfl⟩

private theorem firstSection_below {eh : ElfHeader} {p : Nat → Bool}
    (found : firstSection eh p = some i) : i < eh.shnum.toNat :=
  List.mem_range.mp (List.mem_of_find?_eq_some found)

private theorem usedSymtab_congr {eh : ElfHeader} (headers : SameHeaders eh.shnum.toNat sh sh') :
    usedSymtab eh sh' = usedSymtab eh sh :=
  List.find?_congr fun i inside => by rw [headers i (List.mem_range.mp inside)]

private theorem copiedStrtab_congr {eh : ElfHeader} (headers : SameHeaders eh.shnum.toNat sh sh') :
    copiedStrtab eh sh' = copiedStrtab eh sh :=
  List.find?_congr fun i inside => by rw [headers i (List.mem_range.mp inside)]

/-- An offset into a range. -/
theorem within_offset (below : i < n) : Within a n (a + BitVec.ofNat 32 i) := by
  rw [Within, add_sub_cancel_left, BitVec.toNat_ofNat]
  exact (Nat.mod_le _ _).trans_lt below

private theorem entries_agree (agree : Agree known m m') (inside : KnownAt known h.addr (16 * (h.size.toNat / 16))) :
    entries m' h = entries m h := by
  refine List.map_congr_left fun j listed => symbolAt_congr (agree.sameAt fun x there => inside x ?_)
  have below := List.mem_range.mp listed
  exact (within_part there).trans_le (by omega)

private theorem strings_agree (agree : Agree known m m') (inside : KnownAt known h.addr h.size.toNat) :
    strings m' h = strings m h :=
  List.map_congr_left fun _ listed => agree _ (inside _ (within_offset (List.mem_range.mp listed)))

/-- A module is registered the same in memories that are alike, if its symbols name sections
of the file. -/
theorem registerModule_agree {eh : ElfHeader} (name : List (BitVec 8)) (headers : SameHeaders eh.shnum.toNat sh sh')
    (agree : Agree known m m')
    (symbols : ∀ i, usedSymtab eh sh = some i → KnownAt known (sh i).addr (16 * ((sh i).size.toNat / 16)))
    (text : ∀ i, copiedStrtab eh sh = some i → KnownAt known (sh i).addr (sh i).size.toNat) (listed : Listed eh sh m) :
    registerModule name eh sh' m' = registerModule name eh sh m := by
  have bounds : SameBounds (registerModule name eh sh m) (registerModule name eh sh' m') := by
    obtain ⟨name₁, lowest₁, highest₁⟩ := registerModule_measured name eh sh m
    obtain ⟨name₂, lowest₂, highest₂⟩ := registerModule_measured name eh sh' m'
    have start : SameBounds ⟨name, none, 0xffffffff, 0, []⟩ ⟨name, none, 0xffffffff, 0, []⟩ := ⟨rfl, rfl, rfl⟩
    obtain ⟨named, lowest, highest⟩ := @measureSections_bounds sh sh' eh m m' (List.range eh.shnum.toNat)
      (fun i inside => headers i (List.mem_range.mp inside)) _ _ start
    exact ⟨name₂.trans (named.trans name₁.symm), lowest₂.trans (lowest.trans lowest₁.symm),
      highest₂.trans (highest.trans highest₁.symm)⟩
  have copy : (registerModule name eh sh' m').str = (registerModule name eh sh m).str := by
    rw [registerModule_str, registerModule_str, copiedStrtab_congr headers]
    cases copied : copiedStrtab eh sh with
    | none => rfl
    | some i =>
      rw [Option.map_some, Option.map_some, headers i (firstSection_below copied), strings_agree agree (text i copied)]
  have list : (registerModule name eh sh' m').symbols = (registerModule name eh sh m).symbols := by
    rw [registerModule_symbols, registerModule_symbols, usedSymtab_congr headers]
    cases used : usedSymtab eh sh with
    | none => rfl
    | some i =>
      have own (sym : Symbol) (inside : sym ∈ entries m (sh i)) : home sh' sym = home sh sym :=
        headers _ (listed i used sym inside)
      have same : (entries m (sh i)).filter (fun sym => inMemory (home sh' sym)) =
          (entries m (sh i)).filter (fun sym => inMemory (home sh sym)) :=
        List.filter_congr fun sym inside => by rw [own sym inside]
      rw [records, records, headers i (firstSection_below used), entries_agree agree (symbols i used), same]
      refine congrArg List.reverse (List.map_congr_left fun sym inside => ?_)
      rw [debugSymbol, debugSymbol, own sym (List.mem_filter.mp inside).1]
  exact bounds.eq copy list

private theorem records_listed {eh : ElfHeader} (listed : Listed eh sh m) :
    records sh m (fun sym => inMemory (home sh sym)) (usedSymtab eh sh) =
      records sh m (namesCode eh sh) (usedSymtab eh sh) := by
  cases used : usedSymtab eh sh with
  | none => rfl
  | some i =>
    have same : (entries m (sh i)).filter (fun sym => inMemory (home sh sym)) =
        (entries m (sh i)).filter (namesCode eh sh) := by
      refine List.filter_congr fun sym inside => ?_
      rw [namesCode, decide_eq_true (listed i used sym inside), Bool.true_and]
    rw [records, records, same]

/-- A table with a header of code at an address in place of one of its headers. -/
def withCode (sh : SectionTable) (k : Nat) (a : Word) : SectionTable := fun j =>
  if j = k then ⟨0, 0, shfAlloc ||| shfExecinstr, a, 0, 0, 0, 0, 0, 0⟩ else sh j

/-- The symbols of two tables differ where the code that one of them is in does. -/
theorem symbols_withCode {symbols : List Symbol} {sym : Symbol} (inside : sym ∈ symbols) :
    (symbols.filter fun other => inMemory (home (withCode sh sym.shindex.toNat 1) other)).map
        (debugSymbol (withCode sh sym.shindex.toNat 1)) ≠
      (symbols.filter fun other => inMemory (home (withCode sh sym.shindex.toNat 2) other)).map
        (debugSymbol (withCode sh sym.shindex.toNat 2)) := by
  have code (a : Word) (addressed : a ≠ 0) (other : Symbol) :
      inMemory (home (withCode sh sym.shindex.toNat a) other) =
        (decide (other.shindex.toNat = sym.shindex.toNat) || inMemory (home sh other)) := by
    by_cases same : other.shindex.toNat = sym.shindex.toNat
    · rw [decide_eq_true same, Bool.true_or, inMemory_iff]
      simp only [home, withCode, if_pos same]
      have both : (shfAlloc ||| shfExecinstr) &&& (shfAlloc ||| shfExecinstr) = shfAlloc ||| shfExecinstr := by
        decide
      exact ⟨addressed, decide_eq_true both⟩
    · simp only [home, withCode, if_neg same, decide_eq_false same, Bool.false_or]
  intro alike
  simp only [code 1 (by decide), code 2 (by decide)] at alike
  have same := List.map_inj_left.mp alike sym (List.mem_filter.mpr ⟨inside, by simp⟩)
  have lowest := congrArg DebugSymbol.lowest same
  simp only [debugSymbol, home, withCode, if_pos, BitVec.add_left_inj] at lowest
  exact absurd lowest (by decide)

/-- A record that does not depend on the headers behind the table has no symbol in them. -/
theorem RecordsCode.listed {name : List (BitVec 8)} {mod : Module} (loads : relocated file st = some (sh, m))
    (contained : SelfContained file len st sh m) (recorded : RecordsCode name file len st sh m mod) :
    Listed (elfHeaderAt st.mem file) sh m := by
  intro i used sym inside
  by_contra beyond
  let shnum := (elfHeaderAt st.mem file).shnum.toNat
  let rest : SectionTable := fun j => if j < shnum then sh j else sectionTable st.mem file j
  have symbols (a : Word) : mod.symbols =
      (((entries m (sh i)).filter fun other => inMemory (home (withCode rest sym.shindex.toNat a) other)).map
        (debugSymbol (withCode rest sym.shindex.toNat a))).reverse := by
    have headers : SameHeaders shnum (sectionTable st.mem file)
        (withCode (sectionTable st.mem file) sym.shindex.toNat a) :=
      fun j below => if_neg fun same : j = sym.shindex.toNat => beyond (same ▸ below)
    obtain ⟨sh', after, -, registered, alike, agree, behind⟩ :=
      load_agree name loads contained headers fun _ _ => rfl
    have own := (recorded.unconsulted _ _ headers fun _ _ => rfl).2
    have same : mod = registerModule name (elfHeaderAt st.mem file) sh' after :=
      List.head_eq_of_cons_eq (own.symm.trans registered)
    have table : sh' = withCode rest sym.shindex.toNat a := by
      funext j
      by_cases below : j < shnum
      · have other : j ≠ sym.shindex.toNat := fun same => beyond (same ▸ below)
        rw [alike j below, withCode, if_neg other]
        exact (if_pos below).symm
      · rw [behind j (Nat.not_lt.mp below), withCode, withCode]
        split
        · rfl
        · exact (if_neg below).symm
    rw [same, registerModule_symbols, usedSymtab_congr alike, used, records, alike i (firstSection_below used),
      entries_agree agree (contained.symbols i used), table]
  exact symbols_withCode inside (List.reverse_injective ((symbols 1).symm.trans (symbols 2)))

/-- The record of a file that is loaded from itself holds its code if and only if no entry of the
symbol table names a section behind the header table. -/
theorem records_code_iff (name : List (BitVec 8)) (loads : relocated file st = some (sh, m))
    (contained : SelfContained file len st sh m) :
    ∃ mod, (loadElfFile name file st).2.debugInfo = mod :: st.debugInfo ∧
      (RecordsCode name file len st sh m mod ↔
        Listed (elfHeaderAt st.mem file) sh m ∧
        (firstSymtab (elfHeaderAt st.mem file) sh = usedSymtab (elfHeaderAt st.mem file) sh ∨
          records sh m (namesCode (elfHeaderAt st.mem file) sh) (firstSymtab (elfHeaderAt st.mem file) sh) =
            records sh m (namesCode (elfHeaderAt st.mem file) sh)
              (usedSymtab (elfHeaderAt st.mem file) sh))) := by
  refine ⟨_, (loadElfFile_module name loads).2, ?_⟩
  constructor
  · intro recorded
    have listed := recorded.listed loads contained
    have symbols := recorded.symbols
    rw [registerModule_symbols, records_listed listed] at symbols
    exact ⟨listed, .inr symbols.symm⟩
  · rintro ⟨listed, table⟩
    refine ⟨?_, fun table' m' headers agree => ?_⟩
    · rw [registerModule_symbols, records_listed listed]
      rcases table with first | alike
      · rw [first]
      · exact alike.symm
    · obtain ⟨sh', after, loaded, registered, headers', agree', -⟩ := load_agree name loads contained headers agree
      refine ⟨loaded, registered.trans ?_⟩
      rw [registerModule_agree name headers' agree' contained.symbols contained.strings listed]

/-- A turn that goes on goes to the next section, with an address for this one at most. -/
theorem sectionTurn_goes_on {s t : Nat × SectionTable × Mem} (turns : sectionTurn file n s = .inr t) :
    s.1 < t.1 ∧ (t.2.1 = s.2.1 ∨ t.2.1 = opened file s.2.1 s.1) := by
  obtain ⟨i, sh, m⟩ := s
  rw [sectionTurn] at turns
  split_ifs at turns
  · dsimp only at turns
    split_ifs at turns
    split at turns
    · cases turns
    · cases turns
      exact ⟨Nat.lt_succ_self i, .inr rfl⟩
  · cases turns
    exact ⟨Nat.lt_succ_self i, .inl rfl⟩

private theorem reached_addressed {table : SectionTable} {s t : Nat × SectionTable × Mem}
    (addressed : Addressed table s.2.1)
    (reached : Reaches (sectionTurn file n) s t) : Addressed table t.2.1 := by
  refine reached.invariant (fun s => Addressed table s.2.1) (fun s t before turns => ?_) addressed
  rcases (sectionTurn_goes_on turns).2 with same | addressed
  · exact same ▸ before
  · exact addressed ▸ before.setAddr _ _

end

open ElfImage (wordFile wordLoader)

/-- The tables of the file when its relocation section is come to. -/
def wordTables : SectionTable × Loader := placeSections 0x1000 5 0 (sectionTable wordLoader.mem 0x1000) wordLoader

/-- All that is looked at when the file with the word is loaded is in it. -/
theorem wordFile_contained {sh : SectionTable} {m : Mem}
    (used : usedSymtab (elfHeaderAt wordLoader.mem 0x1000) sh = some 2 ∧ (sh 2).addr = 0x1100 ∧ (sh 2).size = 32)
    (copied : copiedStrtab (elfHeaderAt wordLoader.mem 0x1000) sh = some 4 ∧ (sh 4).addr = 0x112c ∧ (sh 4).size = 1) :
    SelfContained 0x1000 301 wordLoader sh m := by
  let table := sectionTable wordLoader.mem 0x1000
  have inFile (a : Word) (n : Nat) (least : 0x1000 ≤ a.toNat) (fits : a.toNat + n ≤ 0x1000 + 301) :
      KnownAt (Within 0x1000 301) a n := by
    intro x inside
    rw [within_iff (by unfold addressSpace; omega)] at inside
    exact (within_iff (by decide)).mpr ⟨le_trans least inside.1, inside.2.trans_le fits⟩
  have known (a : Word) (n : Nat) (least : 0x1000 ≤ a.toNat) (fits : a.toNat + n ≤ 0x1000 + 301) :
      KnownAt (Known 0x1000 301 table wordLoader 5) a n := fun x inside => .inl (inFile a n least fits x inside)
  have five : (elfHeaderAt wordLoader.mem 0x1000).shnum.toNat = 5 := by decide
  have third : ∀ k < 5, (table k).type = shtRela → k = 3 := by decide
  have applied {k : Nat} {sh' : SectionTable} {m' : Mem} (applies : Applies 0x1000 wordLoader k sh' m') :
      k = 3 ∧ sh' = wordTables.1 ∧ m' = wordTables.2.mem := by
    have start : Addressed table wordTables.1 := fun i => ⟨_, placed_header i⟩
    have own : Addressed table sh' := reached_addressed start applies.reached
    obtain ⟨a, header⟩ := own k
    have rela := applies.rela
    rw [header] at rela
    have only := third k applies.below rela
    subst only
    have first : Reaches (sectionTurn 0x1000 5) (0, wordTables.1, wordTables.2.mem)
        (3, wordTables.1, wordTables.2.mem) :=
      reaches_first (by decide) (by decide)
    have reached := applies.reached
    dsimp only at reached
    rw [five, ← wordTables] at reached
    cases reached.index_unique (fun s => s.1) (fun s t turns => (sectionTurn_goes_on turns).1) first rfl
    exact ⟨rfl, rfl, rfl⟩
  refine ⟨?_, by decide, ?_, ?_, ?_, ?_⟩
  · intro i below loads _
    have only : ∀ i < 5, Loads (table i) → i = 1 := by decide
    cases only i below loads
    exact inFile _ _ (by decide) (by decide)
  · intro k sh' m' applies
    obtain ⟨rfl, rfl, -⟩ := applied applies
    decide
  · rintro sh' k i sysBase m' ⟨sh'', start, applies, rfl, -, turn⟩
    obtain ⟨rfl, rfl, rfl⟩ := applied applies
    have one : numrel (opened 0x1000 wordTables.1 3 3) = 1 := by decide
    have only : i = 0 := Nat.lt_one_iff.mp (one ▸ turn.below)
    subst only
    obtain ⟨rfl, rfl⟩ := ElfAbsolute.turn_unique (.start _) turn.reached
    exact ⟨known _ _ (by decide) (by decide), known _ _ (by decide) (by decide), fun _ => by decide,
      fun absolute => absurd absolute (by decide)⟩
  · intro i same
    cases used.1.symm.trans same
    rw [used.2.1, used.2.2]
    exact known _ _ (by decide) (by decide)
  · intro i same
    cases copied.1.symm.trans same
    rw [copied.2.1, copied.2.2]
    exact known _ _ (by decide) (by decide)

/-- The record of that file holds its code, whatever is behind it in memory. -/
theorem wordFile_records : ∃ sh m mod,
    (loadElfFile [0x6b] 0x1000 wordLoader).2.debugInfo = mod :: wordLoader.debugInfo ∧
      RecordsCode [0x6b] 0x1000 301 wordLoader sh m mod ∧ mod.symbols.length = 1 := by
  obtain ⟨sh, m, loads, used, copied, first, listed, one⟩ := relocated_any 0x1000 wordLoader
    (fun tables =>
      (usedSymtab (elfHeaderAt wordLoader.mem 0x1000) tables.1 = some 2 ∧ (tables.1 2).addr = 0x1100 ∧
        (tables.1 2).size = 32) ∧
      (copiedStrtab (elfHeaderAt wordLoader.mem 0x1000) tables.1 = some 4 ∧ (tables.1 4).addr = 0x112c ∧
        (tables.1 4).size = 1) ∧
      firstSymtab (elfHeaderAt wordLoader.mem 0x1000) tables.1 =
        usedSymtab (elfHeaderAt wordLoader.mem 0x1000) tables.1 ∧
      (∀ i ∈ usedSymtab (elfHeaderAt wordLoader.mem 0x1000) tables.1, ∀ sym ∈ entries tables.2 (tables.1 i),
        sym.shindex.toNat < (elfHeaderAt wordLoader.mem 0x1000).shnum.toNat) ∧
      (records tables.1 tables.2 (namesCode (elfHeaderAt wordLoader.mem 0x1000) tables.1)
        (firstSymtab (elfHeaderAt wordLoader.mem 0x1000) tables.1)).length = 1) (by decide)
  obtain ⟨mod, added, exact⟩ := records_code_iff [0x6b] loads (wordFile_contained used copied)
  have recorded := exact.mpr ⟨listed, .inl first⟩
  exact ⟨sh, m, mod, added, recorded, recorded.symbols ▸ one⟩

/-- The memory of a file with one symbol, for the file's name, whose section index is that
of absolute symbols. Where its header would be there happens to be one of code. -/
def strayLoader : Loader :=
  Loader.initial fun a =>
    if a = 0x280de7 then 6 else if a = 0x280deb then 1 else memoryWith (oneSymbol shnAbs 3) a

theorem file_symbol_recorded : ∃ sh m mod, relocated 0x1000 strayLoader = some (sh, m) ∧
    (loadElfFile [] 0x1000 strayLoader).2.debugInfo = mod :: strayLoader.debugInfo ∧
    ¬RecordsCode [] 0x1000 278 strayLoader sh m mod := by
  obtain ⟨sh, m, loads, other⟩ := relocated_any 0x1000 strayLoader
    (fun tables => (registerModule [] (elfHeaderAt strayLoader.mem 0x1000) tables.1 tables.2).symbols ≠
      records tables.1 tables.2 (namesCode (elfHeaderAt strayLoader.mem 0x1000) tables.1)
        (firstSymtab (elfHeaderAt strayLoader.mem 0x1000) tables.1)) (by decide)
  exact ⟨sh, m, _, loads, (loadElfFile_module [] loads).2, fun recorded => other recorded.symbols⟩

end Parthenope.ElfRecord
