import Parthenope.ElfAlignment
import Parthenope.ElfRelocation
import Parthenope.LoopReturn

/-! Which relocations a load comes to apply, and with what memory. A load is refused at
the first one that it cannot resolve, or does not know. -/
namespace Parthenope.ElfEntries
open ByteMemory Elf ElfAlignment ElfLayout ElfModule ElfRelocation StepLoop

/-- One turn of the loop of `relocate`, as far as `numrel` entries. -/
def entryTurn (c : Relocation) (numrel : Nat) :
    Nat × Option Word × Mem → Bool × Mem ⊕ Nat × Option Word × Mem
  | (i, sysBase, m) =>
    if i < numrel then
      match c.entry i sysBase m with
      | none => .inl (false, m)
      | some (sysBase, m) => .inr (i + 1, sysBase, m)
    else .inl (true, m)

/-- One turn of the second loop of `load_elf_file`. -/
def sectionTurn (file : Word) (shnum : Nat) :
    Nat × SectionTable × Mem → Bool × SectionTable × Mem ⊕ Nat × SectionTable × Mem
  | (i, sh, m) =>
    if i < shnum then
      if (sh i).type = shtRela ∧ (sh (sh i).info.toNat).addr ≠ 0 then
        let sh := sh.setAddr i (file + (sh i).offset)
        if (sh i).addr = 0 then .inl (false, sh, m)
        else
          match relocate sh i displacement m with
          | (false, m) => .inl (false, sh, m)
          | (true, m) => .inr (i + 1, sh, m)
      else .inr (i + 1, sh, m)
    else .inl (true, sh, m)

/-- The number of entries of a relocation section. -/
def numrel (h : SHeader) : Nat := h.size.toNat / h.entsize.toNat

/-- Where the symbol of entry `i` is in the memory. -/
def symAddr (c : Relocation) (m : Mem) (i : Nat) : Word := c.symtab + 16 * (entryAt c m i).sym

/-- A symbol is named `SysBase`. -/
def Named (c : Relocation) (m : Mem) (a : Word) : Prop :=
  strncmp (fun i => m (c.strtab + (symbolAt m a).name + BitVec.ofNat 32 i)) sysBaseName 8 = 0

instance (c : Relocation) (m : Mem) (a : Word) : Decidable (Named c m a) :=
  inferInstanceAs (Decidable (_ = _))

/-- An absolute symbol is that of `SysBase` if it is remembered, or none is yet and it has
the name. -/
def IsSysBase (c : Relocation) (m : Mem) (sysBase : Option Word) (a : Word) : Prop :=
  sysBase = some a ∨ sysBase = none ∧ Named c m a

instance (c : Relocation) (m : Mem) (sysBase : Option Word) (a : Word) :
    Decidable (IsSysBase c m sysBase a) := inferInstanceAs (Decidable (_ ∨ _))

/-- The entries that `relocate` refuses. -/
def Refuses (c : Relocation) (m : Mem) (i : Nat) : Prop :=
  (symbolOf c m i).shindex ∈ [shnUndef, shnCommon] ∨
    (entryAt c m i).type ∉ [rPpcNone, rPpcAddr32, rPpcAddr16Lo, rPpcAddr16Ha, rPpcRel24, rPpcRel32]

/-- `relocate` comes to entry `i` with this memory, and remembers this symbol of `SysBase`. -/
structure Turn (sh : SectionTable) (k : Nat) (start : Mem) (i : Nat) (sysBase : Option Word) (m : Mem) :
    Prop where
  below : i < numrel (sh k)
  reached : Reaches (entryTurn (relocation sh k displacement) (numrel (sh k))) (0, none, start) (i, sysBase, m)

/-- `load_elf_file` comes to relocation section `k` with these headers and this memory, and
the section that it is for has an address. -/
structure Applies (file : Word) (st : Loader) (k : Nat) (sh : SectionTable) (m : Mem) : Prop where
  accepted : checkHeader (elfHeaderAt st.mem file) = true
  below : k < (elfHeaderAt st.mem file).shnum.toNat
  reached :
    let shnum := (elfHeaderAt st.mem file).shnum.toNat
    let placed := placeSections file shnum 0 (sectionTable st.mem file) st
    Reaches (sectionTurn file shnum) (0, placed.1, placed.2.mem) (k, sh, m)
  rela : (sh k).type = shtRela
  target : (sh (sh k).info.toNat).addr ≠ 0

/-- The headers with which `relocate` is called. -/
def opened (file : Word) (sh : SectionTable) (k : Nat) : SectionTable := sh.setAddr k (file + (sh k).offset)

/-- A load comes to an entry of a relocation section. -/
def Meets (file : Word) (st : Loader) (sh : SectionTable) (k i : Nat) (sysBase : Option Word) (m : Mem) :
    Prop :=
  ∃ sh' start, Applies file st k sh' start ∧ sh = opened file sh' k ∧ file + (sh' k).offset ≠ 0 ∧
    Turn sh k start i sysBase m

/-- What `load_elf_file` refuses a file for: a relocation section that would lie at address
0, or an entry that `relocate` refuses. -/
def Refused (file : Word) (st : Loader) : Prop :=
  (∃ k sh m, Applies file st k sh m ∧ file + (sh k).offset = 0) ∨
    ∃ sh k i sysBase m, Meets file st sh k i sysBase m ∧ Refuses (relocation sh k displacement) m i

/-- A section without an address: no table, and not allocated or empty. -/
def Unplaced (h : SHeader) : Prop :=
  h.type ≠ shtSymtab ∧ h.type ≠ shtStrtab ∧ (h.flags &&& shfAlloc = 0 ∨ h.size = 0)

instance (h : SHeader) : Decidable (Unplaced h) := inferInstanceAs (Decidable (_ ∧ _))

/-- An entry for a loaded section whose symbol is defined in a section without an address. -/
structure Dangling (shnum : Nat) (sh : SectionTable) (k : Nat) (m : Mem) (i : Nat) : Prop where
  target : (sh k).info.toNat < shnum ∧ Loads (sh (sh k).info.toNat)
  defined : (symbolOf (relocation sh k displacement) m i).shindex ∉ [shnUndef, shnCommon, shnAbs]
  listed : (symbolOf (relocation sh k displacement) m i).shindex.toNat < shnum
  unplaced : Unplaced (sh (symbolOf (relocation sh k displacement) m i).shindex.toNat)

/-- A load comes to such an entry. -/
def Dangles (file : Word) (st : Loader) : Prop :=
  ∃ sh k i sysBase m, Meets file st sh k i sysBase m ∧
    Dangling (elfHeaderAt st.mem file).shnum.toNat sh k m i

section
variable {c : Relocation} {sh : SectionTable} {m : Mem} {file a : Word} {i k n : Nat}
  {sysBase : Option Word} {st : Loader}

private theorem run_entries (c : Relocation) (sysBase : Option Word) (m : Mem) (count : i + n = k) :
    run (entryTurn c k) (n + 1) (i, sysBase, m) = some (c.run n i sysBase m) := by
  induction n generalizing i sysBase m with
  | zero => exact run_ends (if_neg (by omega))
  | succ n ih =>
    have below : i < k := by omega
    rw [Relocation.run]
    cases entered : c.entry i sysBase m with
    | none =>
      refine run_ends ?_
      rw [entryTurn, if_pos below, entered]
    | some r =>
      have turns : entryTurn c k (i, sysBase, m) = .inr (i + 1, r.1, r.2) := by
        rw [entryTurn, if_pos below, entered]
      rw [run_turns turns]
      exact ih r.1 r.2 (by omega)

private theorem run_sections (file : Word) (sh : SectionTable) (m : Mem) (count : i + n = k) :
    run (sectionTurn file k) (n + 1) (i, sh, m) = some (relocateSections file n i sh m) := by
  induction n generalizing i sh m with
  | zero => exact run_ends (if_neg (by omega))
  | succ n ih =>
    have below : i < k := by omega
    have rest (sh : SectionTable) (m : Mem) := ih sh m (show i + 1 + n = k by omega)
    rw [relocateSections]
    split
    · rename_i applies
      dsimp only
      split
      · rename_i unplaced
        refine run_ends ?_
        rw [sectionTurn, if_pos below, if_pos applies, if_pos unplaced]
      · rename_i placed
        cases relocated : relocate (sh.setAddr i (file + (sh i).offset)) i displacement m with
        | mk fine m' =>
          have turn : sectionTurn file k (i, sh, m) =
              if fine = true then .inr (i + 1, sh.setAddr i (file + (sh i).offset), m')
              else .inl (false, sh.setAddr i (file + (sh i).offset), m') := by
            rw [sectionTurn, if_pos below, if_pos applies]
            dsimp only
            rw [if_neg placed, relocated]
            cases fine <;> rfl
          cases fine with
          | false => exact run_ends turn
          | true => exact (run_turns turn).trans (rest _ m')
    · rename_i applies
      have turn : sectionTurn file k (i, sh, m) = .inr (i + 1, sh, m) := by
        rw [sectionTurn, if_pos below, if_neg applies]
      exact (run_turns turn).trans (rest sh m)

theorem resolve_absolute (absolute : (symbolAt m a).shindex = shnAbs) :
    c.resolve m sysBase a =
      some (if IsSysBase c m sysBase a then (4, 0, some a)
        else ((symbolAt m a).value, c.virt, sysBase)) := by
  have defined : shnAbs ≠ shnUndef ∧ shnAbs ≠ shnCommon := by decide
  simp only [Relocation.resolve]
  rw [if_neg (absolute ▸ defined.1), if_neg (absolute ▸ defined.2), if_pos absolute]
  cases sysBase with
  | none =>
    have named : IsSysBase c m none a ↔ Named c m a := by simp [IsSysBase]
    simp only [named, Named]
    split <;> rfl
  | some known =>
    have same : IsSysBase c m (some known) a ↔ known = a := by simp [IsSysBase]
    simp only [same]
    split
    · rename_i known
      rw [known]
    · rfl

theorem resolve_none_iff (c : Relocation) (m : Mem) (sysBase : Option Word) (a : Word) :
    c.resolve m sysBase a = none ↔ (symbolAt m a).shindex ∈ [shnUndef, shnCommon] := by
  by_cases absolute : (symbolAt m a).shindex = shnAbs
  · rw [resolve_absolute absolute, absolute]
    exact iff_of_false (by simp) (by decide)
  · simp only [Relocation.resolve, List.mem_cons, List.not_mem_nil, or_false]
    rw [if_neg absolute]
    split_ifs with undefined common
    · exact iff_of_true rfl (.inl undefined)
    · exact iff_of_true rfl (.inr common)
    · exact iff_of_false (by simp) (not_or.mpr ⟨undefined, common⟩)

theorem patch_none_iff (m : Mem) (p : Word) (r : Relo) (s v : Word) :
    patch m p r s v = none ↔
      r.type ∉ [rPpcNone, rPpcAddr32, rPpcAddr16Lo, rPpcAddr16Ha, rPpcRel24, rPpcRel32] := by
  simp only [patch, List.mem_cons, List.not_mem_nil, or_false, not_or]
  split_ifs <;> simp [*]

/-- One turn of the loop of `relocate`: the symbol, and then the field. -/
theorem entry_eq : c.entry i sysBase m = (c.resolve m sysBase (symAddr c m i)).bind fun r =>
    (patch m (fieldOf c m i) (entryAt c m i) r.1 r.2.1).map (Prod.mk r.2.2) := by
  cases resolved : c.resolve m sysBase (symAddr c m i) with
  | none =>
    rw [symAddr, entryAt] at resolved
    simp only [Relocation.entry, resolved]
    rfl
  | some r =>
    rw [Option.bind_some]
    cases patched : patch m (fieldOf c m i) (entryAt c m i) r.1 r.2.1 with
    | none =>
      rw [symAddr, entryAt] at resolved
      rw [fieldOf, entryAt] at patched
      simp only [Relocation.entry, resolved, patched]
      rfl
    | some m' =>
      rw [symAddr, entryAt] at resolved
      rw [fieldOf, entryAt] at patched
      simp only [Relocation.entry, resolved, patched]
      rfl

private theorem entry_none_iff (sysBase : Option Word) : c.entry i sysBase m = none ↔ Refuses c m i := by
  have resolved := resolve_none_iff c m sysBase (symAddr c m i)
  have patched := patch_none_iff m (fieldOf c m i) (entryAt c m i)
  rw [entry_eq, Refuses, symbolOf, ← symAddr, ← resolved]
  cases c.resolve m sysBase (symAddr c m i) with
  | none => simp
  | some r =>
    rw [← patched r.1 r.2.1]
    simp

private theorem entryTurn_refuses : (∃ r, entryTurn c n (i, sysBase, m) = .inl r ∧ r.1 = false) ↔
    i < n ∧ Refuses c m i := by
  rw [← entry_none_iff sysBase, entryTurn]
  split_ifs with below
  · split
    · rename_i refused
      simp [below, refused]
    · rename_i passed
      simp [passed]
  · simp [below]

/-- `relocate` returns 0 if it comes to an entry that it refuses. -/
theorem relocate_refuses_iff : (relocate sh k displacement m).1 = false ↔
    ∃ i sysBase m', Turn sh k m i sysBase m' ∧ Refuses (relocation sh k displacement) m' i := by
  have ran := run_entries (relocation sh k displacement) none m (Nat.zero_add (numrel (sh k)))
  refine (run_result_iff (fun r => r.1 = false) ran).trans ⟨?_, ?_⟩
  · rintro ⟨⟨i, sysBase, m'⟩, r, reached, ends, failed⟩
    obtain ⟨below, refused⟩ := entryTurn_refuses.mp ⟨r, ends, failed⟩
    exact ⟨i, sysBase, m', ⟨below, reached⟩, refused⟩
  · rintro ⟨i, sysBase, m', turn, refused⟩
    obtain ⟨r, ends, failed⟩ := entryTurn_refuses.mpr ⟨turn.below, refused⟩
    exact ⟨_, r, turn.reached, ends, failed⟩

private theorem sectionTurn_refuses : (∃ r, sectionTurn file n (k, sh, m) = .inl r ∧ r.1 = false) ↔
    k < n ∧ ((sh k).type = shtRela ∧ (sh (sh k).info.toNat).addr ≠ 0) ∧
      (file + (sh k).offset = 0 ∨ (relocate (opened file sh k) k displacement m).1 = false) := by
  have addr : (sh.setAddr k (file + (sh k).offset) k).addr = file + (sh k).offset := by
    rw [SectionTable.setAddr, if_pos rfl]
  rw [sectionTurn, opened]
  dsimp only
  rw [addr]
  split_ifs with below applies unplaced
  · exact iff_of_true ⟨_, rfl, rfl⟩ ⟨below, applies, .inl unplaced⟩
  · split
    · rename_i failed
      exact iff_of_true ⟨_, rfl, rfl⟩ ⟨below, applies, .inr (congrArg Prod.fst failed)⟩
    · rename_i passed
      refine iff_of_false (by simp) ?_
      rintro ⟨-, -, placed | refused⟩
      · exact unplaced placed
      · rw [passed] at refused
        cases refused
  · exact iff_of_false (by simp) fun others => applies others.2.1
  · exact iff_of_false (by simp) fun others => below others.1

/-- The second loop of `load_elf_file` gives up if it comes to a relocation section at
address 0, or one that `relocate` gives up. -/
theorem relocateSections_refuses_iff : (relocateSections file n 0 sh m).1 = false ↔
    ∃ k sh' m', Reaches (sectionTurn file n) (0, sh, m) (k, sh', m') ∧ k < n ∧
      ((sh' k).type = shtRela ∧ (sh' (sh' k).info.toNat).addr ≠ 0) ∧
      (file + (sh' k).offset = 0 ∨ (relocate (opened file sh' k) k displacement m').1 = false) := by
  have ran := run_sections file sh m (Nat.zero_add n)
  refine (run_result_iff (fun r => r.1 = false) ran).trans ⟨?_, ?_⟩
  · rintro ⟨⟨k, sh', m'⟩, r, reached, ends, failed⟩
    exact ⟨k, sh', m', reached, sectionTurn_refuses.mp ⟨r, ends, failed⟩⟩
  · rintro ⟨k, sh', m', reached, refuses⟩
    obtain ⟨r, ends, failed⟩ := sectionTurn_refuses.mpr refuses
    exact ⟨_, r, reached, ends, failed⟩

private theorem loadTable_loads (name : List (BitVec 8)) (file : Word) (eh : ElfHeader)
    (sh : SectionTable) (st : Loader) :
    (loadTable name file eh sh st).1 = (relocateSections file eh.shnum.toNat 0
      (placeSections file eh.shnum.toNat 0 sh st).1 (placeSections file eh.shnum.toNat 0 sh st).2.mem).1 := by
  unfold loadTable
  dsimp only
  split
  · rename_i failed
    rw [failed]
  · rename_i passed
    rw [passed]

private theorem loadElfFile_refuses_iff (name : List (BitVec 8))
    (accepted : checkHeader (elfHeaderAt st.mem file) = true) :
    (loadElfFile name file st).1 = false ↔ Refused file st := by
  rw [loadElfFile_table name accepted, loadTable_loads, relocateSections_refuses_iff]
  constructor
  · rintro ⟨k, sh, m, reached, below, ⟨rela, target⟩, refused⟩
    have applies : Applies file st k sh m := ⟨accepted, below, reached, rela, target⟩
    by_cases unplaced : file + (sh k).offset = 0
    · exact .inl ⟨k, sh, m, applies, unplaced⟩
    · obtain ⟨i, sysBase, m', turn, refuses⟩ := relocate_refuses_iff.mp (refused.resolve_left unplaced)
      exact .inr ⟨_, k, i, sysBase, m', ⟨sh, m, applies, rfl, unplaced, turn⟩, refuses⟩
  · rintro (⟨k, sh, m, applies, unplaced⟩ | ⟨_, k, i, sysBase, m', ⟨sh, m, applies, rfl, -, turn⟩, refuses⟩)
    · exact ⟨k, sh, m, applies.reached, applies.below, ⟨applies.rela, applies.target⟩, .inl unplaced⟩
    · have refused := relocate_refuses_iff.mpr ⟨i, sysBase, m', turn, refuses⟩
      exact ⟨k, sh, m, applies.reached, applies.below, ⟨applies.rela, applies.target⟩, .inr refused⟩

/-- A file with an entry for a section without an address is refused if and only if it is
refused for some other entry. -/
theorem dangling_refused_iff (name : List (BitVec 8)) (file : Word) (st : Loader) :
    (Dangles file st → (loadElfFile name file st).1 = false) ↔ ¬Dangles file st ∨ Refused file st := by
  by_cases dangles : Dangles file st
  · have accepted : checkHeader (elfHeaderAt st.mem file) = true := by
      obtain ⟨_, _, _, _, _, ⟨_, _, applies, -⟩, -⟩ := dangles
      exact applies.accepted
    simp only [dangles, true_imp_iff, not_true, false_or]
    exact loadElfFile_refuses_iff name accepted
  · exact iff_of_true (fun other => absurd other dangles) (.inl dangles)

/-- The loop over the sections comes to the first relocation section as it began. -/
theorem reaches_first (ahead : ∀ j < k, (sh j).type ≠ shtRela) (below : k ≤ n) :
    Reaches (sectionTurn file n) (0, sh, m) (k, sh, m) := by
  induction k with
  | zero => exact .start _
  | succ k ih =>
    refine .turn (ih (fun j less => ahead j (by omega)) (by omega)) ?_
    have other : ¬((sh k).type = shtRela ∧ (sh (sh k).info.toNat).addr ≠ 0) :=
      fun applies => ahead k (Nat.lt_succ_self k) applies.1
    rw [sectionTurn, if_pos (by omega), if_neg other]

end

/-- A file with a word of code and an entry for it, whose symbol is in the third section;
that one is not allocated. -/
def danglingFile : List (BitVec 8) :=
  elfFile
    [⟨0, 0, 0, 0, 0, 0, 0, 0, 0, 0⟩,
     ⟨0, 1, 6, 0, 292, 4, 0, 0, 4, 0⟩,
     ⟨0, 1, 0, 0, 296, 4, 0, 0, 1, 0⟩,
     ⟨0, shtSymtab, 0, 0, 300, 32, 5, 0, 4, 16⟩,
     ⟨0, shtRela, 0, 0, 332, 12, 3, 1, 4, 12⟩,
     ⟨0, shtStrtab, 0, 0, 344, 1, 0, 0, 1, 0⟩]
    ([0, 0, 0, 0] ++ [0, 0, 0, 0] ++
      [0, 0, 0, 0, 0, 0, 0, 0, 0, 0, 0, 0, 0, 0, 0, 0] ++ [0, 0, 0, 0, 0, 0, 0, 0, 0, 0, 0, 0, 3, 0, 0, 2] ++
      [0, 0, 0, 0, 0, 0, 1, 1, 0, 0, 0, 0] ++ [0])

def danglingLoader : Loader := Loader.initial (memoryWith danglingFile)

/-- The tables of the file when its relocation section is come to. -/
def danglingTables : SectionTable × Loader :=
  placeSections 0x1000 6 0 (sectionTable danglingLoader.mem 0x1000) danglingLoader

/-- The file is loaded, with the word relocated to its own displacement. -/
theorem dangling_loaded : ¬(Dangles 0x1000 danglingLoader → (loadElfFile [] 0x1000 danglingLoader).1 = false) := by
  have applies : Applies 0x1000 danglingLoader 4 danglingTables.1 danglingTables.2.mem :=
    ⟨by decide, by decide, reaches_first (by decide) (by decide), by decide, by decide⟩
  have turn : Turn (opened 0x1000 danglingTables.1 4) 4 danglingTables.2.mem 0 none danglingTables.2.mem :=
    ⟨by decide, .start _⟩
  have dangling : Dangling (elfHeaderAt danglingLoader.mem 0x1000).shnum.toNat
      (opened 0x1000 danglingTables.1 4) 4 danglingTables.2.mem 0 :=
    ⟨by decide, by decide, by decide, by decide⟩
  intro refused
  have loaded := refused ⟨_, 4, 0, none, _, ⟨_, _, applies, rfl, by decide, turn⟩, dangling⟩
  exact absurd loaded (by decide)

end Parthenope.ElfEntries
