import Parthenope.ElfModule

/-! A section header with the alignment 0 means the same as one with the alignment 1.
`load_elf_file` looks at alignments only where it places a hunk, so a header makes a
difference only there. -/
namespace Parthenope.ElfAlignment
open ByteMemory Elf ElfLayout ElfModule

/-- `load_elf_file` on a section header table, once the file's header is accepted. -/
def loadTable (name : List (BitVec 8)) (file : Word) (eh : ElfHeader) (sh : SectionTable) (st : Loader) :
    Bool × Loader :=
  let (sh, st) := placeSections file eh.shnum.toNat 0 sh st
  match relocateSections file eh.shnum.toNat 0 sh st.mem with
  | (false, _, m) => (false, { st with mem := m })
  | (true, sh, m) =>
    (true, { st with mem := m, debugInfo := registerModule name eh sh m :: st.debugInfo })

/-- Some of the headers with alignment 0 have it replaced by 1. -/
def Realigned (sh sh' : SectionTable) : Prop :=
  ∀ i, sh' i = sh i ∨ (sh i).addralign = 0 ∧ sh' i = { sh i with addralign := 1 }

/-- Two loaders hold the same: hunk addresses, memory, pointers, the table of hunks
without contents and the modules. -/
structure SameLoader (st st' : Loader) : Prop where
  addresses : st'.placed.map Hunk.addr = st.placed.map Hunk.addr
  mem : st'.mem = st.mem
  ptrRo : st'.ptrRo = st.ptrRo
  ptrRw : st'.ptrRw = st.ptrRw
  tracker : st'.tracker = st.tracker
  bssTracker : st'.bssTracker = st.bssTracker
  debugInfo : st'.debugInfo = st.debugInfo

/-- A section that a hunk is placed for. -/
def Loads (h : SHeader) : Prop :=
  h.type ≠ shtSymtab ∧ h.type ≠ shtStrtab ∧ h.flags &&& shfAlloc ≠ 0 ∧ h.size ≠ 0

instance (h : SHeader) : Decidable (Loads h) := inferInstanceAs (Decidable (_ ∧ _))

/-- The loader when the first loop of `load_elf_file` comes to a section. -/
def before (file : Word) (sh : SectionTable) (st : Loader) (i : Nat) : Loader :=
  (placeSections file i 0 sh st).2

/-- A hunk without an alignment goes to address 0, and belongs there. -/
def AtZero (h : SHeader) (st : Loader) : Prop :=
  if h.writable = true then st.ptrRw = h.size else st.ptrRo = 0

/-- A turn of the first loop of `load_elf_file`. -/
def placeSection (file : Word) (i : Nat) (s : SectionTable × Loader) : SectionTable × Loader :=
  if (s.1 i).type = shtSymtab ∨ (s.1 i).type = shtStrtab then (s.1.setAddr i (file + (s.1 i).offset), s.2)
  else if (s.1 i).flags &&& shfAlloc ≠ 0 then
    (s.1.setAddr i (loadHunk file (s.1 i) s.2).1.addr, (loadHunk file (s.1 i) s.2).2)
  else s

/-- A table without its alignments. -/
def strip (sh : SectionTable) : SectionTable := fun i => { sh i with addralign := 0 }

section
variable {file : Word} {eh : ElfHeader} {sh sh' : SectionTable} {st st' : Loader} {m : Mem} {h : SHeader}
  {name : List (BitVec 8)} {i j n k : Nat}

theorem loadElfFile_table (name : List (BitVec 8)) (accepted : checkHeader (elfHeaderAt st.mem file) = true) :
    loadElfFile name file st =
      loadTable name file (elfHeaderAt st.mem file) (sectionTable st.mem file) st := by
  unfold loadElfFile
  dsimp only
  rw [if_neg (by rw [accepted]; decide)]
  rfl

private theorem placeSections_turn : placeSections file (n + 1) i sh st =
    placeSections file n (i + 1) (placeSection file i (sh, st)).1 (placeSection file i (sh, st)).2 := by
  rw [placeSections, placeSection]
  dsimp only
  split_ifs <;> rfl

/-- The first loop, a part of the sections after the other. -/
theorem placeSections_add : placeSections file (n + k) i sh st =
    placeSections file k (i + n) (placeSections file n i sh st).1 (placeSections file n i sh st).2 := by
  induction n generalizing i sh st with
  | zero => rw [Nat.zero_add]; rfl
  | succ n ih =>
    rw [Nat.succ_add, placeSections_turn, ih, placeSections_turn, Nat.add_assoc, Nat.add_comm 1 n]

theorem placeSections_last : placeSections file (n + 1) 0 sh st =
    placeSection file n (placeSections file n 0 sh st) := by
  rw [placeSections_add, Nat.zero_add, placeSections_turn]
  rfl

theorem placeSection_other (other : j ≠ i) (s : SectionTable × Loader) : (placeSection file i s).1 j = s.1 j := by
  unfold placeSection
  split_ifs
  · exact if_neg other
  · exact if_neg other
  · rfl

/-- Sections the loop has not come to are as they were. -/
theorem placeSections_ahead (ahead : n ≤ j) : (placeSections file n 0 sh st).1 j = sh j := by
  induction n with
  | zero => rfl
  | succ n ih =>
    rw [placeSections_last, placeSection_other (by omega)]
    exact ih (by omega)

private theorem registerModule_strip : registerModule name eh (strip sh) m = registerModule name eh sh m := rfl

private theorem setAddr_strip (a : Word) : (strip sh).setAddr i a = strip (sh.setAddr i a) := by
  funext k
  by_cases here : k = i
  · simp only [SectionTable.setAddr, strip, here, if_true]
  · simp only [SectionTable.setAddr, strip, if_neg here]

private theorem header_alike (same : strip sh' = strip sh) : sh' i = { sh i with addralign := (sh' i).addralign } := by
  have alike : ({ sh' i with addralign := 0 } : SHeader) = { sh i with addralign := 0 } := congrFun same i
  generalize sh i = h at alike ⊢
  generalize sh' i = h' at alike ⊢
  cases h
  cases h'
  cases alike
  rfl

private theorem run_strip (c : Relocation) (n i : Nat) (sysBase : Option Word) (m : Mem) :
    Relocation.run { c with sh := strip c.sh } n i sysBase m = c.run n i sysBase m := by
  induction n generalizing i sysBase m with
  | zero => rfl
  | succ n ih =>
    have same : Relocation.entry { c with sh := strip c.sh } i sysBase m = c.entry i sysBase m := rfl
    rw [Relocation.run, Relocation.run, same]
    cases c.entry i sysBase m with
    | none => rfl
    | some r => exact ih _ _ _

private theorem relocate_strip (virt : Word) : relocate (strip sh) i virt m = relocate sh i virt m :=
  run_strip (relocation sh i virt) _ 0 none m

private theorem relocateSections_strip (file : Word) (n i : Nat) (sh : SectionTable) (m : Mem) :
    relocateSections file n i (strip sh) m =
    ((relocateSections file n i sh m).1, strip (relocateSections file n i sh m).2.1,
      (relocateSections file n i sh m).2.2) := by
  induction n generalizing i sh m with
  | zero => rfl
  | succ n ih =>
    rw [relocateSections, relocateSections]
    by_cases applied : (sh i).type = shtRela ∧ (sh (sh i).info.toNat).addr ≠ 0
    · rw [if_pos (c := (strip sh i).type = shtRela ∧ (strip sh (strip sh i).info.toNat).addr ≠ 0) applied,
        if_pos applied]
      have offset : (strip sh i).offset = (sh i).offset := rfl
      rw [offset, setAddr_strip]
      generalize sh.setAddr i (file + (sh i).offset) = there
      have addr : (strip there i).addr = (there i).addr := rfl
      dsimp only
      rw [addr, relocate_strip]
      by_cases zero : (there i).addr = 0
      · rw [if_pos zero, if_pos zero]
      · rw [if_neg zero, if_neg zero]
        cases relocate there i displacement m with
        | mk passed m =>
          cases passed with
          | false => rfl
          | true => exact ih _ _ _
    · rw [if_neg (c := (strip sh i).type = shtRela ∧ (strip sh (strip sh i).info.toNat).addr ≠ 0) applied,
        if_neg applied]
      exact ih _ _ _

/-- Without an alignment a hunk goes to address 0. -/
theorem hunkOf_unaligned (unaligned : h.addralign = 0) : (hunkOf h st).addr = 0 := by
  have mask (x : Word) : x &&& ~~~(0 - 1) = 0 := by simp
  rw [hunkOf_addr, unaligned]
  split
  · exact mask _
  · exact mask _

/-- With the alignment 1 it goes right beside the others. -/
theorem hunkOf_beside (beside : h.addralign = 1) :
    (hunkOf h st).addr = if h.writable = true then st.ptrRw - h.size else st.ptrRo := by
  have mask (x : Word) : x &&& ~~~(1 - 1) = x := by
    rw [show (~~~(1 - 1) : Word) = BitVec.allOnes 32 by decide, BitVec.and_allOnes]
  rw [hunkOf_addr, beside]
  split
  · exact (mask _).trans (BitVec.sub_add_cancel ..)
  · exact (mask _).trans (BitVec.add_sub_cancel ..)

private theorem hunkOf_realigned (unaligned : h.addralign = 0) :
    (hunkOf { h with addralign := 1 } st).addr = (hunkOf h st).addr ↔ AtZero h st := by
  rw [hunkOf_unaligned unaligned, hunkOf_beside rfl, AtZero]
  change (if h.writable = true then st.ptrRw - h.size else st.ptrRo) = 0 ↔ _
  split
  · exact sub_eq_zero
  · exact Iff.rfl

private theorem hunkOf_same (same : SameLoader st st') : (hunkOf h st').addr = (hunkOf h st).addr := by
  rw [hunkOf_addr, hunkOf_addr, same.ptrRo, same.ptrRw]

/-- Hunks at one address, of headers alike, leave loaders that hold the same. -/
theorem loadHunk_same (file : Word) (same : SameLoader st st') (a : Word)
    (there : (hunkOf { h with addralign := a } st').addr = (hunkOf h st).addr) :
    (loadHunk file { h with addralign := a } st').1.addr = (loadHunk file h st).1.addr ∧
      SameLoader (loadHunk file h st).2 (loadHunk file { h with addralign := a } st').2 := by
  by_cases empty : h.size = 0
  · rw [loadHunk_empty file st empty,
      loadHunk_empty file st' (show ({ h with addralign := a } : SHeader).size = 0 from empty)]
    exact ⟨rfl, same⟩
  · rw [loadHunk_placed file st empty,
      loadHunk_placed file st' (show ({ h with addralign := a } : SHeader).size ≠ 0 from empty)]
    have ro : (hunkOf { h with addralign := a } st').ptrRo = (hunkOf h st).ptrRo := by
      rw [hunkOf_ptrRo, hunkOf_ptrRo, there, same.ptrRo]
      rfl
    have rw : (hunkOf { h with addralign := a } st').ptrRw = (hunkOf h st).ptrRw := by
      rw [hunkOf_ptrRw, hunkOf_ptrRw, there, same.ptrRw]
      rfl
    refine ⟨there, ?_, ?_, ro, rw, ?_, ?_, same.debugInfo⟩
    · rw [List.map_cons, List.map_cons, there, same.addresses]
    · dsimp only
      rw [there, same.mem]
    · dsimp only
      rw [there, same.tracker, same.bssTracker]
    · dsimp only
      rw [same.bssTracker]

private theorem setAddr_alike (tables : strip sh' = strip sh) (a : Word) :
    strip (sh'.setAddr i a) = strip (sh.setAddr i a) := by
  rw [← setAddr_strip, ← setAddr_strip, tables]

/-- A turn on tables alike keeps loaders that hold the same, if a hunk goes to one address. -/
theorem placeSection_same {s s' : SectionTable × Loader} (tables : strip s'.1 = strip s.1)
    (same : SameLoader s.2 s'.2)
    (there : Loads (s.1 i) → (hunkOf (s'.1 i) s'.2).addr = (hunkOf (s.1 i) s.2).addr) :
    strip (placeSection file i s').1 = strip (placeSection file i s).1 ∧
      SameLoader (placeSection file i s).2 (placeSection file i s').2 := by
  have alike := header_alike (i := i) tables
  generalize (s'.1 i).addralign = a at alike
  unfold placeSection
  rw [alike] at there ⊢
  dsimp only
  split_ifs with table allocated
  · exact ⟨setAddr_alike tables _, same⟩
  · by_cases empty : (s.1 i).size = 0
    · rw [loadHunk_empty file _ empty,
        loadHunk_empty file _ (show ({ s.1 i with addralign := a } : SHeader).size = 0 from empty)]
      exact ⟨setAddr_alike tables _, same⟩
    · obtain ⟨symtab, strtab⟩ := not_or.mp table
      obtain ⟨addr, after⟩ := loadHunk_same file same a (there ⟨symtab, strtab, allocated, empty⟩)
      rw [addr]
      exact ⟨setAddr_alike tables _, after⟩
  · exact ⟨tables, same⟩

/-- Nothing is aligned to 0 but hunks that belong at address 0. -/
def UnalignedAtZero (file : Word) (sh : SectionTable) (st : Loader) (n : Nat) : Prop :=
  ∀ i < n, (sh i).addralign = 0 → Loads (sh i) → AtZero (sh i) (before file sh st i)

private theorem placeSections_same (aligned : UnalignedAtZero file sh st n) (realigned : Realigned sh sh') :
    strip (placeSections file n 0 sh' st).1 = strip (placeSections file n 0 sh st).1 ∧
      SameLoader (placeSections file n 0 sh st).2 (placeSections file n 0 sh' st).2 := by
  induction n with
  | zero =>
    refine ⟨funext fun i => ?_, rfl, rfl, rfl, rfl, rfl, rfl, rfl⟩
    rcases realigned i with kept | ⟨-, one⟩
    · exact congrArg (fun h : SHeader => { h with addralign := 0 }) kept
    · exact congrArg (fun h : SHeader => { h with addralign := 0 }) one
  | succ n ih =>
    obtain ⟨tables, same⟩ := ih fun i below => aligned i (Nat.lt_succ_of_lt below)
    rw [placeSections_last, placeSections_last]
    refine placeSection_same tables same fun loads => ?_
    rw [placeSections_ahead (Nat.le_refl n)] at loads ⊢
    rw [placeSections_ahead (Nat.le_refl n), hunkOf_same same]
    rcases realigned n with kept | ⟨unaligned, one⟩
    · rw [kept]
    · rw [one]
      exact (hunkOf_realigned unaligned).mpr (aligned n (Nat.lt_succ_self n) unaligned loads)

/-- On tables alike, from loaders that hold the same, the rest of a load does the same. -/
theorem loadTable_same (place : strip (placeSections file eh.shnum.toNat 0 sh' st).1 =
      strip (placeSections file eh.shnum.toNat 0 sh st).1)
    (same : SameLoader (placeSections file eh.shnum.toNat 0 sh st).2
      (placeSections file eh.shnum.toNat 0 sh' st).2) :
    (loadTable name file eh sh' st).1 = (loadTable name file eh sh st).1 ∧
      SameLoader (loadTable name file eh sh st).2 (loadTable name file eh sh' st).2 := by
  unfold loadTable
  dsimp only
  generalize placeSections file eh.shnum.toNat 0 sh st = s at place same ⊢
  generalize placeSections file eh.shnum.toNat 0 sh' st = s' at place same ⊢
  have alike := (relocateSections_strip file eh.shnum.toNat 0 s.1 s.2.mem).symm.trans
    (place ▸ relocateSections_strip file eh.shnum.toNat 0 s'.1 s.2.mem)
  rw [same.mem]
  generalize relocateSections file eh.shnum.toNat 0 s.1 s.2.mem = r at alike ⊢
  generalize relocateSections file eh.shnum.toNat 0 s'.1 s.2.mem = r' at alike ⊢
  obtain ⟨passed, table, m⟩ := r
  obtain ⟨passed', table', m'⟩ := r'
  simp only [Prod.mk.injEq] at alike
  obtain ⟨rfl, tables, rfl⟩ := alike
  cases passed with
  | false => exact ⟨rfl, same.addresses, rfl, same.ptrRo, same.ptrRw, same.tracker, same.bssTracker, same.debugInfo⟩
  | true =>
    refine ⟨rfl, same.addresses, rfl, same.ptrRo, same.ptrRw, same.tracker, same.bssTracker, ?_⟩
    dsimp only
    rw [same.debugInfo, ← registerModule_strip, ← tables, registerModule_strip]

theorem placeSection_loader (file : Word) (i : Nat) (s : SectionTable × Loader) :
    (placeSection file i s).2 =
      if (s.1 i).type = shtSymtab ∨ (s.1 i).type = shtStrtab then s.2
      else if (s.1 i).flags &&& shfAlloc ≠ 0 then (loadHunk file (s.1 i) s.2).2
      else s.2 := by
  unfold placeSection
  split_ifs <;> rfl

/-- The loader depends on the sections it has come to. -/
theorem placeSections_congr (same : ∀ k < n, sh' k = sh k) :
    (placeSections file n 0 sh' st).2 = (placeSections file n 0 sh st).2 := by
  induction n with
  | zero => rfl
  | succ n ih =>
    have before := ih fun k below => same k (Nat.lt_succ_of_lt below)
    rw [placeSections_last, placeSections_last, placeSection_loader, placeSection_loader, before,
      placeSections_ahead (Nat.le_refl n), placeSections_ahead (Nat.le_refl n), same n (Nat.lt_succ_self n)]

theorem placeSections_placed (file : Word) (n i : Nat) (sh : SectionTable) (st : Loader) :
    ∃ newer, (placeSections file n i sh st).2.placed = newer ++ st.placed := by
  refine @placeSections_keeps (fun later => ∃ newer, later.placed = newer ++ st.placed) st
    (fun file h later ⟨newer, same⟩ => ?_) file n i sh ⟨[], rfl⟩
  by_cases empty : h.size = 0
  · rw [loadHunk_empty file later empty]
    exact ⟨newer, same⟩
  · rw [loadHunk_placed file later empty]
    exact ⟨_ :: newer, congrArg _ same⟩

/-- The hunk of a section stays among the hunks, with those of the sections before. -/
theorem loads_placed (file : Word) (st : Loader) (below : i < n) (loads : Loads (sh i)) :
    ∃ newer, (placeSections file n 0 sh st).2.placed =
      newer ++ hunkOf (sh i) (before file sh st i) :: (before file sh st i).placed := by
  obtain ⟨symtab, strtab, allocated, nonempty⟩ := loads
  obtain ⟨k, rfl⟩ : ∃ k, n = i + 1 + k := ⟨n - (i + 1), by omega⟩
  rw [placeSections_add]
  obtain ⟨newer, placed⟩ := placeSections_placed file k (0 + (i + 1)) (placeSections file (i + 1) 0 sh st).1
    (placeSections file (i + 1) 0 sh st).2
  refine ⟨newer, placed.trans ?_⟩
  rw [placeSections_last, placeSection_loader, placeSections_ahead (Nat.le_refl i),
    if_neg (not_or.mpr ⟨symtab, strtab⟩), if_pos allocated, loadHunk_placed _ _ nonempty]
  rfl

private theorem loadTable_placed : (loadTable name file eh sh st).2.placed =
    (placeSections file eh.shnum.toNat 0 sh st).2.placed := by
  unfold loadTable
  dsimp only
  split <;> rfl

/-- Replacing the alignment 0 by 1 changes nothing if and only if all hunks with the
alignment 0 belong at address 0. -/
theorem realigned_same_iff (name : List (BitVec 8)) (file : Word)
    (accepted : checkHeader (elfHeaderAt st.mem file) = true) :
    (∀ sh', Realigned (sectionTable st.mem file) sh' →
      (loadTable name file (elfHeaderAt st.mem file) sh' st).1 = (loadElfFile name file st).1 ∧
        SameLoader (loadElfFile name file st).2
          (loadTable name file (elfHeaderAt st.mem file) sh' st).2) ↔
      UnalignedAtZero file (sectionTable st.mem file) st (elfHeaderAt st.mem file).shnum.toNat := by
  rw [loadElfFile_table name accepted]
  generalize elfHeaderAt st.mem file = eh
  generalize sectionTable st.mem file = sh
  constructor
  · intro same i below unaligned loads
    -- the header of this section only
    let sh' : SectionTable := fun k => if k = i then { sh i with addralign := 1 } else sh k
    have realigned : Realigned sh sh' := by
      intro k
      by_cases here : k = i
      · subst here
        exact .inr ⟨unaligned, if_pos rfl⟩
      · exact .inl (if_neg here)
    have here : sh' i = { sh i with addralign := 1 } := if_pos rfl
    have reached : before file sh' st i = before file sh st i :=
      placeSections_congr fun k less => if_neg (Nat.ne_of_lt less)
    have addresses := (same sh' realigned).2.addresses
    rw [loadTable_placed, loadTable_placed] at addresses
    have loads' : Loads (sh' i) := here ▸ loads
    obtain ⟨newer, placed⟩ := loads_placed file st below loads
    obtain ⟨newer', placed'⟩ := loads_placed file st below loads'
    rw [placed, placed', here, reached, List.map_append, List.map_append] at addresses
    have tails := List.append_inj_right' addresses (by simp only [List.map_cons, List.length_cons])
    rw [List.map_cons, List.map_cons] at tails
    exact (hunkOf_realigned unaligned).mp (List.cons.inj tails).1
  · intro aligned sh' realigned
    obtain ⟨tables, same⟩ := placeSections_same aligned realigned
    exact loadTable_same tables same

end

/-- A file with one zero byte to load, of the given alignment. -/
def oneByte (addralign : Word) : List (BitVec 8) :=
  elfFile [⟨0, shtNobits, shfAlloc, 0, 0, 1, 0, 0, addralign, 0⟩] []

def byteLoader (addralign : Word) : Loader := Loader.initial (memoryWith (oneByte addralign))

theorem aligned_byte_same_iff :
    (∀ sh', Realigned (sectionTable (byteLoader 1).mem 0x1000) sh' →
      (loadTable [] 0x1000 (elfHeaderAt (byteLoader 1).mem 0x1000) sh' (byteLoader 1)).1 =
          (loadElfFile [] 0x1000 (byteLoader 1)).1 ∧
        SameLoader (loadElfFile [] 0x1000 (byteLoader 1)).2
          (loadTable [] 0x1000 (elfHeaderAt (byteLoader 1).mem 0x1000) sh' (byteLoader 1)).2) ↔
      UnalignedAtZero 0x1000 (sectionTable (byteLoader 1).mem 0x1000) (byteLoader 1)
        (elfHeaderAt (byteLoader 1).mem 0x1000).shnum.toNat :=
  realigned_same_iff [] 0x1000 (by decide)

/-- With the alignment 0 the byte goes to address 0, and `ptr_ro` to 1. -/
theorem unaligned_byte_differs :
    ¬∀ sh', Realigned (sectionTable (byteLoader 0).mem 0x1000) sh' →
      (loadTable [] 0x1000 (elfHeaderAt (byteLoader 0).mem 0x1000) sh' (byteLoader 0)).1 =
          (loadElfFile [] 0x1000 (byteLoader 0)).1 ∧
        SameLoader (loadElfFile [] 0x1000 (byteLoader 0)).2
          (loadTable [] 0x1000 (elfHeaderAt (byteLoader 0).mem 0x1000) sh' (byteLoader 0)).2 := by
  intro same
  have realigned : Realigned (sectionTable (byteLoader 0).mem 0x1000) fun k =>
      if (sectionTable (byteLoader 0).mem 0x1000 k).addralign = 0 then
        { sectionTable (byteLoader 0).mem 0x1000 k with addralign := 1 }
      else sectionTable (byteLoader 0).mem 0x1000 k := by
    intro k
    by_cases unaligned : (sectionTable (byteLoader 0).mem 0x1000 k).addralign = 0
    · exact .inr ⟨unaligned, if_pos unaligned⟩
    · exact .inl (if_neg unaligned)
  exact absurd (same _ realigned).2.ptrRo (by decide)

end Parthenope.ElfAlignment
