import Parthenope.ElfSections

/-! What becomes of files loaded one after the other. Each section ends up as the file has
it, with the entries for it applied as the file spells them, and stays so. -/
namespace Parthenope.ElfImage
open ByteMemory CacheFlush Elf ElfAlignment ElfEntries ElfLayout ElfRelocation ElfSections
open ElfModule (elfFile)

/-- Entry `i` by the ABI, as the file spells it, in an image. -/
def linkEntry (c : Relocation) (source image : Mem) (i : Nat) : Mem :=
  let sym := symbolOf c source i
  applyType image (fieldOf c source i) (entryAt c source i).type
    (virtualOf (c.sh sym.shindex.toNat).addr + sym.value) (entryAt c source i).addend
    (virtualOf (fieldOf c source i))

/-- The entries of relocation section `k`, one after the other. -/
def linkSection (sh : SectionTable) (source image : Mem) (k : Nat) : Mem :=
  (List.range (numrel (sh k))).foldl (linkEntry (relocation sh k displacement) source) image

/-- A file's table with the addresses of all that is used of it. -/
def linkTable (file : Word) (sh : SectionTable) (shnum : Nat) (st : Loader) : SectionTable := fun i =>
  let h := placedTable file sh shnum st i
  if h.type = shtRela then { h with addr := file + h.offset } else h

/-- The relocation sections for section `i`. -/
def relocationsOf (sh : SectionTable) (shnum i : Nat) : List Nat :=
  (List.range shnum).filter fun k => (sh k).type = shtRela ∧ (sh k).info.toNat = i

/-- What section `i` of a file is to be in memory. -/
def sectionImage (file : Word) (sh : SectionTable) (shnum : Nat) (source : Mem) (i : Nat) : Mem :=
  (relocationsOf sh shnum i).foldl (linkSection sh source) (rawContent file (sh i) source)

/-- Bytes of a file. -/
def InFile (file : Word) (len : Nat) (a : Word) (n : Nat) : Prop := ∀ x, Within a n x → Within file len x

/-- Entries and symbols that the file holds, each for a field inside of the section of
`size` bytes and a symbol of a loaded section. -/
structure Sound (c : Relocation) (file : Word) (len shnum numrel : Nat) (size : Word) (source : Mem) : Prop where
  entries : ∀ i < numrel, InFile file len (c.rel + BitVec.ofNat 32 (12 * i)) 12
  symbols : ∀ i < numrel, InFile file len (c.symtab + 16 * (entryAt c source i).sym) 16
  regular : ∀ i < numrel, Regular c shnum size source i
  fits : ∀ i < numrel, (entryAt c source i).offset.toNat + fieldWidth (entryAt c source i).type ≤ size.toNat

/-- The table of relocation section `k` and what it names are fit to be used. -/
structure RelaSound (file : Word) (len : Nat) (sh : SectionTable) (shnum : Nat) (st : Loader) (k : Nat) : Prop where
  target : (sh k).info.toNat < shnum ∧ Loads (sh (sh k).info.toNat)
  symtab : (sh k).link.toNat < shnum ∧ (sh (sh k).link.toNat).type = shtSymtab
  sound :
    let c := relocation (linkTable file sh shnum st) k displacement
    Sound c file len shnum (numrel (sh k)) (sh (sh k).info.toNat).size st.mem ∧
      ∀ i < numrel (sh k), (sh (symbolOf c st.mem i).shindex.toNat).type ≠ shtRela

/-- A file that can be linked where its sections are placed. Relocation sections are not
placed themselves, and those for a section that is not placed are passed over. -/
structure WellFormed (file : Word) (len : Nat) (sh : SectionTable) (shnum : Nat) (st : Loader) : Prop where
  readable : Readable file len sh shnum st
  aboveZero : 0 < (before file sh st shnum).ptrRw.toNat
  rela : ∀ k < shnum, (sh k).type = shtRela →
    ((sh k).flags &&& shfAlloc = 0 ∧ (sh k).offset.toNat < len) ∧
      (((sh (sh k).info.toNat).type ≠ shtRela ∧ (placedTable file sh shnum st (sh k).info.toNat).addr = 0) ∨
        RelaSound file len sh shnum st k)

/-- The memory when the second loop comes to relocation section `k`. -/
structure Linked (file : Word) (sh : SectionTable) (shnum : Nat) (st : Loader) (k : Nat) (m : Mem) : Prop where
  sections : ∀ i < shnum, Loads (sh i) → ∀ x, InSection (linkTable file sh shnum st i) x →
    m x = sectionImage file (linkTable file sh shnum st) k st.mem i x
  others : ∀ x, (∀ i < shnum, Loads (sh i) → ¬InSection (linkTable file sh shnum st i) x) → m x = st.mem x

section
variable {c : Relocation} {file p type S A P : Word} {len shnum count i n : Nat} {size : Word}
  {source m m' image : Mem} {x : Word}

/-- Entries and symbols stay as the file spells them while the file stays. -/
theorem Sound.stands (sound : Sound c file len shnum count size source) (below : i < count)
    (unread : ∀ x, Within file len x → m x = source x) :
    entryAt c m i = entryAt c source i ∧ symbolOf c m i = symbolOf c source i := by
  have entry : entryAt c m i = entryAt c source i :=
    reloAt_congr fun x inside => unread x (sound.entries i below x inside)
  refine ⟨entry, ?_⟩
  rw [symbolOf, entry]
  exact symbolAt_congr fun x inside => unread x (sound.symbols i below x inside)

/-- The field of an entry lies in the section. -/
theorem Sound.inside (sound : Sound c file len shnum count size source) (below : i < count)
    (field : Within (fieldOf c source i) (fieldWidth (entryAt c source i).type) x) :
    Within c.base size.toNat x := by
  have offset : fieldOf c source i = c.base + BitVec.ofNat 32 (entryAt c source i).offset.toNat := by
    rw [fieldOf, BitVec.ofNat_toNat, BitVec.setWidth_eq]
  rw [offset] at field
  exact Nat.lt_of_lt_of_le (within_part field) (sound.fits i below)

/-- Entries change their section only, as they would an image of it. -/
theorem entries_link (sound : Sound c file len shnum count size source)
    (apart : ∀ x, Within c.base size.toNat x → ¬Within file len x)
    (unread : ∀ x, Within file len x → m x = source x)
    (agree : ∀ x, Within c.base size.toNat x → m x = image x) (least : n ≤ count) :
    (∀ x, ¬Within c.base size.toNat x → applyEntries c m n x = m x) ∧
      ∀ x, Within c.base size.toNat x →
        applyEntries c m n x = (List.range n).foldl (linkEntry c source) image x := by
  induction n with
  | zero => exact ⟨fun _ _ => rfl, agree⟩
  | succ n ih =>
    obtain ⟨kept, linked⟩ := ih (Nat.le_of_succ_le least)
    obtain ⟨entry, symbol⟩ := sound.stands least fun x inFile =>
      (kept x fun inside => apart x inside inFile).trans (unread x inFile)
    have field : fieldOf c (applyEntries c m n) n = fieldOf c source n := by
      rw [fieldOf, fieldOf, entry]
    constructor
    · intro x outside
      refine (applyEntry_apart c (applyEntries c m n) n ?_).trans (kept x outside)
      rw [field, entry]
      exact fun inside => outside (sound.inside least inside)
    · intro x inside
      rw [List.range_succ, List.foldl_append, List.foldl_cons, List.foldl_nil, linkEntry, applyEntries, applyEntry]
      rw [field, entry, symbol]
      exact applyType_agree (linked x inside)

/-- `relocate` accepts such entries. -/
theorem Sound.run (sound : Sound c file len shnum count size source) (virt : c.virt = displacement)
    (apart : ∀ x, Within c.base size.toNat x → ¬Within file len x)
    (unread : ∀ x, Within file len x → m x = source x) :
    c.run count 0 none m = (true, applyEntries c m count) := by
  have regular (i : Nat) (below : i < count) : Regular c shnum size (applyEntries c m i) i := by
    obtain ⟨kept, -⟩ := entries_link sound apart unread (fun x _ => Eq.refl (m x)) (Nat.le_of_lt below)
    obtain ⟨entry, symbol⟩ := sound.stands below fun x inFile =>
      (kept x fun inside => apart x inside inFile).trans (unread x inFile)
    have spelled := sound.regular i below
    exact ⟨entry ▸ spelled.known, entry ▸ spelled.inside, symbol ▸ spelled.defined, symbol ▸ spelled.listed,
      symbol ▸ spelled.loaded⟩
  have ran := run_exact m count 0 virt (fun i _ below => regular i (by omega)) none
  rwa [Nat.zero_add] at ran

end

section
variable {file x : Word} {len shnum i j k n : Nat} {sh sh' : SectionTable} {st : Loader} {m : Mem}

private theorem linkTable_header (i : Nat) : linkTable file sh shnum st i =
    { sh i with addr := (linkTable file sh shnum st i).addr } := by
  have placed := @placed_header file sh st shnum i
  unfold linkTable
  dsimp only
  split_ifs
  · rw [placed]
  · exact placed

private theorem linkTable_placed (other : (sh i).type ≠ shtRela) :
    linkTable file sh shnum st i = placedTable file sh shnum st i := by
  refine if_neg ?_
  rw [placed_header i]
  exact other

private theorem linkTable_rela (rela : (sh i).type = shtRela) :
    linkTable file sh shnum st i = { sh i with addr := file + (sh i).offset } := by
  have type : (placedTable file sh shnum st i).type = shtRela := by
    rw [placed_header i]
    exact rela
  have placed := @placed_header file sh st shnum i
  refine (if_pos type).trans ?_
  rw [placed]

theorem WellFormed.loads_placed (wellFormed : WellFormed file len sh shnum st) (below : i < shnum)
    (loads : Loads (sh i)) : linkTable file sh shnum st i = placedTable file sh shnum st i :=
  linkTable_placed fun rela => loads.2.2.1 (wellFormed.rela i below rela).1.1

/-- A table between the two loops and after the second one. -/
def Between (file : Word) (sh : SectionTable) (shnum : Nat) (st : Loader) (sh' : SectionTable) : Prop :=
  ∀ j, sh' j = placedTable file sh shnum st j ∨ sh' j = linkTable file sh shnum st j

theorem Between.header (between : Between file sh shnum st sh') (j : Nat) :
    sh' j = { sh j with addr := (sh' j).addr } := by
  rcases between j with placed | linked
  · rw [placed]
    exact placed_header j
  · rw [linked]
    exact linkTable_header j

theorem Between.same (between : Between file sh shnum st sh') (other : (sh j).type ≠ shtRela) :
    sh' j = linkTable file sh shnum st j := by
  rcases between j with placed | linked
  · rw [placed, linkTable_placed other]
  · exact linked

/-- The relocation section that is come to gets its address. -/
theorem Between.addressed (between : Between file sh shnum st sh') (rela : (sh k).type = shtRela) :
    Between file sh shnum st (opened file sh' k) ∧ opened file sh' k k = linkTable file sh shnum st k := by
  have here : opened file sh' k k = linkTable file sh shnum st k := by
    refine (if_pos rfl).trans ?_
    rw [linkTable_rela rela, between.header k]
  refine ⟨fun j => ?_, here⟩
  rcases eq_or_ne j k with rfl | other
  · exact .inr here
  · rw [show opened file sh' k j = sh' j from if_neg other]
    exact between j

/-- What `relocate` uses of the table is as it is in the end. -/
theorem RelaSound.opened (rela : RelaSound file len sh shnum st k) (type : (sh k).type = shtRela)
    (unplaced : ∀ k < shnum, (sh k).type = shtRela → (sh k).flags &&& shfAlloc = 0)
    (between : Between file sh shnum st sh') :
    let c := relocation (opened file sh' k) k displacement
    let c' := relocation (linkTable file sh shnum st) k displacement
    c.rel = c'.rel ∧ c.symtab = c'.symtab ∧ c.base = c'.base ∧ ∀ j, (sh j).type ≠ shtRela → c.sh j = c'.sh j := by
  obtain ⟨addressed, here⟩ := between.addressed type
  have symtab : (sh (sh k).link.toNat).type ≠ shtRela := by
    rw [rela.symtab.2]
    decide
  have target : (sh (sh k).info.toNat).type ≠ shtRela := fun type =>
    rela.target.2.2.2.1 (unplaced _ rela.target.1 type)
  have link : (linkTable file sh shnum st k).link = (sh k).link := by rw [linkTable_header k]
  have info : (linkTable file sh shnum st k).info = (sh k).info := by rw [linkTable_header k]
  dsimp only [relocation]
  rw [here, link, info, addressed.same symtab, addressed.same target]
  exact ⟨rfl, rfl, rfl, fun j other => addressed.same other⟩

theorem Sound.congr {c c' : Relocation} {count : Nat} {size : Word} {source : Mem}
    (sound : Sound c' file len shnum count size source) (rel : c.rel = c'.rel) (symtab : c.symtab = c'.symtab)
    (base : c.base = c'.base)
    (homes : ∀ i < count, c.sh (symbolOf c' source i).shindex.toNat = c'.sh (symbolOf c' source i).shindex.toNat) :
    Sound c file len shnum count size source ∧
      ∀ image, ∀ i < count, linkEntry c source image i = linkEntry c' source image i := by
  have entry (i : Nat) : entryAt c source i = entryAt c' source i := by rw [entryAt, entryAt, rel]
  have symbol (i : Nat) : symbolOf c source i = symbolOf c' source i := by rw [symbolOf, symbolOf, symtab, entry]
  have field (i : Nat) : fieldOf c source i = fieldOf c' source i := by rw [fieldOf, fieldOf, base, entry]
  refine ⟨⟨?_, ?_, ?_, ?_⟩, fun image i below => ?_⟩
  · rw [rel]
    exact sound.entries
  · intro i below
    rw [symtab, entry]
    exact sound.symbols i below
  · intro i below
    have regular := sound.regular i below
    refine ⟨entry i ▸ regular.known, entry i ▸ regular.inside, symbol i ▸ regular.defined,
      symbol i ▸ regular.listed, ?_⟩
    rw [symbol i, homes i below]
    exact regular.loaded
  · intro i below
    rw [entry]
    exact sound.fits i below
  · rw [linkEntry, linkEntry, entry, field, symbol, homes i below]

private theorem relocationsOf_succ : relocationsOf sh (k + 1) i =
    relocationsOf sh k i ++ if (sh k).type = shtRela ∧ (sh k).info.toNat = i then [k] else [] := by
  rw [relocationsOf, relocationsOf, List.range_succ, List.filter_append]
  congr 1
  split
  · rename_i own
    rw [List.filter_singleton, decide_eq_true own]
    rfl
  · rename_i other
    rw [List.filter_singleton, decide_eq_false other]
    rfl

private theorem sectionImage_succ {source : Mem} : sectionImage file sh (k + 1) source i =
    if (sh k).type = shtRela ∧ (sh k).info.toNat = i then linkSection sh source (sectionImage file sh k source i) k
    else sectionImage file sh k source i := by
  rw [sectionImage, relocationsOf_succ, List.foldl_append, ← sectionImage]
  split <;> rfl

/-- A section is placed where the file is not. -/
theorem section_inside (chained : Chained st) (safe : NoWrap (before file sh st shnum)) (below : i < shnum)
    (loads : Loads (sh i)) (inside : InSection (placedTable file sh shnum st i) x) :
    Taken (before file sh st shnum) x ∧ ¬Taken st x := by
  obtain ⟨taken, untaken⟩ := section_taken chained safe below loads inside
  refine ⟨taken_before chained safe below taken, fun old => untaken ?_⟩
  exact taken_before chained (before_safe safe (Nat.le_of_lt below)) (Nat.zero_le i) old

theorem WellFormed.apart (wellFormed : WellFormed file len sh shnum st)
    (taken : Taken (before file sh st shnum) x) : ¬Within file len x := by
  have apart := wellFormed.readable.apart
  rw [within_iff wellFormed.readable.here.2]
  unfold Taken at taken
  omega

theorem WellFormed.addr (wellFormed : WellFormed file len sh shnum st) (chained : Chained st)
    (safe : NoWrap (before file sh st shnum)) (below : i < shnum) (loads : Loads (sh i)) :
    (placedTable file sh shnum st i).addr ≠ 0 := by
  intro zero
  have inside : InSection (placedTable file sh shnum st i) 0 := by
    rw [InSection, zero, placed_header i, Within]
    exact Nat.pos_of_ne_zero fun empty => loads.2.2.2 (BitVec.eq_of_toNat_eq empty)
  have above := (section_inside chained safe below loads inside).1.1
  exact absurd wellFormed.aboveZero (Nat.not_lt.mpr above)

/-- `relocate` makes of a section what its next entries make of its image. -/
theorem Linked.apply (linked : Linked file sh shnum st k m) (chained : Chained st)
    (safe : NoWrap (before file sh st shnum)) (wellFormed : WellFormed file len sh shnum st)
    (between : Between file sh shnum st sh') (type : (sh k).type = shtRela)
    (rela : RelaSound file len sh shnum st k) :
    ∃ m', relocate (opened file sh' k) k displacement m = (true, m') ∧ Linked file sh shnum st (k + 1) m' := by
  obtain ⟨rel, symtab, base, homes⟩ := rela.opened type (fun k below type => (wellFormed.rela k below type).1.1) between
  obtain ⟨below, loads⟩ := rela.target
  obtain ⟨sound, linkable⟩ := rela.sound
  have here : opened file sh' k k = linkTable file sh shnum st k := (between.addressed type).2
  have count : numrel (opened file sh' k k) = numrel (sh k) := by rw [here, linkTable_header k]; rfl
  have target : (relocation (opened file sh' k) k displacement).base =
      (linkTable file sh shnum st (sh k).info.toNat).addr := by
    rw [base, relocation, linkTable_header k]
  obtain ⟨sound, entries⟩ := sound.congr rel symtab base fun i below => homes _ (linkable i below)
  have inside (x : Word) : Within (relocation (opened file sh' k) k displacement).base
      (sh (sh k).info.toNat).size.toNat x ↔
      InSection (linkTable file sh shnum st (sh k).info.toNat) x := by
    rw [target, InSection, linkTable_header (sh k).info.toNat]
  have taken {i : Nat} {x : Word} (below : i < shnum) (loads : Loads (sh i))
      (there : InSection (linkTable file sh shnum st i) x) : ¬Within file len x := by
    rw [wellFormed.loads_placed below loads] at there
    exact wellFormed.apart (section_inside chained safe below loads there).1
  have apart : ∀ x, Within (relocation (opened file sh' k) k displacement).base (sh (sh k).info.toNat).size.toNat x →
      ¬Within file len x := fun x there => taken below loads ((inside x).mp there)
  have unread : ∀ x, Within file len x → m x = st.mem x := fun x inFile =>
    linked.others x fun i below loads there => taken below loads there inFile
  obtain ⟨kept, image⟩ := entries_link sound apart unread
    (fun x there => linked.sections _ below loads x ((inside x).mp there)) (Nat.le_refl _)
  refine ⟨applyEntries (relocation (opened file sh' k) k displacement) m (numrel (sh k)), ?_, ?_, ?_⟩
  · change Relocation.run _ (numrel (opened file sh' k k)) 0 none m = _
    rw [count]
    exact sound.run rfl apart unread
  · intro i below' loads' x there
    have header : (linkTable file sh shnum st k).type = (sh k).type ∧
        (linkTable file sh shnum st k).info = (sh k).info := by
      rw [linkTable_header k]
      exact ⟨rfl, rfl⟩
    rw [sectionImage_succ, header.1, header.2]
    by_cases own : (sh k).info.toNat = i
    · subst own
      rw [if_pos ⟨type, rfl⟩, image x ((inside x).mpr there), linkSection, ← here, count]
      refine congrFun (List.foldl_ext _ _ _ fun image i member => ?_) x
      exact entries image i (List.mem_range.mp member)
    · rw [if_neg fun both => own both.2, kept x, linked.sections i below' loads' x there]
      rw [inside, wellFormed.loads_placed below loads]
      rw [wellFormed.loads_placed below' loads'] at there
      exact fun both => own (sections_apart chained safe below below' loads loads' both there)
  · intro x outside
    rw [kept x (fun there => outside _ below loads ((inside x).mp there))]
    exact linked.others x outside

end

section
variable {file : Word} {len : Nat} {st : Loader} {x : Word} {calls : List LoadCall} {call : LoadCall}

end

/-- A file with a word that is to hold its own address, plus four. -/
def wordFile : List (BitVec 8) :=
  elfFile
    [⟨0, 0, 0, 0, 0, 0, 0, 0, 0, 0⟩,
     ⟨0, 1, 6, 0, 252, 4, 0, 0, 4, 0⟩,
     ⟨0, shtSymtab, 0, 0, 256, 32, 4, 0, 4, 16⟩,
     ⟨0, shtRela, 0, 0, 288, 12, 2, 1, 4, 12⟩,
     ⟨0, shtStrtab, 0, 0, 300, 1, 0, 0, 1, 0⟩]
    ([0, 0, 0, 0] ++
      [0, 0, 0, 0, 0, 0, 0, 0, 0, 0, 0, 0, 0, 0, 0, 0] ++ [0, 0, 0, 0, 0, 0, 0, 0, 0, 0, 0, 0, 3, 0, 0, 1] ++
      [0, 0, 0, 0, 0, 0, 1, 1, 0, 0, 0, 4] ++ [0])

def wordLoader : Loader := Loader.initial (memoryWith wordFile)

end Parthenope.ElfImage
