import Mathlib.Tactic.SplitIfs
import Parthenope.Elf

/-! What `relocate` makes of a section. The code computes with the physical
addresses at which hunks are written, the image runs at virtual ones, and the
PowerPC ABI states every field for the addresses at which the image runs. For
entries that refer to symbols of loaded sections the two agree: the
displacement is added to absolute fields and cancels in relative ones. -/
namespace Parthenope.ElfRelocation
open ByteMemory Elf

/-- The address at which a physical address is seen by the running image. -/
def virtualOf (a : Word) : Word := a + displacement

def lo16 (x : Word) : BitVec 16 := x.setWidth 16

/-- `#ha`: the high halfword, adjusted for a low halfword taken as signed. -/
def ha16 (x : Word) : BitVec 16 := ((x + 0x8000) >>> 16).setWidth 16

/-- The word or halfword that the ABI puts at `p` for an entry of this type,
where `S` is the symbol's address, `A` the addend and `P` the address of the
field in the running image. -/
def applyType (m : Mem) (p type S A P : Word) : Mem :=
  if type = rPpcAddr32 then store32 m p (S + A)
  else if type = rPpcAddr16Lo then store16 m p (lo16 (S + A))
  else if type = rPpcAddr16Ha then store16 m p (ha16 (S + A))
  else if type = rPpcRel24 then
    store32 m p ((load32 m p &&& ~~~0x3fffffc) ||| ((S + A - P) &&& 0x3fffffc))
  else if type = rPpcRel32 then store32 m p (S + A - P)
  else m

/-- Entry `i` of the relocation table and the symbol it refers to, as the
memory spells them. -/
def entryAt (c : Relocation) (m : Mem) (i : Nat) : Relo :=
  reloAt m (c.rel + BitVec.ofNat 32 (12 * i))

def symbolOf (c : Relocation) (m : Mem) (i : Nat) : Symbol :=
  symbolAt m (c.symtab + 16 * (entryAt c m i).sym)

/-- The field entry `i` patches. -/
def fieldOf (c : Relocation) (m : Mem) (i : Nat) : Word := c.base + (entryAt c m i).offset

def fieldWidth (type : Word) : Nat :=
  if type = rPpcNone then 0
  else if type = rPpcAddr16Lo ∨ type = rPpcAddr16Ha then 2
  else 4

/-- Entry `i` by the ABI, every section at its virtual address. -/
def applyEntry (c : Relocation) (m : Mem) (i : Nat) : Mem :=
  let sym := symbolOf c m i
  applyType m (fieldOf c m i) (entryAt c m i).type
    (virtualOf (c.sh sym.shindex.toNat).addr + sym.value) (entryAt c m i).addend
    (virtualOf (fieldOf c m i))

/-- The first `n` entries by the ABI, one after the other. -/
def applyEntries (c : Relocation) (m : Mem) : Nat → Mem
  | 0 => m
  | n + 1 => applyEntry c (applyEntries c m n) n

/-- Entry `i`, as it reads in `m`, has a type the loader knows, an offset inside
its section of `size` bytes, and a symbol defined in one of the file's
`shnum` sections that has been given an address. -/
structure Regular (c : Relocation) (shnum : Nat) (size : Word) (m : Mem) (i : Nat) : Prop where
  known : (entryAt c m i).type ∈
    [rPpcNone, rPpcAddr32, rPpcAddr16Lo, rPpcAddr16Ha, rPpcRel24, rPpcRel32]
  inside : (entryAt c m i).offset < size
  defined : (symbolOf c m i).shindex ∉ [shnUndef, shnCommon, shnAbs]
  listed : (symbolOf c m i).shindex.toNat < shnum
  loaded : (c.sh (symbolOf c m i).shindex.toNat).addr ≠ 0

theorem ha16_toNat (x : Word) : (ha16 x).toNat = (x.toNat + 0x8000) / 0x10000 % 0x10000 := by
  have sum : (x + 0x8000 : Word).toNat = (x.toNat + 0x8000) % 2 ^ 32 := BitVec.toNat_add _ _
  rw [ha16, BitVec.toNat_setWidth, BitVec.toNat_ushiftRight, sum, Nat.shiftRight_eq_div_pow]
  omega

/-- The halves of a word put together as the processor does, the low one sign
extended. -/
theorem halves_recompose (x : Word) :
    ((ha16 x).setWidth 32 <<< 16) + (lo16 x).signExtend 32 = x := by
  have bound := x.isLt
  apply BitVec.eq_of_toNat_eq
  rw [BitVec.toNat_add, BitVec.toNat_shiftLeft, BitVec.toNat_setWidth, ha16_toNat,
    BitVec.toNat_signExtend, BitVec.toNat_setWidth, BitVec.msb_eq_decide]
  simp only [lo16, BitVec.toNat_setWidth, Nat.shiftLeft_eq, decide_eq_true_eq]
  split <;> omega

private theorem bit15_iff (x : Word) : x &&& 0x8000 ≠ 0 ↔ x.toNat / 0x8000 % 2 = 1 := by
  have power : (0x8000 : Word) = BitVec.twoPow 32 15 := by decide
  have nonzero : BitVec.twoPow 32 15 ≠ 0 := by decide
  rw [power, BitVec.and_twoPow, BitVec.getLsbD, Nat.testBit_eq_decide_div_mod_eq]
  by_cases odd : x.toNat / 0x8000 % 2 = 1
  · simpa [odd] using nonzero
  · simp [odd]

/-- Adding one when bit 15 is set is the adjustment of the ABI. -/
theorem adjusted_half (x : Word) :
    (if x &&& 0x8000 ≠ 0 then lowHalf (x >>> 16) + 1 else lowHalf (x >>> 16)) = ha16 x := by
  have bound := x.isLt
  apply BitVec.eq_of_toNat_eq
  rw [ha16_toNat]
  simp only [bit15_iff]
  split
  · simp only [lowHalf, BitVec.toNat_add, BitVec.toNat_setWidth, BitVec.toNat_ushiftRight,
      BitVec.ofNat_eq_ofNat, BitVec.toNat_ofNat, Nat.shiftRight_eq_div_pow]
    omega
  · simp only [lowHalf, BitVec.toNat_setWidth, BitVec.toNat_ushiftRight,
      Nat.shiftRight_eq_div_pow]
    omega

private theorem masked_low (x : Word) : lowHalf (x &&& 0xffff) = lo16 x := by
  apply BitVec.eq_of_toNat_eq
  simp only [lowHalf, lo16, BitVec.toNat_setWidth, BitVec.toNat_and, BitVec.ofNat_eq_ofNat,
    BitVec.toNat_ofNat]
  rw [show 65535 % 2 ^ 32 = 2 ^ 16 - 1 from rfl, Nat.and_two_pow_sub_one_eq_mod, Nat.mod_mod]

/-- Adding an offset to absolute fields is the same as seeing the symbol and the field from
there: it cancels in relative fields. -/
theorem patch_seen (m : Mem) (p : Word) (r : Relo) (s v : Word)
    (known : r.type ∈ [rPpcNone, rPpcAddr32, rPpcAddr16Lo, rPpcAddr16Ha, rPpcRel24, rPpcRel32]) :
    patch m p r s v = some (applyType m p r.type (s + v) r.addend (p + v)) := by
  have absolute : s + r.addend + v = s + v + r.addend := by ring
  have relative : s + r.addend - p = s + v + r.addend - (p + v) := by ring
  simp only [patch, applyType, absolute, relative, masked_low]
  split
  · rfl
  split
  · rfl
  split
  · have half := adjusted_half (s + v + r.addend)
    split
    · rename_i high
      rw [store16_store16, load16_store16 (by decide), ← half, if_pos high]
    · rename_i low
      rw [← half, if_neg low]
  split
  · rw [store32_store32, load32_store32 (by decide)]
  split
  · rfl
  split
  · rfl
  · simp_all

private theorem patch_exact (m : Mem) (p : Word) (r : Relo) (s : Word)
    (known : r.type ∈ [rPpcNone, rPpcAddr32, rPpcAddr16Lo, rPpcAddr16Ha, rPpcRel24, rPpcRel32]) :
    patch m p r s displacement =
      some (applyType m p r.type (virtualOf s) r.addend (virtualOf p)) :=
  patch_seen m p r s displacement known

/-- A symbol of an ordinary section lies at its value from the section's
address, whatever is remembered of `SysBase`. -/
theorem resolve_defined (c : Relocation) (m : Mem) (sysBase : Option Word) (symAddr : Word)
    (defined : (symbolAt m symAddr).shindex ∉ [shnUndef, shnCommon, shnAbs]) :
    c.resolve m sysBase symAddr =
      some ((c.sh (symbolAt m symAddr).shindex.toNat).addr + (symbolAt m symAddr).value,
        c.virt, sysBase) := by
  simp only [List.mem_cons, List.not_mem_nil, or_false, not_or] at defined
  simp only [Relocation.resolve]
  rw [if_neg defined.1, if_neg defined.2.1, if_neg defined.2.2]

/-- One turn of the loop is one entry by the ABI. -/
theorem entry_exact {c : Relocation} {shnum : Nat} {size : Word} {m : Mem} {i : Nat}
    (virt : c.virt = displacement) (regular : Regular c shnum size m i) (sysBase : Option Word) :
    c.entry i sysBase m = some (sysBase, applyEntry c m i) := by
  have resolved := resolve_defined c m sysBase _ regular.defined
  have patched := patch_exact m (fieldOf c m i) (entryAt c m i)
    ((c.sh (symbolOf c m i).shindex.toNat).addr + (symbolOf c m i).value) regular.known
  have sum : ∀ a b : Word, virtualOf (a + b) = virtualOf a + b := by
    intro a b
    unfold virtualOf
    ring
  rw [sum] at patched
  rw [virt] at resolved
  simp only [entryAt] at resolved
  simp only [fieldOf, symbolOf, entryAt] at patched
  simp only [Relocation.entry, resolved, patched]
  rfl

/-- The loop from entry `i` on, when everything before it has been applied. -/
theorem run_exact {c : Relocation} {shnum : Nat} {size : Word} (m : Mem) (n i : Nat)
    (virt : c.virt = displacement)
    (regular : ∀ k, i ≤ k → k < i + n → Regular c shnum size (applyEntries c m k) k)
    (sysBase : Option Word) :
    c.run n i sysBase (applyEntries c m i) = (true, applyEntries c m (i + n)) := by
  induction n generalizing i with
  | zero => rfl
  | succ n ih =>
    have first := entry_exact virt (regular i (Nat.le_refl _) (by omega)) sysBase
    have rest := ih (i + 1) fun k above below => regular k (by omega) (by omega)
    simp only [Relocation.run, first]
    rw [show i + (n + 1) = i + 1 + n by omega]
    exact rest

/-- An entry changes its own field only. -/
theorem applyEntry_apart (c : Relocation) (m : Mem) (i : Nat) {x : Word}
    (outside : ¬ Within (fieldOf c m i) (fieldWidth (entryAt c m i).type) x) :
    applyEntry c m i x = m x := by
  simp only [applyEntry, applyType]
  simp only [fieldWidth] at outside
  split_ifs with addr32 low high rel24 rel32
  · exact store32_apart _ (by simpa [addr32, rPpcAddr32, rPpcNone, rPpcAddr16Lo, rPpcAddr16Ha] using outside)
  · exact store16_apart _ (by simpa [low, rPpcNone, rPpcAddr16Lo] using outside)
  · exact store16_apart _ (by simpa [high, rPpcNone, rPpcAddr16Ha] using outside)
  · exact store32_apart _ (by simpa [rel24, rPpcRel24, rPpcNone, rPpcAddr16Lo, rPpcAddr16Ha] using outside)
  · exact store32_apart _ (by simpa [rel32, rPpcRel32, rPpcNone, rPpcAddr16Lo, rPpcAddr16Ha] using outside)
  · rfl

/-- A run of entries changes their fields only. -/
theorem applyEntries_apart (c : Relocation) (m : Mem) (n : Nat) {x : Word}
    (outside : ∀ i < n, ¬ Within (fieldOf c (applyEntries c m i) i)
      (fieldWidth (entryAt c (applyEntries c m i) i).type) x) :
    applyEntries c m n x = m x := by
  induction n with
  | zero => rfl
  | succ n ih =>
    have before := ih fun i below => outside i (by omega)
    exact (applyEntry_apart c _ n (outside n (by omega))).trans before

/-- The sections and the table that relocation section `shrelIdx` names have
the shape the loader works on: entries of twelve bytes, each regular as it
reads when its turn comes. Where the patched fields do not overlap the tables,
that is how the file spells it (`regular_of_file`). -/
structure RegularSection (sh : SectionTable) (shrelIdx shnum : Nat) (m : Mem) : Prop where
  entsize : (sh shrelIdx).entsize = 12
  entries : ∀ i < (sh shrelIdx).size.toNat / 12,
    Regular (relocation sh shrelIdx displacement) shnum (sh (sh shrelIdx).info.toNat).size
      (applyEntries (relocation sh shrelIdx displacement) m i) i

/-- `relocate` accepts such a section and leaves memory as the ABI says, entry
by entry, every section at its virtual address. Bytes outside the patched
fields keep their values, and the two halfword fields recompose to `S + A`. -/
theorem relocate_exact (sh : SectionTable) (shrelIdx shnum : Nat) (m : Mem)
    (regular : RegularSection sh shrelIdx shnum m) :
    let c := relocation sh shrelIdx displacement
    let numrel := (sh shrelIdx).size.toNat / 12
    relocate sh shrelIdx displacement m = (true, applyEntries c m numrel) ∧
      (∀ x, (∀ i < numrel, ¬ Within (fieldOf c (applyEntries c m i) i)
          (fieldWidth (entryAt c (applyEntries c m i) i).type) x) →
        applyEntries c m numrel x = m x) ∧
      ∀ x : Word, ((ha16 x).setWidth 32 <<< 16) + (lo16 x).signExtend 32 = x := by
  intro c numrel
  refine ⟨?_, fun x => applyEntries_apart c m numrel, halves_recompose⟩
  have ran := run_exact m numrel 0 rfl (fun k _ below => regular.entries k (by omega)) none
  rw [Nat.zero_add] at ran
  simp only [relocate, regular.entsize]
  exact ran

/-- A section at `0x7ff000` whose halfwords at 2 and 6 take the two halves of
the symbol at `0x9000` in the section loaded at `0x800000`, plus four. -/
def halfwordTable : SectionTable := fun i =>
  [⟨0, shtRela, 0, 0x2000, 0, 24, 1, 2, 1, 12⟩,
   ⟨0, shtSymtab, 0, 0x3000, 0, 16, 3, 0, 1, 16⟩,
   ⟨0, 1, 3, 0x7ff000, 0, 8, 0, 0, 1, 0⟩,
   ⟨0, 1, 2, 0x800000, 0, 0x10000, 0, 0, 1, 0⟩].getD i ⟨0, 0, 0, 0, 0, 0, 0, 0, 0, 0⟩

def halfwordMemory : Mem := fun a =>
  if Within 0x2000 24 a then
    [0, 0, 0, 2, 0, 0, 0, 6, 0, 0, 0, 4, 0, 0, 0, 6, 0, 0, 0, 4, 0, 0, 0, 4].getD (a - 0x2000).toNat 0
  else if Within 0x3000 16 a then
    [0, 0, 0, 0, 0, 0, 0x90, 0, 0, 0, 0, 0, 0, 0, 0, 3].getD (a - 0x3000).toNat 0
  else 0

private instance (c : Relocation) (shnum : Nat) (size : Word) (m : Mem) (i : Nat) :
    Decidable (Regular c shnum size m i) :=
  decidable_of_iff
    ((entryAt c m i).type ∈
        [rPpcNone, rPpcAddr32, rPpcAddr16Lo, rPpcAddr16Ha, rPpcRel24, rPpcRel32] ∧
      (entryAt c m i).offset < size ∧
      (symbolOf c m i).shindex ∉ [shnUndef, shnCommon, shnAbs] ∧
      (symbolOf c m i).shindex.toNat < shnum ∧
      (c.sh (symbolOf c m i).shindex.toNat).addr ≠ 0)
    ⟨fun ⟨known, inside, defined, listed, loaded⟩ => ⟨known, inside, defined, listed, loaded⟩,
      fun ⟨known, inside, defined, listed, loaded⟩ => ⟨known, inside, defined, listed, loaded⟩⟩

/-- The high half is rounded up for the negative low half below it. -/
theorem halfwords_relocated :
    (relocate halfwordTable 0 displacement halfwordMemory).1 = true ∧
      (List.range 8).map (fun i => (relocate halfwordTable 0 displacement halfwordMemory).2
        (0x7ff000 + BitVec.ofNat 32 i)) = [0, 0, 0xff, 0x81, 0, 0, 0x90, 0x04] := by
  have regular : RegularSection halfwordTable 0 4 halfwordMemory :=
    ⟨rfl, by decide +kernel⟩
  rw [(relocate_exact halfwordTable 0 4 halfwordMemory regular).1]
  exact ⟨rfl, by decide +kernel⟩

/-- What is stored at a byte depends on what is there, and on nothing else in memory. -/
theorem applyType_agree {m m' : Mem} {p type S A P x : Word} (here : m x = m' x) :
    applyType m p type S A P x = applyType m' p type S A P x := by
  have half (v : BitVec 16) : store16 m p v x = store16 m' p v x := by
    unfold store16
    rw [here]
  have word (v : Word) : store32 m p v x = store32 m' p v x := by
    unfold store32
    rw [here]
  have masked (v mask : Word) :
      store32 m p ((load32 m p &&& mask) ||| v) x = store32 m' p ((load32 m' p &&& mask) ||| v) x := by
    unfold store32
    split
    next inside =>
      have there : p + BitVec.ofNat 32 (x - p).toNat = x := by
        rw [BitVec.ofNat_toNat, BitVec.setWidth_eq]
        bv_omega
      have byte : byteOf 4 (load32 m p) (x - p).toNat = byteOf 4 (load32 m' p) (x - p).toNat := by
        rw [byteOf_load32 m p inside, byteOf_load32 m' p inside, there, here]
      unfold byteOf at byte ⊢
      rw [BitVec.extractLsb'_or, BitVec.extractLsb'_or, BitVec.extractLsb'_and, BitVec.extractLsb'_and, byte]
    next => exact here
  unfold applyType
  split_ifs
  · exact word _
  · exact half _
  · exact half _
  · exact masked _ _
  · exact word _
  · exact here

theorem reloAt_congr {m m' : Mem} {p : Word} (same : SameAt m m' p 12) :
    reloAt m p = reloAt m' p := by
  simp only [reloAt, Relo.mk.injEq]
  exact ⟨load32_congr (by decide) (by simpa using same.part (k := 0) (n := 4) (by decide)),
    load32_congr (by decide) (same.part (k := 4) (by decide)),
    load32_congr (by decide) (same.part (k := 8) (by decide))⟩

theorem symbolAt_congr {m m' : Mem} {p : Word} (same : SameAt m m' p 16) :
    symbolAt m p = symbolAt m' p := by
  simp only [symbolAt, Symbol.mk.injEq]
  exact ⟨load32_congr (by decide) (by simpa using same.part (k := 0) (n := 4) (by decide)),
    load32_congr (by decide) (same.part (k := 4) (by decide)),
    load32_congr (by decide) (same.part (k := 8) (by decide)),
    load16_congr (by decide) (same.part (k := 14) (by decide))⟩

/-- A byte of the first `n` entries or of a symbol one of them refers to. -/
def TableByte (c : Relocation) (m : Mem) (n : Nat) (x : Word) : Prop :=
  ∃ k < n, Within (c.rel + BitVec.ofNat 32 (12 * k)) 12 x ∨
    Within (c.symtab + 16 * (entryAt c m k).sym) 16 x

/-- Patches that stay off the tables leave every entry and its symbol as the
file spells them. -/
theorem tables_stand {c : Relocation} {m : Mem} {n : Nat}
    (apart : ∀ i < n, ∀ x, TableByte c m n x →
      ¬ Within (fieldOf c m i) (fieldWidth (entryAt c m i).type) x) {i : Nat} (upTo : i ≤ n) :
    ∀ k < n, entryAt c (applyEntries c m i) k = entryAt c m k ∧
      symbolOf c (applyEntries c m i) k = symbolOf c m k := by
  -- it is enough that the table bytes are untouched
  have stand : ∀ m' : Mem, (∀ x, TableByte c m n x → m' x = m x) → ∀ k < n,
      entryAt c m' k = entryAt c m k ∧ symbolOf c m' k = symbolOf c m k := by
    intro m' same k below
    have entry : entryAt c m' k = entryAt c m k :=
      reloAt_congr fun x inside => same x ⟨k, below, .inl inside⟩
    refine ⟨entry, ?_⟩
    simp only [symbolOf, entry]
    exact symbolAt_congr fun x inside => same x ⟨k, below, .inr inside⟩
  refine stand _ ?_
  induction i with
  | zero => exact fun x _ => rfl
  | succ i ih =>
    intro x table
    have before := ih (by omega)
    have entry := (stand _ before i (by omega)).1
    refine (applyEntry_apart c (applyEntries c m i) i ?_).trans (before x table)
    simp only [fieldOf, entry]
    exact apart i (by omega) x table

/-- A section whose entries are regular as the file spells them, and whose
patched fields stay off the tables, is regular throughout the relocation. -/
theorem regular_of_file (sh : SectionTable) (shrelIdx shnum : Nat) (m : Mem)
    (entsize : (sh shrelIdx).entsize = 12)
    (entries : ∀ i < (sh shrelIdx).size.toNat / 12,
      Regular (relocation sh shrelIdx displacement) shnum (sh (sh shrelIdx).info.toNat).size m i)
    (apart : ∀ i < (sh shrelIdx).size.toNat / 12, ∀ x,
      TableByte (relocation sh shrelIdx displacement) m ((sh shrelIdx).size.toNat / 12) x →
        ¬ Within (fieldOf (relocation sh shrelIdx displacement) m i)
          (fieldWidth (entryAt (relocation sh shrelIdx displacement) m i).type) x) :
    RegularSection sh shrelIdx shnum m where
  entsize := entsize
  entries i below := by
    obtain ⟨entry, symbol⟩ := tables_stand apart (Nat.le_of_lt below) i below
    have spelled := entries i below
    exact ⟨entry ▸ spelled.known, entry ▸ spelled.inside, symbol ▸ spelled.defined,
      symbol ▸ spelled.listed, symbol ▸ spelled.loaded⟩

end Parthenope.ElfRelocation
