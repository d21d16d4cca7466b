import Mathlib.Data.Nat.Bitwise
import Parthenope.Elf
import Parthenope.TwoEndedBump

/-! Where hunks end up in memory. `load_hunk` works in 32-bit words; as long as
the exact layout stays inside the address space it is the two-ended bump
allocator, for any number of files loaded one after the other. What holds of
that allocator then holds of every hunk ever placed. -/
namespace Parthenope.ElfLayout
open ByteMemory Elf TwoEndedBump

/-- The request a section header makes of the allocator. -/
def requestOf (sh : SHeader) : Request where
  size := sh.size.toNat
  align := sh.addralign.toNat
  below := sh.writable

def addressSpace : Nat := 2 ^ 32

/-- Before anything is loaded both ends stand at the base. -/
def base : Arena := ⟨kernelPhysBase.toNat, kernelPhysBase.toNat⟩

def PowerOfTwo (x : Word) : Prop := ∃ k, x.toNat = 2 ^ k

/-- What has been asked of the loader so far, oldest first. -/
def requests (st : Loader) : List Request := (st.placed.map fun h => requestOf h.sh).reverse

def placementOf (h : Hunk) : Placement :=
  ⟨requestOf h.sh, h.addr.toNat, ⟨h.ptrRw.toNat, h.ptrRo.toNat⟩⟩

/-- The hunks placed so far are a run of the allocator whose alignments are
powers of two and whose exact addresses do not leave the address space. -/
structure NoWrap (st : Loader) : Prop where
  powers : ∀ h ∈ st.placed, PowerOfTwo h.sh.addralign
  fits : base.FitsAll addressSpace (requests st)

/-- Pointers and placements are the allocator's. -/
def Refines (st : Loader) : Prop :=
  base.growAll (requests st) = ⟨st.ptrRw.toNat, st.ptrRo.toNat⟩ ∧
    base.placements (requests st) = (st.placed.map placementOf).reverse

theorem power_positive {x : Word} (power : PowerOfTwo x) : 0 < x.toNat := by
  obtain ⟨k, power⟩ := power
  exact power ▸ Nat.two_pow_pos k

private theorem power_lt {x : Word} {k : Nat} (power : x.toNat = 2 ^ k) : k < 32 := by
  have bound := x.isLt
  rw [power] at bound
  exact (Nat.pow_lt_pow_iff_right (by decide)).mp bound

/-- Masking with `~(align - 1)` rounds down. -/
theorem mask_rounds_down {x align : Word} (power : PowerOfTwo align) :
    (x &&& ~~~(align - 1)).toNat = alignDown align.toNat x.toNat := by
  obtain ⟨k, power⟩ := power
  have small := power_lt power
  have mask : align - 1 = BitVec.ofNat 32 (2 ^ k - 1) := by
    have positive : 0 < 2 ^ k := Nat.two_pow_pos k
    have bound := align.isLt
    apply BitVec.eq_of_toNat_eq
    rw [BitVec.toNat_sub, power, BitVec.toNat_ofNat]
    simp only [BitVec.ofNat_eq_ofNat, BitVec.toNat_ofNat]
    omega
  apply Nat.eq_of_testBit_eq
  intro i
  rw [mask, alignDown, power, Nat.testBit_mul_two_pow, Nat.testBit_div_two_pow,
    BitVec.testBit_toNat, BitVec.testBit_toNat, BitVec.getLsbD_and, BitVec.getLsbD_not,
    BitVec.getLsbD_ofNat, Nat.testBit_two_pow_sub_one]
  by_cases low : i < k
  · simp [low, Nat.lt_trans low small, show ¬ k ≤ i by omega]
  · by_cases inside : i < 32
    · simp [low, inside, show k ≤ i by omega, show i - k + k = i by omega]
    · simp [inside, BitVec.getLsbD_of_ge x i (by omega), show i - k + k = i by omega]

/-- A writable hunk that fits lies where the allocator puts it. -/
theorem hunkBelow_exact {ptrRw size addralign : Word} (power : PowerOfTwo addralign)
    (fits : size.toNat + (addralign.toNat - 1) ≤ ptrRw.toNat) :
    (hunkBelow ptrRw size addralign).toNat =
      alignDown addralign.toNat (ptrRw.toNat - size.toNat - (addralign.toNat - 1)) := by
  have positive := power_positive power
  rw [hunkBelow, mask_rounds_down power]
  congr 1
  bv_omega

/-- A read-only hunk that fits lies where the allocator puts it. -/
theorem hunkAbove_exact {ptrRo addralign : Word} (power : PowerOfTwo addralign)
    (fits : alignDown addralign.toNat (ptrRo.toNat + (addralign.toNat - 1)) < addressSpace) :
    (hunkAbove ptrRo addralign).toNat =
      alignDown addralign.toNat (ptrRo.toNat + (addralign.toNat - 1)) := by
  have rounded := power
  have positive := power_positive power
  obtain ⟨k, power⟩ := power
  have small := power_lt power
  -- the rounded sum is a multiple below a multiple, so the sum itself fits
  have noCarry : ptrRo.toNat + (addralign.toNat - 1) < addressSpace := by
    have above := lt_alignDown_add (x := ptrRo.toNat + (addralign.toNat - 1)) positive
    obtain ⟨q, multiple⟩ := alignDown_multiple addralign.toNat (ptrRo.toNat + (addralign.toNat - 1))
    obtain ⟨j, whole⟩ : addralign.toNat ∣ addressSpace := by
      rw [power]
      exact Nat.pow_dvd_pow 2 (by omega)
    rw [multiple] at fits above
    rw [whole] at fits ⊢
    have steps : q + 1 ≤ j := Nat.lt_of_mul_lt_mul_left fits
    have room := Nat.mul_le_mul_left addralign.toNat steps
    rw [Nat.mul_succ] at room
    omega
  rw [hunkAbove, mask_rounds_down rounded]
  congr 1
  unfold addressSpace at noCarry
  bv_omega

/-- The placement that `load_hunk` makes of a section that is not empty. -/
def hunkOf (sh : SHeader) (st : Loader) : Hunk :=
  ⟨sh, (takeHunk sh st).1, (takeHunk sh st).2.ptrRo, (takeHunk sh st).2.ptrRw⟩

private theorem takeHunk_eq (sh : SHeader) (st : Loader) :
    takeHunk sh st =
      ((hunkOf sh st).addr, { st with ptrRo := (hunkOf sh st).ptrRo, ptrRw := (hunkOf sh st).ptrRw }) := by
  unfold hunkOf takeHunk
  split <;> rfl

theorem hunkOf_addr (sh : SHeader) (st : Loader) : (hunkOf sh st).addr =
    if sh.writable = true then hunkBelow st.ptrRw sh.size sh.addralign else hunkAbove st.ptrRo sh.addralign := by
  unfold hunkOf takeHunk
  split <;> rfl

theorem hunkOf_ptrRo (sh : SHeader) (st : Loader) :
    (hunkOf sh st).ptrRo = if sh.writable = true then st.ptrRo else (hunkOf sh st).addr + sh.size := by
  unfold hunkOf takeHunk
  split <;> rfl

theorem hunkOf_ptrRw (sh : SHeader) (st : Loader) :
    (hunkOf sh st).ptrRw = if sh.writable = true then (hunkOf sh st).addr else st.ptrRw := by
  unfold hunkOf takeHunk
  split <;> rfl

theorem loadHunk_empty (file : Word) {sh : SHeader} (st : Loader) (empty : sh.size = 0) :
    loadHunk file sh st = (sh, st) := if_pos empty

/-- All that `load_hunk` does for a section that is not empty. -/
theorem loadHunk_placed (file : Word) {sh : SHeader} (st : Loader) (nonempty : sh.size ≠ 0) :
    loadHunk file sh st =
      ({ sh with addr := (hunkOf sh st).addr },
        { st with
          mem := if sh.type = shtNobits then fill st.mem (hunkOf sh st).addr 0 sh.size.toNat
            else copy st.mem (hunkOf sh st).addr (file + sh.offset) sh.size.toNat
          ptrRo := (hunkOf sh st).ptrRo
          ptrRw := (hunkOf sh st).ptrRw
          tracker := if sh.type = shtNobits then
              fun k => if k = st.bssTracker then ⟨(hunkOf sh st).addr + displacement, sh.size⟩
                else st.tracker k
            else st.tracker
          bssTracker := if sh.type = shtNobits then st.bssTracker + 1 else st.bssTracker
          placed := hunkOf sh st :: st.placed }) := by
  unfold loadHunk
  rw [if_neg nonempty, takeHunk_eq]
  by_cases nobits : sh.type = shtNobits
  · simp only [nobits, ne_eq, not_true_eq_false, if_false, if_true]
    rfl
  · simp only [nobits, ne_eq, not_false_eq_true, if_true, if_false]
    rfl

/-- `load_hunk` passes over an empty section and otherwise places one hunk. -/
theorem loadHunk_step (file : Word) (sh : SHeader) (st : Loader) :
    ((loadHunk file sh st).2.placed = st.placed ∧
      (loadHunk file sh st).2.ptrRo = st.ptrRo ∧ (loadHunk file sh st).2.ptrRw = st.ptrRw) ∨
    ((loadHunk file sh st).2.placed = hunkOf sh st :: st.placed ∧
      (loadHunk file sh st).2.ptrRo = (hunkOf sh st).ptrRo ∧
      (loadHunk file sh st).2.ptrRw = (hunkOf sh st).ptrRw) := by
  by_cases empty : sh.size = 0
  · left
    rw [loadHunk_empty file st empty]
    exact ⟨rfl, rfl, rfl⟩
  · right
    rw [loadHunk_placed file st empty]
    exact ⟨rfl, rfl, rfl⟩

/-- The address taken and the pointers left are the allocator's. -/
theorem takeHunk_exact {sh : SHeader} {st : Loader} (power : PowerOfTwo sh.addralign)
    (fits : (Arena.mk st.ptrRw.toNat st.ptrRo.toNat).Fits addressSpace (requestOf sh)) :
    (Arena.mk st.ptrRw.toNat st.ptrRo.toNat).place (requestOf sh) = (takeHunk sh st).1.toNat ∧
      (Arena.mk st.ptrRw.toNat st.ptrRo.toNat).grow (requestOf sh) =
        ⟨(takeHunk sh st).2.ptrRw.toNat, (takeHunk sh st).2.ptrRo.toNat⟩ := by
  cases writable : sh.writable with
  | true =>
    simp only [Arena.Fits, requestOf, writable, if_true] at fits
    have exactly := hunkBelow_exact power fits
    simp [Arena.grow, Arena.place, requestOf, takeHunk, writable, exactly]
  | false =>
    simp only [Arena.Fits, Arena.place, requestOf, writable, Bool.false_eq_true, if_false] at fits
    have exactly := hunkAbove_exact power (Nat.lt_of_le_of_lt (Nat.le_add_right ..) fits)
    have stays : (hunkAbove st.ptrRo sh.addralign + sh.size).toNat =
        (hunkAbove st.ptrRo sh.addralign).toNat + sh.size.toNat := by
      rw [← exactly] at fits
      exact (BitVec.toNat_add ..).trans (Nat.mod_eq_of_lt fits)
    simp only [Arena.grow, Arena.place, requestOf, takeHunk, writable, Bool.false_eq_true,
      if_false, stays, exactly, and_self]

theorem noWrap_tail {st st' : Loader} {h : Hunk} (safe : NoWrap st')
    (grown : st'.placed = h :: st.placed) :
    NoWrap st ∧ PowerOfTwo h.sh.addralign ∧
      (base.growAll (requests st)).Fits addressSpace (requestOf h.sh) := by
  have fits := safe.fits
  have split : requests st' = requests st ++ [requestOf h.sh] := by simp [requests, grown]
  rw [split, fitsAll_append] at fits
  exact ⟨⟨fun k member => safe.powers k (by simp [grown, member]), fits.1⟩,
    safe.powers h (by simp [grown]), fits.2.1⟩

/-- As long as nothing wraps, the loader follows the allocator. -/
def Follows (st : Loader) : Prop := NoWrap st → Refines st

theorem follows_of_same {st st' : Loader} (follows : Follows st)
    (placed : st'.placed = st.placed) (ro : st'.ptrRo = st.ptrRo) (rw : st'.ptrRw = st.ptrRw) :
    Follows st' := by
  intro safe
  have same : requests st' = requests st := by simp [requests, placed]
  have before := follows ⟨by simpa [placed] using safe.powers, same ▸ safe.fits⟩
  simpa [Refines, same, placed, ro, rw] using before

/-- It still does after one more hunk. -/
theorem loadHunk_follows (file : Word) (sh : SHeader) {st : Loader} (follows : Follows st) :
    Follows (loadHunk file sh st).2 := by
  rcases loadHunk_step file sh st with ⟨placed, ro, rw⟩ | ⟨placed, ro, rw⟩
  · exact follows_of_same follows placed ro rw
  · intro safe
    obtain ⟨before, power, fits⟩ := noWrap_tail safe placed
    obtain ⟨ends, placements⟩ := follows before
    change PowerOfTwo sh.addralign at power
    change (base.growAll (requests st)).Fits addressSpace (requestOf sh) at fits
    rw [ends] at fits
    obtain ⟨address, grown⟩ := takeHunk_exact power fits
    have split : requests (loadHunk file sh st).2 = requests st ++ [requestOf sh] := by
      simp [requests, placed, hunkOf]
    refine ⟨?_, ?_⟩
    · rw [split, growAll_append, ends, growAll_cons, grown, ro, rw]
      rfl
    · rw [split, placements_append, placements, ends, placed]
      simp [Arena.placements, placementOf, hunkOf, address, grown]

/-- One call of `load_elf_file`: the name and address of the file, and the
memory it finds, which the caller changes between calls by reading files. -/
structure LoadCall where
  name : List (BitVec 8)
  file : Word
  mem : Mem

/-- Any number of files loaded one after the other; a refused one leaves the
hunks it had already placed. -/
def loadFiles (st : Loader) (calls : List LoadCall) : Loader :=
  calls.foldl (fun st call => (loadElfFile call.name call.file { st with mem := call.mem }).2) st

section
variable {Inv : Loader → Prop} {st : Loader}

/-- The first loop of `load_elf_file` is a sequence of hunks, the rest only
patches memory and records the module: what both keep holds after any number
of files. -/
theorem placeSections_keeps (hunk : ∀ file sh st, Inv st → Inv (loadHunk file sh st).2) (file : Word)
    (n i : Nat) (sh : SectionTable) (inv : Inv st) : Inv (placeSections file n i sh st).2 := by
  induction n generalizing i sh st with
  | zero => exact inv
  | succ n ih =>
    unfold placeSections
    split
    · exact ih _ _ inv
    · split
      · exact ih _ _ (hunk file (sh i) st inv)
      · exact ih _ _ inv

/-- What a file places, its first loop places. -/
theorem loadElfFile_placed {name : List (BitVec 8)} {file : Word}
    (accepted : checkHeader (elfHeaderAt st.mem file) = true) :
    (loadElfFile name file st).2.placed =
      (placeSections file (elfHeaderAt st.mem file).shnum.toNat 0 (sectionTable st.mem file) st).2.placed := by
  unfold loadElfFile
  dsimp only
  rw [if_neg (by rw [accepted]; decide)]
  split <;> rfl

theorem loadElfFile_keeps (hunk : ∀ file sh st, Inv st → Inv (loadHunk file sh st).2)
    (other : ∀ st m modules, Inv st → Inv { st with mem := m, debugInfo := modules })
    (name : List (BitVec 8)) (file : Word) (inv : Inv st) : Inv (loadElfFile name file st).2 := by
  unfold loadElfFile
  dsimp only
  split
  · exact inv
  · have placed := placeSections_keeps hunk file (elfHeaderAt st.mem file).shnum.toNat 0
      (sectionTable st.mem file) inv
    split <;> exact other _ _ _ placed

theorem loadFiles_keeps (hunk : ∀ file sh st, Inv st → Inv (loadHunk file sh st).2)
    (other : ∀ st m modules, Inv st → Inv { st with mem := m, debugInfo := modules })
    (calls : List LoadCall) (inv : Inv st) : Inv (loadFiles st calls) := by
  induction calls generalizing st with
  | nil => exact inv
  | cons call calls ih => exact ih (loadElfFile_keeps hunk other call.name call.file (other _ _ _ inv))

end

private theorem loadFiles_follows (calls : List LoadCall) {st : Loader} (follows : Follows st) :
    Follows (loadFiles st calls) :=
  loadFiles_keeps (fun file sh _ follows => loadHunk_follows file sh follows)
    (fun _ _ _ follows => follows_of_same follows rfl rfl rfl) calls follows

theorem initial_follows (m : Mem) : Follows (Loader.initial m) := fun _ => ⟨rfl, rfl⟩

/-- A hunk lies on its side of the base, up to the pointer of that side. -/
def InBounds (st : Loader) (h : Hunk) : Prop :=
  if h.sh.writable then
    st.ptrRw.toNat ≤ h.addr.toNat ∧ h.addr.toNat + h.sh.size.toNat ≤ kernelPhysBase.toNat
  else kernelPhysBase.toNat ≤ h.addr.toNat ∧ h.addr.toNat + h.sh.size.toNat ≤ st.ptrRo.toNat

/-- Two hunks share no byte. -/
def Apart (h k : Hunk) : Prop :=
  h.addr.toNat + h.sh.size.toNat ≤ k.addr.toNat ∨ k.addr.toNat + k.sh.size.toNat ≤ h.addr.toNat

/-- From an older to a newer placement `ptr_rw` did not rise and `ptr_ro` did
not fall. -/
def Outward (newer older : Hunk) : Prop :=
  newer.ptrRw.toNat ≤ older.ptrRw.toNat ∧ older.ptrRo.toNat ≤ newer.ptrRo.toNat

private theorem requests_positive {st : Loader} (safe : NoWrap st) :
    ∀ r ∈ requests st, 0 < r.align := by
  intro r member
  simp only [requests, List.mem_reverse, List.mem_map] at member
  obtain ⟨h, inside, rfl⟩ := member
  exact power_positive (safe.powers h inside)

private theorem placement_of_hunk {st : Loader} (refines : Refines st) {h : Hunk}
    (member : h ∈ st.placed) : placementOf h ∈ base.placements (requests st) := by
  rw [refines.2, List.mem_reverse]
  exact List.mem_map_of_mem member

/-- All hunks ever placed, over any number of files: writable ones lie between
`ptr_rw` and the base, others between the base and `ptr_ro`, each at a multiple
of its alignment, no two overlap, and the pointers only move outwards. -/
theorem hunks_laid_out (m : Mem) (calls : List LoadCall)
    (safe : NoWrap (loadFiles (Loader.initial m) calls)) :
    let st := loadFiles (Loader.initial m) calls
    (∀ h ∈ st.placed, InBounds st h) ∧
      (∀ h ∈ st.placed, h.sh.addralign.toNat ∣ h.addr.toNat) ∧
      st.placed.Pairwise Apart ∧
      st.placed.Pairwise Outward ∧
      (∀ h ∈ st.placed, st.ptrRw.toNat ≤ h.ptrRw.toNat ∧ h.ptrRw.toNat ≤ kernelPhysBase.toNat ∧
        kernelPhysBase.toNat ≤ h.ptrRo.toNat ∧ h.ptrRo.toNat ≤ st.ptrRo.toNat) := by
  intro st
  have refines : Refines st := loadFiles_follows calls (initial_follows m) safe
  have positive := requests_positive safe
  refine ⟨?_, ?_, ?_, ?_, ?_⟩
  · intro h member
    have between := placements_between safe.fits positive _ (placement_of_hunk refines member)
    rw [refines.1] at between
    exact between
  · intro h member
    exact placements_aligned _ (placement_of_hunk refines member)
  · have disjoint := placements_disjoint safe.fits positive (Nat.le_refl _)
    rw [refines.2, List.pairwise_reverse, List.pairwise_map] at disjoint
    exact disjoint.imp fun apart => apart.symm
  · have outward := placements_outward safe.fits positive
    rw [refines.2, List.pairwise_reverse, List.pairwise_map] at outward
    exact outward
  · intro h member
    have nested := placements_nested safe.fits positive _ (placement_of_hunk refines member)
    rw [refines.1] at nested
    exact nested

/-- A file of 132 bytes with two sections, a writable one of eight bytes
aligned to four and a read-only one of five zero bytes aligned to sixteen. -/
def twoSections : List (BitVec 8) :=
  [0x7f, 0x45, 0x4c, 0x46, 1, 2, 1, 0, 0, 0, 0, 0, 0, 0, 0, 0,
   0, 1, 0, 20, 0, 0, 0, 1, 0, 0, 0, 0, 0, 0, 0, 0,
   0, 0, 0, 52, 0, 0, 0, 0, 0, 52, 0, 0, 0, 0, 0, 40, 0, 2, 0, 0] ++
  [0, 0, 0, 0, 0, 0, 0, 1, 0, 0, 0, 3, 0, 0, 0, 0, 0, 0, 0, 0,
   0, 0, 0, 8, 0, 0, 0, 0, 0, 0, 0, 0, 0, 0, 0, 4, 0, 0, 0, 0] ++
  [0, 0, 0, 0, 0, 0, 0, 8, 0, 0, 0, 2, 0, 0, 0, 0, 0, 0, 0, 0,
   0, 0, 0, 5, 0, 0, 0, 0, 0, 0, 0, 0, 0, 0, 0, 16, 0, 0, 0, 0]

/-- Memory with a file at `0x1000`. -/
def memoryWith (file : List (BitVec 8)) : Mem := fun a => file.getD (a - 0x1000).toNat 0

def twoLoads : List LoadCall :=
  [⟨[], 0x1000, memoryWith twoSections⟩, ⟨[], 0x1000, memoryWith twoSections⟩]

theorem twoLoads_safe :
    NoWrap (loadFiles (Loader.initial (memoryWith twoSections)) twoLoads) where
  powers := by
    have alignments : ∀ h ∈ (loadFiles (Loader.initial (memoryWith twoSections)) twoLoads).placed,
        h.sh.addralign = 4 ∨ h.sh.addralign = 16 := by decide
    intro h member
    rcases alignments h member with four | sixteen
    · exact ⟨2, by rw [four]; rfl⟩
    · exact ⟨4, by rw [sixteen]; rfl⟩
  fits := by decide

/-- The same file loaded twice puts its hunks further out on both sides. -/
theorem two_files_laid_out :
    let st := loadFiles (Loader.initial (memoryWith twoSections)) twoLoads
    st.placed.map Hunk.addr = [0x800010, 0x7fffe8, 0x800000, 0x7ffff4] ∧
      (∀ h ∈ st.placed, InBounds st h) ∧ st.placed.Pairwise Apart :=
  have laid := hunks_laid_out (memoryWith twoSections) twoLoads twoLoads_safe
  ⟨by decide, laid.1, laid.2.2.1⟩

end Parthenope.ElfLayout
