import Parthenope.CacheFlush
import Parthenope.ElfEntries

/-! What the first loop of `load_elf_file` leaves in memory: the content of each section
where it was placed, and the rest as it was. -/
namespace Parthenope.ElfSections
open ByteMemory CacheFlush Elf ElfAlignment ElfEntries ElfLayout TwoEndedBump

/-- An address between the two pointers. -/
def Taken (st : Loader) (x : Word) : Prop := st.ptrRw.toNat ≤ x.toNat ∧ x.toNat < st.ptrRo.toNat

/-- An address of a section. -/
def InSection (h : SHeader) (x : Word) : Prop := Within h.addr h.size.toNat x

instance (h : SHeader) (x : Word) : Decidable (InSection h x) := inferInstanceAs (Decidable (Within ..))

/-- What a section is loaded with. -/
def rawContent (file : Word) (h : SHeader) (source : Mem) : Mem :=
  fun x => if h.type = shtNobits then 0 else source (file + h.offset + (x - h.addr))

/-- The table of a file after the first loop. -/
def placedTable (file : Word) (sh : SectionTable) (shnum : Nat) (st : Loader) : SectionTable :=
  (placeSections file shnum 0 sh st).1

/-- A file of `len` bytes that holds the contents of its sections, and lies apart from
where they are placed. -/
structure Readable (file : Word) (len : Nat) (sh : SectionTable) (shnum : Nat) (st : Loader) : Prop where
  here : 0 < file.toNat ∧ file.toNat + len ≤ addressSpace
  contents : ∀ i < shnum, Loads (sh i) → (sh i).type ≠ shtNobits →
    (sh i).offset.toNat + (sh i).size.toNat ≤ len
  apart : file.toNat + len ≤ (before file sh st shnum).ptrRw.toNat ∨
    (before file sh st shnum).ptrRo.toNat ≤ file.toNat

section
variable {file x : Word} {sh : SectionTable} {st : Loader} {h : SHeader} {len shnum i j k n : Nat}

/-- A range that does not wrap. -/
theorem within_iff {a : Word} (stays : a.toNat + n ≤ addressSpace) :
    Within a n x ↔ a.toNat ≤ x.toNat ∧ x.toNat < a.toNat + n := by
  unfold addressSpace at stays
  unfold Within
  have bounds := x.isLt
  rw [BitVec.toNat_sub]
  omega

theorem noWrap_older {st' : Loader} {newer : List Hunk} (safe : NoWrap st')
    (placed : st'.placed = newer ++ st.placed) : NoWrap st := by
  refine ⟨fun h member => safe.powers h (placed ▸ List.mem_append_right _ member), ?_⟩
  have fits := safe.fits
  have split : requests st' = requests st ++ (newer.map fun h => requestOf h.sh).reverse := by
    rw [requests, requests, placed, List.map_append, List.reverse_append]
  rw [split, fitsAll_append] at fits
  exact fits.1

theorem loadHunk_chained (file : Word) (h : SHeader) (chained : Chained st) : Chained (loadHunk file h st).2 :=
  ⟨loadHunk_follows file h chained.follows, loadHunk_recorded file h chained.recorded,
    loadHunk_outwards file h chained⟩

/-- A hunk is taken beside what had been handed out before. -/
theorem hunk_taken (chained : Chained st) (safe : NoWrap (loadHunk file h st).2) (nonempty : h.size ≠ 0) :
    (∀ x, Taken st x → Taken (loadHunk file h st).2 x) ∧
      ∀ x, Within (hunkOf h st).addr h.size.toNat x → Taken (loadHunk file h st).2 x ∧ ¬Taken st x := by
  have later := loadHunk_chained file h chained
  have outwards := later.outwards safe
  have moves := later.recorded.moves
  have placed : (loadHunk file h st).2.placed = [hunkOf h st] ++ st.placed := by
    rw [loadHunk_placed file st nonempty]
    rfl
  have inner := placed_between chained.recorded.moves (chained.outwards (noWrap_older safe placed))
  rw [loadHunk_placed file st nonempty] at outwards moves ⊢
  obtain ⟨beside, -⟩ := outwards
  obtain ⟨-, side, -⟩ := moves
  rw [chained.recorded.pointers] at beside side inner
  dsimp only [Taken] at beside side inner ⊢
  change (if h.writable = true then _ else _) at beside
  change (if h.writable = true then _ else _) at side
  have size : (hunkOf h st).sh.size = h.size := rfl
  rw [size] at beside side
  by_cases writable : h.writable = true
  · rw [if_pos writable] at beside side
    rw [side.1, side.2]
    have bound := st.ptrRw.isLt
    refine ⟨fun x taken => by omega, fun x inside => ?_⟩
    rw [within_iff (by unfold addressSpace; omega)] at inside
    omega
  · rw [if_neg writable] at beside side
    have stays : ((hunkOf h st).addr + h.size).toNat = (hunkOf h st).addr.toNat + h.size.toNat :=
      (BitVec.toNat_add ..).trans (Nat.mod_eq_of_lt beside.2)
    rw [side.1, side.2, stays]
    refine ⟨fun x taken => by omega, fun x inside => ?_⟩
    rw [within_iff (by omega)] at inside
    omega

theorem before_turn (i : Nat) : before file sh st (i + 1) =
    if Loads (sh i) then (loadHunk file (sh i) (before file sh st i)).2 else before file sh st i := by
  rw [before, placeSections_last, placeSection_loader, placeSections_ahead (Nat.le_refl i), ← before]
  by_cases loads : Loads (sh i)
  · rw [if_pos loads, if_neg (not_or.mpr ⟨loads.1, loads.2.1⟩), if_pos loads.2.2.1]
  · rw [if_neg loads]
    split_ifs with table allocated
    · rfl
    · have empty : (sh i).size = 0 := by
        by_contra nonempty
        exact loads ⟨fun type => table (.inl type), fun type => table (.inr type), allocated, nonempty⟩
      rw [loadHunk_empty file _ empty]
    · rfl

private theorem before_chained (chained : Chained st) (n : Nat) : Chained (before file sh st n) :=
  placeSections_keeps (fun file h _ chained => loadHunk_chained file h chained) file n 0 sh chained

theorem before_safe (safe : NoWrap (before file sh st n)) (least : i ≤ n) : NoWrap (before file sh st i) := by
  obtain ⟨k, rfl⟩ := Nat.exists_eq_add_of_le least
  rw [before, placeSections_add] at safe
  obtain ⟨newer, placed⟩ := placeSections_placed file k (0 + i) (placeSections file i 0 sh st).1
    (before file sh st i)
  exact noWrap_older safe placed

theorem setAddr_header (a : Word) : sh.setAddr i a j = { sh j with addr := (sh.setAddr i a j).addr } := by
  unfold SectionTable.setAddr
  split
  · rename_i here
    rw [here]
  · rfl

/-- The header of a section stays as it is but for its address. -/
theorem placed_header (i : Nat) : placedTable file sh n st i =
    { sh i with addr := (placedTable file sh n st i).addr } := by
  induction n with
  | zero => rfl
  | succ n ih =>
    have turn (s : SectionTable × Loader) : (placeSection file n s).1 i =
        { s.1 i with addr := ((placeSection file n s).1 i).addr } := by
      unfold placeSection
      split_ifs
      · exact setAddr_header _
      · exact setAddr_header _
      · rfl
    rw [placedTable, placeSections_last, turn]
    dsimp only
    rw [← placedTable, ih]

/-- A section gets its address when the loop comes to it. -/
theorem placed_at (below : i < n) : placedTable file sh n st i =
    (placeSection file i (placeSections file i 0 sh st)).1 i := by
  obtain ⟨k, rfl⟩ := Nat.exists_eq_add_of_lt below
  induction k with
  | zero => rw [placedTable, Nat.add_zero, placeSections_last]
  | succ k ih =>
    rw [← ih (by omega), placedTable, show i + (k + 1) + 1 = (i + k + 1) + 1 by omega, placeSections_last,
      placeSection_other (by omega)]
    rfl

theorem placed_loads (below : i < n) (loads : Loads (sh i)) :
    (placedTable file sh n st i).addr = (hunkOf (sh i) (before file sh st i)).addr := by
  rw [placed_at below, placeSection, placeSections_ahead (Nat.le_refl i),
    if_neg (not_or.mpr ⟨loads.1, loads.2.1⟩), if_pos loads.2.2.1, loadHunk_placed _ _ loads.2.2.2]
  exact congrArg SHeader.addr (if_pos rfl)

/-- The section that is loaded where it was placed. -/
theorem inSection_iff (below : i < n) (loads : Loads (sh i)) : InSection (placedTable file sh n st i) x ↔
    Within (hunkOf (sh i) (before file sh st i)).addr (sh i).size.toNat x := by
  rw [InSection, placed_loads below loads, placed_header i]

theorem taken_before (chained : Chained st) (safe : NoWrap (before file sh st n)) (least : i ≤ n)
    (taken : Taken (before file sh st i) x) : Taken (before file sh st n) x := by
  induction n, least using Nat.le_induction with
  | base => exact taken
  | succ n least ih =>
    have earlier := ih (before_safe safe (Nat.le_succ n))
    rw [before_turn] at safe ⊢
    split at safe
    · rename_i loads
      rw [if_pos loads]
      exact (hunk_taken (before_chained chained n) safe loads.2.2.2).1 x earlier
    · rename_i other
      rw [if_neg other]
      exact earlier

/-- A section is placed where nothing had been taken. -/
theorem section_taken (chained : Chained st) (safe : NoWrap (before file sh st n)) (below : i < n)
    (loads : Loads (sh i)) (inside : InSection (placedTable file sh n st i) x) :
    Taken (before file sh st (i + 1)) x ∧ ¬Taken (before file sh st i) x := by
  have here := before_safe safe (Nat.succ_le_of_lt below)
  rw [before_turn, if_pos loads] at here ⊢
  exact (hunk_taken (before_chained chained i) here loads.2.2.2).2 x ((inSection_iff below loads).mp inside)

/-- No two sections have a byte in common. -/
theorem sections_apart (chained : Chained st) (safe : NoWrap (before file sh st n)) (below : i < n) (below' : j < n)
    (loads : Loads (sh i)) (loads' : Loads (sh j)) (inside : InSection (placedTable file sh n st i) x)
    (inside' : InSection (placedTable file sh n st j) x) : i = j := by
  obtain ⟨taken, untaken⟩ := section_taken chained safe below loads inside
  obtain ⟨taken', untaken'⟩ := section_taken chained safe below' loads' inside'
  rcases Nat.lt_trichotomy i j with less | same | more
  · exact absurd (taken_before chained (before_safe safe (Nat.le_of_lt below')) less taken) untaken'
  · exact same
  · exact absurd (taken_before chained (before_safe safe (Nat.le_of_lt below)) more taken') untaken

end

end Parthenope.ElfSections
