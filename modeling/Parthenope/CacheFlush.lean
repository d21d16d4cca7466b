import Parthenope.ElfLayout
import Parthenope.StepLoop

/-! What the processor may fetch of the hunks. `testboot_aros` flushes the cache from
`ptr_rw` to `ptr_ro` and jumps; the loaded code must have been written back by then, and
its lines must not be in the instruction cache any more. -/
namespace Parthenope.CacheFlush
open Elf ElfLayout StepLoop TwoEndedBump

/-- What is done to the cache, up to the jump into the kernel. -/
inductive Operation
  | dcbst (ptr : Word)
  | icbi (ptr : Word)
  | sync
  | isync
  | jump (entry : Word)
  deriving DecidableEq

/-- One turn of either loop of `flush_cache`, with the operations done before. -/
def lineTurn (instruction : Word → Operation) (stop : Word) :
    Word × List Operation → List Operation ⊕ Word × List Operation
  | (ptr, done) => if ptr < stop then .inr (ptr + 32, done ++ [instruction ptr]) else .inl done

/-- `flush_cache`. -/
def flushCache (start stop : Word) (fuel : Nat) : Option (List Operation) :=
  let start := start &&& 0xffffffe0
  let stop := stop &&& 0xffffffe0
  match run (lineTurn .dcbst stop) fuel (start, []) with
  | none => none
  | some stored =>
    match run (lineTurn .icbi stop) fuel (start, stored ++ [.sync]) with
    | none => none
    | some flushed => some (flushed ++ [.sync, .isync])

/-- `testboot_aros` from the end of its loop over the modules on. -/
def startKernel (st : Loader) (fuel : Nat) : Option (List Operation) :=
  (flushCache st.ptrRw st.ptrRo fuel).map (· ++ [.jump kernelPhysBase])

/-- The number of the cache line an address lies in. -/
def lineOf (a : Word) : Nat := a.toNat / 32

/-- Both instructions have been issued for the line of an address. -/
def Flushed (done : List Operation) (a : Word) : Prop :=
  (∃ ptr, .dcbst ptr ∈ done ∧ lineOf ptr = lineOf a) ∧ ∃ ptr, .icbi ptr ∈ done ∧ lineOf ptr = lineOf a

/-- The kernel is entered when every byte of every hunk has been flushed. -/
def StartsFlushed (st : Loader) : Prop :=
  ∃ fuel done, startKernel st fuel = some (done ++ [.jump kernelPhysBase]) ∧
    ∀ h ∈ st.placed, ∀ i < h.sh.size.toNat, Flushed done (h.addr + BitVec.ofNat 32 i)

/-- Both pointers after the newest of the hunks. -/
def ends : List Hunk → Word × Word
  | [] => (kernelPhysBase, kernelPhysBase)
  | h :: _ => (h.ptrRw, h.ptrRo)

/-- Each hunk lies beyond the pointer of its side, and within the address space: nothing
has wrapped. -/
def Outwards : List Hunk → Prop
  | [] => True
  | h :: older =>
    (if h.sh.writable = true then h.addr.toNat + h.sh.size.toNat ≤ (ends older).1.toNat
      else (ends older).2.toNat ≤ h.addr.toNat ∧ h.addr.toNat + h.sh.size.toNat < addressSpace) ∧
    Outwards older

/-- Each hunk has moved the pointer of its side to its own outer end. -/
def Moves : List Hunk → Prop
  | [] => True
  | h :: older =>
    h.sh.size ≠ 0 ∧
    (if h.sh.writable = true then h.ptrRw = h.addr ∧ h.ptrRo = (ends older).2
      else h.ptrRo = h.addr + h.sh.size ∧ h.ptrRw = (ends older).1) ∧
    Moves older

/-- What the placements say of the pointers. -/
structure Recorded (st : Loader) : Prop where
  pointers : ends st.placed = (st.ptrRw, st.ptrRo)
  moves : Moves st.placed

/-- What every hunk keeps so that the layouts without a wrap go outwards. -/
structure Chained (st : Loader) : Prop where
  follows : Follows st
  recorded : Recorded st
  outwards : NoWrap st → Outwards st.placed

/-- The lines `flush_cache` goes through. -/
def lines (start stop : Word) : List Word :=
  (List.range (lineOf stop - lineOf start)).map fun k => (start &&& 0xffffffe0) + BitVec.ofNat 32 (32 * k)

/-- All that `flush_cache` does. -/
def operations (start stop : Word) : List Operation :=
  (lines start stop).map .dcbst ++ [.sync] ++ (lines start stop).map .icbi ++ [.sync, .isync]

section
variable {st : Loader} {hunks : List Hunk} {ptr start stop : Word} {done : List Operation}

private theorem ends_cons {h : Hunk} : ends (h :: hunks) = (h.ptrRw, h.ptrRo) := rfl

theorem loadHunk_recorded (file : Word) (sh : SHeader) (recorded : Recorded st) :
    Recorded (loadHunk file sh st).2 := by
  by_cases empty : sh.size = 0
  · rw [loadHunk_empty file st empty]
    exact recorded
  · rw [loadHunk_placed file st empty]
    refine ⟨rfl, empty, ?_, recorded.moves⟩
    rw [recorded.pointers]
    unfold hunkOf takeHunk
    dsimp only
    split
    · exact ⟨rfl, rfl⟩
    · exact ⟨rfl, rfl⟩

private theorem loadFiles_recorded (m : Mem) (calls : List LoadCall) :
    Recorded (loadFiles (Loader.initial m) calls) :=
  loadFiles_keeps (fun file sh _ recorded => loadHunk_recorded file sh recorded)
    (fun _ _ _ recorded => ⟨recorded.pointers, recorded.moves⟩) calls ⟨rfl, trivial⟩

private theorem stays_inside {h : Hunk} (stays : h.addr.toNat + h.sh.size.toNat < addressSpace) :
    (h.addr + h.sh.size).toNat = h.addr.toNat + h.sh.size.toNat := by
  rw [BitVec.toNat_add]
  exact Nat.mod_eq_of_lt stays

/-- The layouts of the allocator go outwards. -/
theorem loadHunk_outwards (file : Word) (sh : SHeader) (chained : Chained st)
    (safe : NoWrap (loadHunk file sh st).2) : Outwards (loadHunk file sh st).2.placed := by
  by_cases empty : sh.size = 0
  · rw [loadHunk_empty file st empty] at safe ⊢
    exact chained.outwards safe
  · rw [loadHunk_placed file st empty] at safe ⊢
    obtain ⟨before, power, fits⟩ := noWrap_tail (h := hunkOf sh st) safe rfl
    obtain ⟨arena, -⟩ := chained.follows before
    rw [arena] at fits
    have beside := place_beside fits (power_positive power)
    have inside := fits
    rw [(takeHunk_exact power fits).1] at beside
    refine ⟨?_, chained.outwards before⟩
    rw [chained.recorded.pointers]
    by_cases writable : sh.writable = true
    · exact (if_pos (c := (hunkOf sh st).sh.writable = true) writable).mpr (beside.1 writable)
    · rw [if_neg (c := (hunkOf sh st).sh.writable = true) writable]
      refine ⟨beside.2 (Bool.eq_false_iff.mpr writable), ?_⟩
      rw [Arena.Fits, if_neg (c := (requestOf (hunkOf sh st).sh).below = true) writable,
        (takeHunk_exact power fits).1] at inside
      exact inside

private theorem loadFiles_outwards (m : Mem) (calls : List LoadCall)
    (safe : NoWrap (loadFiles (Loader.initial m) calls)) :
    Outwards (loadFiles (Loader.initial m) calls).placed := by
  have chained : Chained (loadFiles (Loader.initial m) calls) :=
    loadFiles_keeps
      (fun file sh _ chained => ⟨loadHunk_follows file sh chained.follows,
        loadHunk_recorded file sh chained.recorded, loadHunk_outwards file sh chained⟩)
      (fun _ _ _ chained => ⟨follows_of_same chained.follows rfl rfl rfl,
        ⟨chained.recorded.pointers, chained.recorded.moves⟩,
        fun safe => chained.outwards ⟨safe.powers, safe.fits⟩⟩)
      calls ⟨initial_follows m, ⟨rfl, trivial⟩, fun _ => trivial⟩
  exact chained.outwards safe

/-- Hunks placed outwards lie between the two pointers. -/
theorem placed_between (moves : Moves hunks) (outwards : Outwards hunks) :
    (ends hunks).1.toNat ≤ kernelPhysBase.toNat ∧ kernelPhysBase.toNat ≤ (ends hunks).2.toNat ∧
      ∀ h ∈ hunks, (ends hunks).1.toNat ≤ h.addr.toNat ∧
        h.addr.toNat + h.sh.size.toNat ≤ (ends hunks).2.toNat := by
  induction hunks with
  | nil => exact ⟨Nat.le_refl _, Nat.le_refl _, nofun⟩
  | cons h older ih =>
    obtain ⟨-, side, moves⟩ := moves
    obtain ⟨beyond, outwards⟩ := outwards
    obtain ⟨low, high, between⟩ := ih moves outwards
    have widened : (ends (h :: older)).1.toNat ≤ (ends older).1.toNat ∧
        (ends older).2.toNat ≤ (ends (h :: older)).2.toNat ∧
        (ends (h :: older)).1.toNat ≤ h.addr.toNat ∧
        h.addr.toNat + h.sh.size.toNat ≤ (ends (h :: older)).2.toNat := by
      rw [ends_cons]
      by_cases writable : h.sh.writable = true
      · rw [if_pos writable] at side beyond
        rw [side.1, side.2]
        dsimp only
        omega
      · rw [if_neg writable] at side beyond
        rw [side.1, side.2]
        dsimp only
        rw [stays_inside beyond.2]
        omega
    refine ⟨by omega, by omega, fun k inside => ?_⟩
    rcases List.mem_cons.mp inside with rfl | inside
    · exact ⟨widened.2.2.1, widened.2.2.2⟩
    · have before := between k inside
      omega

/-- `ptr_ro` is the base or the end of a hunk. -/
theorem high_end (moves : Moves hunks) (outwards : Outwards hunks) :
    (ends hunks).2 = kernelPhysBase ∨
      ∃ h ∈ hunks, h.sh.size ≠ 0 ∧ h.addr.toNat + h.sh.size.toNat = (ends hunks).2.toNat := by
  induction hunks with
  | nil => exact .inl rfl
  | cons h older ih =>
    obtain ⟨nonempty, side, moves⟩ := moves
    obtain ⟨beyond, outwards⟩ := outwards
    by_cases writable : h.sh.writable = true
    · rw [if_pos writable] at side
      rw [ends_cons, side.2]
      rcases ih moves outwards with base | ⟨k, inside, rest⟩
      · exact .inl base
      · exact .inr ⟨k, List.mem_cons_of_mem _ inside, rest⟩
    · rw [if_neg writable] at side beyond
      refine .inr ⟨h, List.mem_cons_self, nonempty, ?_⟩
      rw [ends_cons, side.1, stays_inside beyond.2]

private theorem mask_toNat (x : Word) : (x &&& 0xffffffe0).toNat = 32 * lineOf x := by
  have mask : (0xffffffe0 : Word) = ~~~(32 - 1) := by decide
  rw [mask, mask_rounds_down ⟨5, rfl⟩]
  exact Nat.mul_comm _ _

/-- A loop from one line to another does its instruction for each line in between. -/
theorem run_lines (instruction : Word → Operation) {a b n : Nat} (start : ptr.toNat = 32 * a)
    (last : stop.toNat = 32 * b) (count : n = b - a) :
    run (lineTurn instruction stop) (n + 1) (ptr, done) =
      some (done ++ (List.range n).map fun k => instruction (ptr + BitVec.ofNat 32 (32 * k))) := by
  induction n generalizing ptr a done with
  | zero =>
    rw [List.range_zero, List.map_nil, List.append_nil]
    have reached : ¬ptr < stop := by
      rw [BitVec.lt_def]
      omega
    exact run_ends (if_neg reached)
  | succ n ih =>
    have below : ptr < stop := by
      rw [BitVec.lt_def]
      omega
    have bound := stop.isLt
    have next : (ptr + 32).toNat = 32 * (a + 1) := by
      rw [BitVec.toNat_add, start, show (32 : Word).toNat = 32 from rfl, Nat.mod_eq_of_lt (by omega)]
      omega
    have shift (k : Nat) : ptr + 32 + BitVec.ofNat 32 (32 * k) = ptr + BitVec.ofNat 32 (32 * (k + 1)) := by
      rw [Nat.mul_succ, Nat.add_comm, BitVec.ofNat_add, ← BitVec.add_assoc]
      rfl
    have turns : lineTurn instruction stop (ptr, done) = .inr (ptr + 32, done ++ [instruction ptr]) :=
      if_pos below
    rw [run_turns turns, ih next (by omega), List.range_succ_eq_map, List.map_cons, List.map_map,
      List.append_assoc]
    simp only [shift, Function.comp_def, List.singleton_append]
    rw [show ptr + BitVec.ofNat 32 (32 * 0) = ptr from BitVec.add_zero ptr]

private theorem run_flush (instruction : Word → Operation) (start stop : Word) (done : List Operation) :
    run (lineTurn instruction (stop &&& 0xffffffe0)) (lineOf stop - lineOf start + 1)
      (start &&& 0xffffffe0, done) = some (done ++ (lines start stop).map instruction) := by
  rw [run_lines instruction (mask_toNat start) (mask_toNat stop) rfl, lines, List.map_map]
  rfl

private theorem flushCache_ends (start stop : Word) :
    flushCache start stop (lineOf stop - lineOf start + 1) = some (operations start stop) := by
  simp only [flushCache, run_flush, operations, List.nil_append]

private theorem flushCache_eq {fuel : Nat} (flushed : flushCache start stop fuel = some done) :
    done = operations start stop := by
  simp only [flushCache] at flushed
  cases stored : run (lineTurn .dcbst (stop &&& 0xffffffe0)) fuel (start &&& 0xffffffe0, []) with
  | none =>
    rw [stored] at flushed
    cases flushed
  | some first =>
    rw [stored] at flushed
    cases run_unique stored (run_flush .dcbst start stop [])
    dsimp only at flushed
    cases emptied : run (lineTurn .icbi (stop &&& 0xffffffe0)) fuel
        (start &&& 0xffffffe0, [] ++ (lines start stop).map .dcbst ++ [.sync]) with
    | none =>
      rw [emptied] at flushed
      cases flushed
    | some second =>
      rw [emptied] at flushed
      cases run_unique emptied (run_flush .icbi start stop _)
      cases flushed
      rfl

private theorem line_number {k : Nat} (inside : k < lineOf stop - lineOf start) :
    lineOf ((start &&& 0xffffffe0) + BitVec.ofNat 32 (32 * k)) = lineOf start + k := by
  have bound := stop.isLt
  unfold lineOf at inside ⊢
  rw [BitVec.toNat_add, mask_toNat, BitVec.toNat_ofNat, lineOf, Nat.mod_eq_of_lt (a := 32 * k) (by omega),
    Nat.mod_eq_of_lt (by omega)]
  omega

/-- A line is flushed if and only if it lies between those of the two ends, that of the
upper end left out. -/
theorem flushed_iff {a : Word} :
    Flushed (operations start stop) a ↔ lineOf start ≤ lineOf a ∧ lineOf a < lineOf stop := by
  have stored (ptr : Word) : .dcbst ptr ∈ operations start stop ↔ ptr ∈ lines start stop := by
    simp [operations]
  have emptied (ptr : Word) : .icbi ptr ∈ operations start stop ↔ ptr ∈ lines start stop := by
    simp [operations]
  have line : (∃ ptr ∈ lines start stop, lineOf ptr = lineOf a) ↔
      lineOf start ≤ lineOf a ∧ lineOf a < lineOf stop := by
    constructor
    · rintro ⟨ptr, inside, same⟩
      obtain ⟨k, below, rfl⟩ := List.mem_map.mp inside
      rw [line_number (List.mem_range.mp below)] at same
      have := List.mem_range.mp below
      omega
    · rintro ⟨above, below⟩
      have inside : lineOf a - lineOf start < lineOf stop - lineOf start := by omega
      refine ⟨_, List.mem_map_of_mem (List.mem_range.mpr inside), ?_⟩
      rw [line_number inside]
      omega
  simp only [Flushed, stored, emptied, line, and_self]

/-- The kernel is started with all hunks flushed if and only if no byte of one lies in
the line in which `ptr_ro` does. -/
theorem startsFlushed_lines : StartsFlushed st ↔
    ∀ h ∈ st.placed, ∀ i < h.sh.size.toNat, lineOf st.ptrRw ≤ lineOf (h.addr + BitVec.ofNat 32 i) ∧
      lineOf (h.addr + BitVec.ofNat 32 i) < lineOf st.ptrRo := by
  constructor
  · rintro ⟨fuel, done, started, flushed⟩ h placed i inside
    obtain ⟨all, ended, same⟩ := Option.map_eq_some_iff.mp started
    cases List.append_cancel_right same
    rw [flushCache_eq ended] at flushed
    exact flushed_iff.mp (flushed h placed i inside)
  · intro between
    refine ⟨lineOf st.ptrRo - lineOf st.ptrRw + 1, operations st.ptrRw st.ptrRo, ?_, fun h placed i inside => ?_⟩
    · rw [startKernel, flushCache_ends]
      rfl
    · exact flushed_iff.mpr (between h placed i inside)

/-- The kernel is started with all hunks flushed if and only if the last line of the
read-only hunks is full. -/
theorem starts_flushed_iff (m : Mem) (calls : List LoadCall)
    (outwards : Outwards (loadFiles (Loader.initial m) calls).placed) :
    StartsFlushed (loadFiles (Loader.initial m) calls) ↔
      32 ∣ (loadFiles (Loader.initial m) calls).ptrRo.toNat := by
  have recorded := loadFiles_recorded m calls
  generalize loadFiles (Loader.initial m) calls = st at outwards recorded ⊢
  have between := (placed_between recorded.moves outwards).2.2
  have top := high_end recorded.moves outwards
  rw [recorded.pointers] at between top
  have byte {h : Hunk} {i : Nat} (placed : h ∈ st.placed) (inside : i < h.sh.size.toNat) :
      (h.addr + BitVec.ofNat 32 i).toNat = h.addr.toNat + i := by
    have high := (between h placed).2
    have bound := st.ptrRo.isLt
    rw [BitVec.toNat_add, BitVec.toNat_ofNat, Nat.mod_eq_of_lt (by omega), Nat.mod_eq_of_lt (by omega)]
  rw [startsFlushed_lines]
  constructor
  · intro flushed
    rcases top with base | ⟨h, placed, nonempty, last⟩
    · rw [show st.ptrRo = kernelPhysBase from base]
      decide
    · -- the last byte below the pointer is in a line before that of the pointer
      have positive : 0 < h.sh.size.toNat := by
        rw [Nat.pos_iff_ne_zero]
        exact fun zero => nonempty (BitVec.eq_of_toNat_eq zero)
      obtain ⟨-, below⟩ := flushed h placed (h.sh.size.toNat - 1) (by omega)
      rw [lineOf, byte placed (by omega), lineOf] at below
      dsimp only at last
      omega
  · rintro ⟨k, multiple⟩ h placed i inside
    obtain ⟨low, high⟩ := between h placed
    rw [lineOf, lineOf, byte placed inside, lineOf, multiple]
    dsimp only at low high
    omega

end

theorem two_files_flushed_iff :
    StartsFlushed (loadFiles (Loader.initial (memoryWith twoSections)) twoLoads) ↔
      32 ∣ (loadFiles (Loader.initial (memoryWith twoSections)) twoLoads).ptrRo.toNat :=
  starts_flushed_iff _ _ (loadFiles_outwards _ _ twoLoads_safe)

/-- The second file's read-only hunk lies in the line from `0x800000` on, which is not
flushed, as `ptr_ro` is `0x800015`. -/
theorem last_line_unflushed :
    ¬StartsFlushed (loadFiles (Loader.initial (memoryWith twoSections)) twoLoads) := by
  intro started
  exact absurd (startsFlushed_lines.mp started) (by decide)

end Parthenope.CacheFlush
