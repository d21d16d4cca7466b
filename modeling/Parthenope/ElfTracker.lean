import Parthenope.ElfLayout
import Parthenope.StepLoop

/-! The table of the hunks that have no contents in the file. `load_hunk` fills one slot
after the other over all files, and `testboot_aros`, like the kernel that is given the
table, reads slots until one has no address. -/
namespace Parthenope.ElfTracker
open Elf ElfLayout StepLoop

/-- `MAX_BSS_SECTIONS`. -/
def maxBssSections : Nat := 1024

/-- What `load_hunk` writes into a slot. -/
def trackerOf (h : Hunk) : BssTracker := ⟨h.addr + displacement, h.sh.size⟩

/-- The non-empty `SHT_NOBITS` hunks loaded so far, in load order. -/
def bssHunks (st : Loader) : List Hunk := st.placed.reverse.filter fun h => h.sh.type = shtNobits

/-- One turn of `while (bss->addr)`, with the slots visited before. -/
def bssTurn (tracker : Nat → BssTracker) : Nat × List BssTracker → List BssTracker ⊕ Nat × List BssTracker
  | (bss, visited) =>
    if (tracker bss).addr ≠ 0 then .inr (bss + 1, visited ++ [tracker bss]) else .inl visited

/-- The walk from `&tracker[0]` on. -/
def walkBss (tracker : Nat → BssTracker) (fuel : Nat) : Option (List BssTracker) :=
  run (bssTurn tracker) fuel (0, [])

/-- The slots up to the cursor are the hunks in load order, the others have never been
written. -/
structure Tracks (st : Loader) : Prop where
  cursor : st.bssTracker = (bssHunks st).length
  written : ∀ i h, (bssHunks st)[i]? = some h → st.tracker i = trackerOf h
  fresh : ∀ i, (bssHunks st).length ≤ i → st.tracker i = ⟨0, 0⟩

/-- The table tells the hunks: all of its slots and the one that ends it lie in the
array, and a walk visits the hunks and stops. -/
structure TellsHunks (st : Loader) : Prop where
  slots : ∀ i h, (bssHunks st)[i]? = some h → i < maxBssSections ∧ st.tracker i = trackerOf h
  ended : (bssHunks st).length < maxBssSections ∧ (st.tracker (bssHunks st).length).addr = 0
  visited : ∃ fuel, walkBss st.tracker fuel = some ((bssHunks st).map trackerOf)

section
variable {st st' : Loader} {h : Hunk} {tracker : Nat → BssTracker} {slots visited : List BssTracker} {k fuel : Nat}

private theorem bssHunks_cons (placed : st'.placed = h :: st.placed) :
    bssHunks st' = if h.sh.type = shtNobits then bssHunks st ++ [h] else bssHunks st := by
  unfold bssHunks
  rw [placed, List.reverse_cons, List.filter_append]
  by_cases nobits : h.sh.type = shtNobits
  · simp [nobits]
  · simp [nobits]

/-- A hunk with contents leaves the table alone. -/
theorem Tracks.contents (tracks : Tracks st) (placed : st'.placed = h :: st.placed)
    (contents : h.sh.type ≠ shtNobits) (table : st'.tracker = st.tracker)
    (cursor : st'.bssTracker = st.bssTracker) : Tracks st' := by
  have hunks : bssHunks st' = bssHunks st := (bssHunks_cons placed).trans (if_neg contents)
  constructor
  · rw [hunks, cursor]
    exact tracks.cursor
  · rw [hunks, table]
    exact tracks.written
  · rw [hunks, table]
    exact tracks.fresh

/-- A hunk without contents takes the next slot. -/
theorem Tracks.nobits (tracks : Tracks st) (placed : st'.placed = h :: st.placed)
    (nobits : h.sh.type = shtNobits)
    (table : st'.tracker = fun k => if k = st.bssTracker then trackerOf h else st.tracker k)
    (cursor : st'.bssTracker = st.bssTracker + 1) : Tracks st' := by
  have hunks : bssHunks st' = bssHunks st ++ [h] := (bssHunks_cons placed).trans (if_pos nobits)
  have length : (bssHunks st').length = (bssHunks st).length + 1 := by
    rw [hunks, List.length_append, List.length_singleton]
  rw [tracks.cursor] at table cursor
  constructor
  · rw [cursor, length]
  · intro i k inside
    rw [table]
    rcases Nat.lt_trichotomy i (bssHunks st).length with below | rfl | above
    · rw [hunks, List.getElem?_append_left below] at inside
      exact (if_neg (Nat.ne_of_lt below)).trans (tracks.written i k inside)
    · rw [hunks, List.getElem?_concat_length] at inside
      cases inside
      exact if_pos rfl
    · have outside : (bssHunks st').length ≤ i := by omega
      rw [List.getElem?_eq_none outside] at inside
      cases inside
  · intro i beyond
    rw [length] at beyond
    rw [table]
    exact (if_neg (by omega)).trans (tracks.fresh i (by omega))

private theorem loadHunk_tracks (file : Word) (sh : SHeader) (tracks : Tracks st) :
    Tracks (loadHunk file sh st).2 := by
  by_cases empty : sh.size = 0
  · rw [loadHunk_empty file st empty]
    exact tracks
  · rw [loadHunk_placed file st empty]
    by_cases nobits : sh.type = shtNobits
    · exact tracks.nobits (h := hunkOf sh st) rfl nobits (if_pos nobits) (if_pos nobits)
    · exact tracks.contents (h := hunkOf sh st) rfl nobits (if_neg nobits) (if_neg nobits)

/-- After any number of files the table is the hunks in load order. -/
theorem loadFiles_tracks (m : Mem) (calls : List LoadCall) : Tracks (loadFiles (Loader.initial m) calls) :=
  loadFiles_keeps (fun file sh _ tracks => loadHunk_tracks file sh tracks)
    (fun _ _ _ tracks => ⟨tracks.cursor, tracks.written, tracks.fresh⟩) calls
    ⟨rfl, fun _ _ inside => (by cases inside), fun _ _ => rfl⟩

/-- A walk over slots that all have an address, up to one that has none. -/
theorem run_slots (table : ∀ i slot, slots[i]? = some slot → tracker (k + i) = slot)
    (addressed : ∀ slot ∈ slots, slot.addr ≠ 0) (ended : (tracker (k + slots.length)).addr = 0) :
    run (bssTurn tracker) (slots.length + 1) (k, visited) = some (visited ++ slots) := by
  induction slots generalizing k visited with
  | nil =>
    rw [List.append_nil]
    exact run_ends (if_neg (not_not.mpr ended))
  | cons slot slots ih =>
    have first : tracker k = slot := table 0 slot rfl
    have turns : bssTurn tracker (k, visited) = .inr (k + 1, visited ++ [slot]) := by
      rw [bssTurn, first]
      exact if_pos (addressed slot List.mem_cons_self)
    have shift (i : Nat) : k + 1 + i = k + (i + 1) := by omega
    rw [List.length_cons, run_turns turns, ih, List.append_assoc, List.singleton_append]
    · intro i later inside
      rw [shift]
      exact table (i + 1) later inside
    · exact fun later inside => addressed later (List.mem_cons_of_mem _ inside)
    · rw [shift]
      exact ended

/-- What a walk visits has an address. -/
theorem walk_addressed (walked : walkBss tracker fuel = some slots) : ∀ slot ∈ slots, slot.addr ≠ 0 := by
  obtain ⟨⟨bss, visited⟩, reached, ends⟩ := run_exit walked
  have inv : ∀ slot ∈ visited, slot.addr ≠ 0 := by
    refine reached.invariant (fun s => ∀ slot ∈ s.2, slot.addr ≠ 0) ?_ fun _ inside => (by cases inside)
    rintro ⟨bss, visited⟩ t addressed turns
    by_cases address : (tracker bss).addr ≠ 0
    · rw [bssTurn, if_pos address] at turns
      cases turns
      intro slot inside
      rcases List.mem_append.mp inside with before | last
      · exact addressed slot before
      · rw [List.mem_singleton.mp last]
        exact address
    · rw [bssTurn, if_neg address] at turns
      cases turns
  by_cases address : (tracker bss).addr ≠ 0
  · rw [bssTurn, if_pos address] at ends
    cases ends
  · rw [bssTurn, if_neg address] at ends
    cases ends
    exact inv

/-- The table tells the hunks if and only if a slot is left behind them and none of them
lies at the virtual address 0. -/
theorem tracker_tells_iff (m : Mem) (calls : List LoadCall) :
    TellsHunks (loadFiles (Loader.initial m) calls) ↔
      (bssHunks (loadFiles (Loader.initial m) calls)).length < maxBssSections ∧
        ∀ h ∈ bssHunks (loadFiles (Loader.initial m) calls), h.addr + displacement ≠ 0 := by
  have tracks := loadFiles_tracks m calls
  generalize loadFiles (Loader.initial m) calls = st at tracks ⊢
  constructor
  · intro tells
    obtain ⟨fuel, walked⟩ := tells.visited
    refine ⟨tells.ended.1, fun h inside => ?_⟩
    exact walk_addressed walked (trackerOf h) (List.mem_map_of_mem inside)
  · rintro ⟨room, addressed⟩
    have ended : (st.tracker (bssHunks st).length).addr = 0 :=
      congrArg BssTracker.addr (tracks.fresh _ (Nat.le_refl _))
    refine ⟨fun i h inside => ?_, ⟨room, ended⟩, (bssHunks st).length + 1, ?_⟩
    · have below := (List.getElem?_eq_some_iff.mp inside).1
      exact ⟨Nat.lt_trans below room, tracks.written i h inside⟩
    · rw [walkBss, ← List.length_map trackerOf]
      refine run_slots (fun i slot inside => ?_) (fun slot inside => ?_) ?_
      · rw [List.getElem?_map, Option.map_eq_some_iff] at inside
        obtain ⟨h, inside, rfl⟩ := inside
        rw [Nat.zero_add]
        exact tracks.written i h inside
      · obtain ⟨h, placed, rfl⟩ := List.mem_map.mp inside
        exact addressed h placed
      · rw [Nat.zero_add, List.length_map]
        exact ended

end

/-- A file of 92 bytes with one section, of a single zero byte. -/
def oneBss : List (BitVec 8) :=
  [0x7f, 0x45, 0x4c, 0x46, 1, 2, 1, 0, 0, 0, 0, 0, 0, 0, 0, 0,
   0, 1, 0, 20, 0, 0, 0, 1, 0, 0, 0, 0, 0, 0, 0, 0,
   0, 0, 0, 52, 0, 0, 0, 0, 0, 52, 0, 0, 0, 0, 0, 40, 0, 1, 0, 0] ++
  [0, 0, 0, 0, 0, 0, 0, 8, 0, 0, 0, 2, 0, 0, 0, 0, 0, 0, 0, 0,
   0, 0, 0, 1, 0, 0, 0, 0, 0, 0, 0, 0, 0, 0, 0, 1, 0, 0, 0, 0]

def bssCall : LoadCall := ⟨[], 0x1000, memoryWith oneBss⟩

private theorem bssCall_placed (st : Loader) : ∃ h : Hunk, h.sh.type = shtNobits ∧
    (loadElfFile bssCall.name bssCall.file { st with mem := bssCall.mem }).2.placed = h :: st.placed := by
  have accepted : checkHeader (elfHeaderAt bssCall.mem bssCall.file) = true := by decide
  have count : (elfHeaderAt bssCall.mem bssCall.file).shnum.toNat = 1 := by decide
  have first : sectionTable bssCall.mem bssCall.file 0 = ⟨0, shtNobits, shfAlloc, 0, 0, 1, 0, 0, 1, 0⟩ := by
    decide
  refine ⟨hunkOf ⟨0, shtNobits, shfAlloc, 0, 0, 1, 0, 0, 1, 0⟩ { st with mem := bssCall.mem }, rfl, ?_⟩
  rw [loadElfFile_placed accepted, count, placeSections, first, if_neg (by decide), if_pos (by decide),
    loadHunk_placed _ _ (by decide)]
  rfl

private theorem bssCalls_length (n : Nat) (st : Loader) :
    (bssHunks (loadFiles st (List.replicate n bssCall))).length = (bssHunks st).length + n := by
  induction n generalizing st with
  | zero => rfl
  | succ n ih =>
    obtain ⟨h, nobits, placed⟩ := bssCall_placed st
    rw [List.replicate_succ, loadFiles, List.foldl_cons]
    refine (ih _).trans ?_
    rw [bssHunks_cons (h := h) placed, if_pos nobits, List.length_append, List.length_singleton]
    omega

/-- With 1024 such files no slot is left that ends the table. -/
theorem full_table_untold :
    ¬TellsHunks (loadFiles (Loader.initial fun _ => 0) (List.replicate maxBssSections bssCall)) := by
  intro tells
  have room := tells.ended.1
  rw [bssCalls_length] at room
  exact absurd room (Nat.not_lt.mpr (Nat.le_add_left _ _))

end Parthenope.ElfTracker
