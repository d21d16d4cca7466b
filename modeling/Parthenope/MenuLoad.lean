import Parthenope.MenuCount

/-! Where a menu comes from: the device booted from, or a scan of the partitions
that marks the entries it finds with their partition after each one. -/
namespace Parthenope.Menu
open CString LinkedList StepLoop

/-- What is known of the devices. `loadFile` gives the result for a name and the
buffer after it; `table` is the partition table. -/
structure Devices (Device Partition : Type) where
  table : Nat → Option Partition
  ext2Create : Partition → Option Device
  sfsCreate : Partition → Option Device
  tftpCreate : Option Device
  cdromCreate : Option Device
  loadFile : Device → List Byte → Int × List Byte

def rdbLocationLimit : Nat := 16

namespace Devices
variable {Device Partition : Type} (s : Devices Device Partition)

/-- `RdbPartitionTable_get`; the disk does not matter. -/
def rdbPartitionTableGet (partition : Byte) : Option Partition :=
  if rdbLocationLimit ≤ partition.toNat then none else s.table partition.toNat

/-- The device of a partition, if one of the two file systems is on it. -/
def create (partition : Partition) : Option Device :=
  (s.ext2Create partition).or (s.sfsCreate partition)

/-- The first menu file that is not empty, with the parser for it. -/
def menuFile (dev : Device) : Option (Dialect × List Byte × Nat) :=
  let menu := s.loadFile dev (chars "menu.lst")
  if 0 < menu.1 then some (menuLst, menu.2, menu.1.toNat)
  else
    let menu := s.loadFile dev (chars "boot/menu.lst")
    if 0 < menu.1 then some (menuLst, menu.2, menu.1.toNat)
    else
      let layout := s.loadFile dev (chars "Kickstart/Kicklayout")
      if 0 < layout.1 then some (kicklayout, layout.2, layout.1.toNat) else none

/-- `dev_load`. -/
def devLoad (fuel : Nat) (scratch : Word × Word) (self : Addr) (dev : Device) (heap : Heap) :
    Option (Except Fault (Nat × Heap)) :=
  match s.menuFile dev with
  | none => some (.ok (0, heap))
  | some (d, buffer, length) =>
    (parse d buffer length heap self scratch fuel).map (·.map fun (n, p) => (n, p.heap))

end Devices

/-- The head of a menu: an entry of its own with the defaults. -/
def Heap.withHead (heap : Heap) : Heap :=
  { heap.set heap.fresh (some ⟨entryAlloc, 0, 5, none⟩) with fresh := heap.fresh + 1 }

/-- An entry without a device gets partition `i` of the first disk. -/
def mark (i : Nat) (entry : Entry) : Entry :=
  if entry.deviceType = .default then
    { entry with deviceType := .ide, deviceNum := 0, partition := BitVec.ofNat 32 i }
  else entry

/-- The loop over the list after partition `i`, the head included. -/
def sweep (i : Nat) : Nat → Addr → Heap → Except Fault Heap
  | 0, _, _ => .error .endlessMenu
  | fuel + 1, a, heap =>
    match heap.cells a with
    | none => .error .freedEntry
    | some node =>
      let heap := heap.set a (some { node with entry := mark i node.entry })
      match node.next with
      | none => .ok heap
      | some b => sweep i fuel b heap

namespace Devices
variable {Device Partition : Type} (s : Devices Device Partition)

/-- The loop of `magic_load`: it stops at the first absent partition and skips one
without a file system. -/
def magicLoop (fuel : Nat) (scratch : Word × Word) (self : Addr) :
    List Nat → Nat → Heap → Option (Except Fault (Nat × Heap))
  | [], n, heap => some (.ok (n, heap))
  | i :: rest, n, heap =>
    match s.rdbPartitionTableGet (BitVec.ofNat 8 i) with
    | none => some (.ok (n, heap))
    | some partition =>
      match s.create partition with
      | none => magicLoop fuel scratch self rest n heap
      | some dev =>
        match s.devLoad fuel scratch self dev heap with
        | none => none
        | some (.error fault) => some (.error fault)
        | some (.ok (k, heap)) =>
          match sweep i (heap.fresh + 1) self heap with
          | .error fault => some (.error fault)
          | .ok heap => magicLoop fuel scratch self rest (n + k) heap

def magicLoad (fuel : Nat) (scratch : Word × Word) (self : Addr) (heap : Heap) :
    Option (Except Fault (Nat × Heap)) :=
  s.magicLoop fuel scratch self (List.range rdbLocationLimit) 0 heap

/-- `menu_load`: the head, or nothing where the count is zero. -/
def menuLoad (boot : Option Device) (fuel : Nat) (scratch : Word × Word) (heap : Heap) :
    Option (Except Fault (Option Addr × Heap)) :=
  let self := heap.fresh
  let loaded := match boot with
    | some dev => s.devLoad fuel scratch self dev heap.withHead
    | none => s.magicLoad fuel scratch self heap.withHead
  loaded.map (·.map fun (n, heap) => (if n = 0 then none else some self, heap))

/-- The switch of `bootstrap` over the device of an entry. -/
def bootDevice (boot : Option Device) (entry : Entry) : Option Device :=
  match entry.deviceType with
  | .default => boot
  | .ide => (s.rdbPartitionTableGet (entry.partition.setWidth 8)).bind s.create
  | .tftp => s.tftpCreate
  | .cd => s.cdromCreate

end Devices

/-- A menu list with its entries in order. -/
structure Stored (heap : Heap) (menu : Addr) (appended : List Addr) (entries : List Entry) : Prop where
  lists : heap.Lists menu (menu :: appended)
  entries : appended.map (fun a => (heap.cells a).map Node.entry) = entries.map some

section
variable {heap heap' : Heap} {self a : Addr} {appended l : List Addr} {entries : List Entry}
  {i j n fuel : Nat}

@[simp] theorem mark_mark (entry : Entry) : mark i (mark j entry) = mark j entry := by
  have other : (mark j entry).deviceType ≠ .default := by
    unfold mark
    split
    · exact nofun
    · assumption
  exact if_neg other

theorem withHead_stored (unused : ∀ a, heap.fresh ≤ a → heap.cells a = none) :
    Stored heap.withHead heap.fresh [] [] := by
  refine ⟨⟨.last ?_, ?_⟩, rfl⟩
  · rw [Heap.link, Heap.withHead]
    dsimp only
    rw [Heap.set_same]
    rfl
  · intro a beyond
    have other : a ≠ heap.fresh := Nat.ne_of_gt beyond
    exact (Heap.set_other other).trans (unused a (Nat.le_of_succ_le beyond))

/-- The sweep marks the entries of the list and changes nothing else. -/
theorem sweep_marks (spells : Spells heap.link a l) (enough : l.length ≤ fuel) :
    ∃ heap', sweep i fuel a heap = .ok heap' ∧ heap'.fresh = heap.fresh ∧ heap'.link = heap.link ∧
      (∀ z ∈ l, (heap'.cells z).map Node.entry = ((heap.cells z).map Node.entry).map (mark i)) ∧
      ∀ z ∉ l, heap'.cells z = heap.cells z := by
  have same (heap : Heap) (a : Addr) (node : Node) (present : heap.cells a = some node) :
      (heap.set a (some { node with entry := mark i node.entry })).link = heap.link := by
    funext z
    by_cases here : z = a
    · subst here
      rw [Heap.link, Heap.link, Heap.set_same, present, Option.map_some, Option.map_some]
    · rw [Heap.link, Heap.link, Heap.set_other here]
  induction l generalizing heap a fuel with
  | nil => exact absurd spells.head_mem List.not_mem_nil
  | cons b rest ih =>
    obtain ⟨fuel, rfl⟩ : ∃ k, fuel = k + 1 := ⟨fuel - 1, by rw [List.length_cons] at enough; omega⟩
    have fresh := (List.nodup_cons.mp spells.nodup).1
    cases spells with
    | last ends =>
      obtain ⟨node, present, next⟩ := Option.map_eq_some_iff.mp ends
      let marked := heap.set b (some { node with entry := mark i node.entry })
      refine ⟨marked, ?_, rfl, same heap b node present, ?_, ?_⟩
      · simp only [sweep, present, next, marked]
      · intro z inside
        cases List.mem_singleton.mp inside
        rw [present]
        exact congrArg (Option.map Node.entry) Heap.set_same
      · intro z outside
        exact Heap.set_other (fun here => outside (List.mem_singleton.mpr here))
    | more linked tail =>
      obtain ⟨node, present, next⟩ := Option.map_eq_some_iff.mp linked
      have link := same heap b node present
      have tail' : Spells (heap.set b (some { node with entry := mark i node.entry })).link _ rest :=
        link ▸ tail
      obtain ⟨heap', swept, kept, links, marked, others⟩ :=
        ih tail' (Nat.le_of_succ_le_succ enough)
      refine ⟨heap', ?_, kept, links.trans link, ?_, ?_⟩
      · simp only [sweep, present, next]
        rw [next] at swept
        exact swept
      · intro z inside
        rcases List.mem_cons.mp inside with rfl | later
        · rw [others z fresh, Heap.set_same, present]
          rfl
        · have other : z ≠ b := by
            rintro rfl
            exact fresh later
          rw [marked z later, Heap.set_other other]
      · intro z outside
        have other : z ≠ b := fun here => outside (here ▸ List.mem_cons_self)
        rw [others z fun later => outside (List.mem_cons_of_mem _ later), Heap.set_other other]

theorem Stored.below (stored : Stored heap self appended entries) : ∀ a ∈ self :: appended, a < heap.fresh := by
  intro a inside
  by_contra beyond
  have gone := stored.lists.unused a (Nat.le_of_not_lt beyond)
  exact stored.lists.spelled.live a inside (by rw [Heap.link, gone, Option.map_none])

/-- A walk over the list needs no more turns than there are addresses in use. -/
theorem Stored.length_le (stored : Stored heap self appended entries) : appended.length < heap.fresh :=
  stored.lists.spelled.length_le stored.below

theorem Stored.sweep (stored : Stored heap self appended entries) :
    ∃ heap', sweep i (heap.fresh + 1) self heap = .ok heap' ∧
      Stored heap' self appended (entries.map (mark i)) := by
  have spelled := stored.lists.spelled
  have below := stored.below
  have enough := (spelled.length_le below).trans (Nat.le_succ heap.fresh)
  obtain ⟨heap', swept, fresh, link, marked, others⟩ := sweep_marks (i := i) spelled enough
  refine ⟨heap', swept, ⟨⟨link ▸ spelled, ?_⟩, ?_⟩⟩
  · intro a beyond
    rw [fresh] at beyond
    rw [others a fun inside => absurd (below a inside) (Nat.not_lt.mpr beyond)]
    exact stored.lists.unused a beyond
  · have entries := congrArg (List.map (Option.map (mark i))) stored.entries
    rw [List.map_map, List.map_map] at entries
    rw [List.map_map]
    refine Eq.trans (List.map_congr_left fun a inside => ?_) entries
    exact marked a (List.mem_cons_of_mem _ inside)

end

end Parthenope.Menu
