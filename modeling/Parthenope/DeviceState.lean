import Parthenope.MenuVolumes

/-! Devices whose calls change a state, in `menu_load` and in what `bootstrap` does after it.
Where each call gives what devices without a state would, so does a session as a whole. -/
namespace Parthenope.Menu
open CString

/-- The types of a unit that `get_booting_device` tells apart. -/
inductive UnitType
  | harddisk
  | netboot
  | cdrom
  | unknown

/-- Devices with a state. `create` is the device of a partition, if it has one. -/
structure StateDevices (σ Device Partition : Type) where
  table : Nat → Option Partition
  create : Partition → σ → Option Device × σ
  tftpCreate : σ → Option Device × σ
  cdromCreate : σ → Option Device × σ
  loadFile : Device → List Byte → σ → (Int × List Byte) × σ

namespace StateDevices
variable {σ Device Partition : Type} (w : StateDevices σ Device Partition)

/-- The names that `dev_load` tries. -/
def menuFile (dev : Device) (s : σ) : Option (Dialect × List Byte × Nat) × σ :=
  match w.loadFile dev (chars "menu.lst") s with
  | (menu, s) =>
    if 0 < menu.1 then (some (menuLst, menu.2, menu.1.toNat), s)
    else
      match w.loadFile dev (chars "boot/menu.lst") s with
      | (menu, s) =>
        if 0 < menu.1 then (some (menuLst, menu.2, menu.1.toNat), s)
        else
          match w.loadFile dev (chars "Kickstart/Kicklayout") s with
          | (layout, s) => (if 0 < layout.1 then some (kicklayout, layout.2, layout.1.toNat) else none, s)

/-- `dev_load`. -/
def devLoad (fuel : Nat) (scratch : Word × Word) (self : Addr) (dev : Device) (heap : Heap) (s : σ) :
    Option (Except Fault (Nat × Heap)) × σ :=
  match w.menuFile dev s with
  | (none, s) => (some (.ok (0, heap)), s)
  | (some (d, buffer, length), s) =>
    ((parse d buffer length heap self scratch fuel).map (·.map fun (n, p) => (n, p.heap)), s)

/-- `RdbPartitionTable_get`; the disk does not matter. -/
def rdbPartitionTableGet (partition : Byte) : Option Partition :=
  if rdbLocationLimit ≤ partition.toNat then none else w.table partition.toNat

/-- The loop of `magic_load`. -/
def magicLoop (fuel : Nat) (scratch : Word × Word) (self : Addr) :
    List Nat → Nat → Heap → σ → Option (Except Fault (Nat × Heap)) × σ
  | [], n, heap, s => (some (.ok (n, heap)), s)
  | i :: rest, n, heap, s =>
    match w.rdbPartitionTableGet (BitVec.ofNat 8 i) with
    | none => (some (.ok (n, heap)), s)
    | some partition =>
      match w.create partition s with
      | (none, s) => magicLoop fuel scratch self rest n heap s
      | (some dev, s) =>
        match w.devLoad fuel scratch self dev heap s with
        | (none, s) => (none, s)
        | (some (.error fault), s) => (some (.error fault), s)
        | (some (.ok (k, heap)), s) =>
          match sweep i (heap.fresh + 1) self heap with
          | .error fault => (some (.error fault), s)
          | .ok heap => magicLoop fuel scratch self rest (n + k) heap s

/-- `menu_load`. -/
def menuLoad (boot : Option Device) (fuel : Nat) (scratch : Word × Word) (heap : Heap) (s : σ) :
    Option (Except Fault (Option Addr × Heap)) × σ :=
  let self := heap.fresh
  let loaded := match boot with
    | some dev => w.devLoad fuel scratch self dev heap.withHead s
    | none => w.magicLoop fuel scratch self (List.range rdbLocationLimit) 0 heap.withHead s
  (loaded.1.map (·.map fun (n, heap) => (if n = 0 then none else some self, heap)), loaded.2)

/-- `get_booting_device`. -/
def getBootingDevice (type : UnitType) (s : σ) : Option Device × σ :=
  match type with
  | .harddisk => (none, s)
  | .netboot => w.tftpCreate s
  | .cdrom => w.cdromCreate s
  | .unknown => (none, s)

/-- The switch of `bootstrap` over the device of an entry. -/
def bootDevice (boot : Option Device) (entry : Entry) (s : σ) : Option Device × σ :=
  match entry.deviceType with
  | .default => (boot, s)
  | .ide =>
    match w.rdbPartitionTableGet (entry.partition.setWidth 8) with
    | none => (none, s)
    | some partition => w.create partition s
  | .tftp => w.tftpCreate s
  | .cd => w.cdromCreate s

/-- The loads of files, in order. -/
def loads (dev : Device) : List (List Byte) → σ → List (Int × List Byte) × σ
  | [], s => ([], s)
  | filename :: rest, s =>
    match w.loadFile dev filename s with
    | (loaded, s) =>
      match loads dev rest s with
      | (others, s) => (loaded :: others, s)

/-- What `bootstrap` loads for an entry, where there is a device to load it from. -/
def bootLoads (boot : Option Device) (entry : Entry) (filenames : List (List Byte)) (s : σ) :
    Option (List (Int × List Byte)) × σ :=
  match w.bootDevice boot entry s with
  | (none, s) => (none, s)
  | (some dev, s) =>
    match w.loads dev filenames s with
    | (loaded, s) => (some loaded, s)

/-- From the unit booted from to the menu and what is loaded for the entry chosen in it. -/
def session (type : UnitType) (fuel : Nat) (scratch : Word × Word) (heap : Heap)
    (choose : Option (Except Fault (Option Addr × Heap)) → Entry × List (List Byte)) (s : σ) :
    (Option (Except Fault (Option Addr × Heap)) × Option (List (Int × List Byte))) × σ :=
  match w.getBootingDevice type s with
  | (boot, s) =>
    match w.menuLoad boot fuel scratch heap s with
    | (menu, s) =>
      match w.bootLoads boot (choose menu).1 (choose menu).2 s with
      | (loaded, s) => ((menu, loaded), s)

end StateDevices

namespace Devices
variable {Device Partition : Type} (s : Devices Device Partition)

/-- `get_booting_device`, where there is no state. -/
def getBootingDevice (type : UnitType) : Option Device :=
  match type with
  | .harddisk => none
  | .netboot => s.tftpCreate
  | .cdrom => s.cdromCreate
  | .unknown => none

/-- A session, where there is no state. -/
def session (type : UnitType) (fuel : Nat) (scratch : Word × Word) (heap : Heap)
    (choose : Option (Except Fault (Option Addr × Heap)) → Entry × List (List Byte)) :
    Option (Except Fault (Option Addr × Heap)) × Option (List (Int × List Byte)) :=
  let boot := s.getBootingDevice type
  let menu := s.menuLoad boot fuel scratch heap
  (menu, (s.bootDevice boot (choose menu).1).map fun dev => (choose menu).2.map (s.loadFile dev))

end Devices

/-- A device or none has come of a call as it should, and is ready. -/
def Comes {σ Concrete Abstract : Type} (Idle : σ → Prop) (Ready : Concrete → Abstract → σ → Prop)
    (made : Option Concrete × σ) (dev : Option Abstract) : Prop :=
  Idle made.2 ∧ Option.Rel (fun dev' dev => Ready dev' dev made.2) made.1 dev

/-- Each call gives what it would without the state. Of the two relations the one says when a
device may be created, the other when it may be used; a device is good for some paths. -/
structure Refines {σ Concrete Abstract Partition : Type} (w : StateDevices σ Concrete Partition)
    (s : Devices Abstract Partition) (Good : List Byte → Prop) (Idle : σ → Prop)
    (Ready : Concrete → Abstract → σ → Prop) : Prop where
  table : w.table = s.table
  menus : ∀ path ∈ menuPaths, Good path
  idle : ∀ dev' dev x, Ready dev' dev x → Idle x
  creates : ∀ i partition x, s.table i = some partition → Idle x →
    Comes Idle Ready (w.create partition x) (s.create partition)
  tftp : ∀ x, Idle x → Comes Idle Ready (w.tftpCreate x) s.tftpCreate
  cdrom : ∀ x, Idle x → Comes Idle Ready (w.cdromCreate x) s.cdromCreate
  loads : ∀ dev' dev path x, Ready dev' dev x → Good path →
    ∃ x', w.loadFile dev' path x = (s.loadFile dev path, x') ∧ Ready dev' dev x'

section
variable {σ Concrete Abstract Partition : Type} {w : StateDevices σ Concrete Partition} {s : Devices Abstract Partition}
  {Good : List Byte → Prop} {Idle : σ → Prop} {Ready : Concrete → Abstract → σ → Prop} {dev' : Concrete}
  {dev : Abstract}
  {boot' : Option Concrete} {boot : Option Abstract} {x : σ} {partition : Partition} {number : Byte}

private theorem menuFile_refines (refines : Refines w s Good Idle Ready) (ready : Ready dev' dev x) :
    ∃ x', w.menuFile dev' x = (s.menuFile dev, x') ∧ Ready dev' dev x' := by
  obtain ⟨s₁, first, ready⟩ := refines.loads _ _ (chars "menu.lst") _ ready (refines.menus _ (by decide))
  rw [StateDevices.menuFile, Devices.menuFile, first]
  by_cases found : 0 < (s.loadFile dev (chars "menu.lst")).1
  · simp only [found, if_true]
    exact ⟨s₁, rfl, ready⟩
  obtain ⟨s₂, second, ready⟩ := refines.loads _ _ (chars "boot/menu.lst") _ ready (refines.menus _ (by decide))
  by_cases found' : 0 < (s.loadFile dev (chars "boot/menu.lst")).1
  · simp only [found, if_false, second, found', if_true]
    exact ⟨s₂, rfl, ready⟩
  obtain ⟨s₃, third, ready⟩ := refines.loads _ _ (chars "Kickstart/Kicklayout") _ ready (refines.menus _ (by decide))
  simp only [found, if_false, second, found', third]
  exact ⟨s₃, rfl, ready⟩

private theorem devLoad_refines (refines : Refines w s Good Idle Ready) (ready : Ready dev' dev x) (fuel : Nat)
    (scratch : Word × Word) (self : Addr) (heap : Heap) :
    ∃ x', w.devLoad fuel scratch self dev' heap x = (s.devLoad fuel scratch self dev heap, x') ∧ Ready dev' dev x' := by
  obtain ⟨x', file, ready⟩ := menuFile_refines refines ready
  refine ⟨x', ?_, ready⟩
  rw [StateDevices.devLoad, Devices.devLoad, file]
  cases s.menuFile dev <;> rfl

private theorem tableGet_refines (refines : Refines w s Good Idle Ready) (number : Byte) :
    w.rdbPartitionTableGet number = s.rdbPartitionTableGet number := by
  rw [StateDevices.rdbPartitionTableGet, Devices.rdbPartitionTableGet, refines.table]

private theorem slot_known (known : s.rdbPartitionTableGet number = some partition) :
    ∃ i, s.table i = some partition := by
  unfold Devices.rdbPartitionTableGet at known
  split at known
  · cases known
  · exact ⟨_, known⟩

/-- The scan of the partitions finds what it would without the state. -/
theorem magicLoop_refines (refines : Refines w s Good Idle Ready) (idle : Idle x) (fuel : Nat) (scratch : Word × Word)
    (self : Addr) (l : List Nat) (n : Nat) (heap : Heap) :
    ∃ x', w.magicLoop fuel scratch self l n heap x = (s.magicLoop fuel scratch self l n heap, x') ∧ Idle x' := by
  induction l generalizing n heap x with
  | nil => exact ⟨x, rfl, idle⟩
  | cons i rest ih =>
    rw [StateDevices.magicLoop, Devices.magicLoop, tableGet_refines refines]
    cases known : s.rdbPartitionTableGet (BitVec.ofNat 8 i) with
    | none => exact ⟨x, rfl, idle⟩
    | some partition =>
      obtain ⟨j, here⟩ := slot_known known
      have comes := refines.creates j partition x here idle
      dsimp only
      generalize w.create partition x = made at comes ⊢
      obtain ⟨device, x₁⟩ := made
      obtain ⟨idle, same⟩ := comes
      generalize s.create partition = expected at same ⊢
      cases same with
      | none => exact ih idle n heap
      | @some dev' dev ready =>
        obtain ⟨x₂, loaded, ready⟩ := devLoad_refines refines ready fuel scratch self heap
        dsimp only
        rw [loaded]
        have idle := refines.idle _ _ _ ready
        cases s.devLoad fuel scratch self dev heap with
        | none => exact ⟨x₂, rfl, idle⟩
        | some result =>
          cases result with
          | error fault => exact ⟨x₂, rfl, idle⟩
          | ok found =>
            dsimp only
            cases sweep i (found.2.fresh + 1) self found.2 with
            | error fault => exact ⟨x₂, rfl, idle⟩
            | ok heap => exact ih idle (n + found.1) heap

theorem menuLoad_refines (refines : Refines w s Good Idle Ready) (comes : Comes Idle Ready (boot', x) boot) (fuel : Nat)
    (scratch : Word × Word) (heap : Heap) :
    ∃ x', w.menuLoad boot' fuel scratch heap x = (s.menuLoad boot fuel scratch heap, x') ∧
      Comes Idle Ready (boot', x') boot := by
  obtain ⟨idle, same⟩ := comes
  cases same with
  | none =>
    obtain ⟨x', loaded, idle⟩ :=
      magicLoop_refines refines idle fuel scratch heap.fresh (List.range rdbLocationLimit) 0 heap.withHead
    refine ⟨x', ?_, idle, .none⟩
    rw [StateDevices.menuLoad, Devices.menuLoad, loaded]
    rfl
  | some ready =>
    obtain ⟨x', loaded, ready⟩ := devLoad_refines refines ready fuel scratch heap.fresh heap.withHead
    refine ⟨x', ?_, refines.idle _ _ _ ready, .some ready⟩
    rw [StateDevices.menuLoad, Devices.menuLoad, loaded]

theorem bootingDevice_comes (refines : Refines w s Good Idle Ready) (idle : Idle x) (type : UnitType) :
    Comes Idle Ready (w.getBootingDevice type x) (s.getBootingDevice type) := by
  cases type with
  | harddisk => exact ⟨idle, .none⟩
  | netboot => exact refines.tftp x idle
  | cdrom => exact refines.cdrom x idle
  | unknown => exact ⟨idle, .none⟩

theorem bootDevice_comes (refines : Refines w s Good Idle Ready)
    (comes : Comes Idle Ready (boot', x) boot) (entry : Entry) :
    Comes Idle Ready (w.bootDevice boot' entry x) (s.bootDevice boot entry) := by
  rw [StateDevices.bootDevice, Devices.bootDevice]
  cases entry.deviceType with
  | default => exact comes
  | ide =>
    dsimp only
    rw [tableGet_refines refines]
    cases known : s.rdbPartitionTableGet (entry.partition.setWidth 8) with
    | none => exact ⟨comes.1, .none⟩
    | some partition =>
      obtain ⟨i, here⟩ := slot_known known
      exact refines.creates i partition x here comes.1
  | tftp => exact refines.tftp x comes.1
  | cd => exact refines.cdrom x comes.1

private theorem loads_refines (refines : Refines w s Good Idle Ready) (ready : Ready dev' dev x)
    {filenames : List (List Byte)}
    (good : ∀ path ∈ filenames, Good path) :
    ∃ x', w.loads dev' filenames x = (filenames.map (s.loadFile dev), x') ∧ Ready dev' dev x' := by
  induction filenames generalizing x with
  | nil => exact ⟨x, rfl, ready⟩
  | cons filename rest ih =>
    obtain ⟨x₁, first, ready⟩ := refines.loads _ _ filename _ ready (good _ List.mem_cons_self)
    obtain ⟨x₂, others, ready⟩ := ih ready fun path inside => good path (List.mem_cons_of_mem _ inside)
    refine ⟨x₂, ?_, ready⟩
    rw [StateDevices.loads, first]
    dsimp only
    rw [others, List.map_cons]

/-- What is loaded for an entry is what would be without the state. -/
theorem bootLoads_refines (refines : Refines w s Good Idle Ready)
    (comes : Comes Idle Ready (boot', x) boot) (entry : Entry)
    {filenames : List (List Byte)} (good : ∀ path ∈ filenames, Good path) :
    ∃ x', w.bootLoads boot' entry filenames x =
      ((s.bootDevice boot entry).map fun dev => filenames.map (s.loadFile dev), x') ∧ Idle x' := by
  have comes := bootDevice_comes refines comes entry
  rw [StateDevices.bootLoads]
  generalize w.bootDevice boot' entry x = made at comes ⊢
  obtain ⟨device, x₁⟩ := made
  obtain ⟨idle, same⟩ := comes
  generalize s.bootDevice boot entry = expected at same ⊢
  cases same with
  | none => exact ⟨x₁, rfl, idle⟩
  | some ready =>
    obtain ⟨x₂, loads, ready⟩ := loads_refines refines ready good
    dsimp only
    rw [loads]
    exact ⟨x₂, rfl, refines.idle _ _ _ ready⟩

/-- A session gives what it would without the state, whatever is chosen in the menu. -/
theorem session_refines (refines : Refines w s Good Idle Ready) (idle : Idle x) (type : UnitType) (fuel : Nat)
    (scratch : Word × Word) (heap : Heap)
    {choose : Option (Except Fault (Option Addr × Heap)) → Entry × List (List Byte)}
    (good : ∀ menu, ∀ path ∈ (choose menu).2, Good path) :
    ∃ x', w.session type fuel scratch heap choose x = (s.session type fuel scratch heap choose, x') ∧ Idle x' := by
  have comes := bootingDevice_comes refines idle type
  rw [StateDevices.session, Devices.session]
  generalize w.getBootingDevice type x = made at comes ⊢
  obtain ⟨boot', x₁⟩ := made
  obtain ⟨x₂, menu, comes⟩ := menuLoad_refines refines comes fuel scratch heap
  obtain ⟨x₃, loads, idle⟩ := bootLoads_refines refines comes _ (good _)
  dsimp only
  rw [menu]
  dsimp only
  rw [loads]
  exact ⟨x₃, rfl, idle⟩

end

end Parthenope.Menu
