import Parthenope.DeviceState
import Parthenope.PartitionTable

/-! The devices over the ext2 driver of the firmware, which works on one partition at a time. It
is set to a partition where a device is created; the device keeps only how long that is and
mounts it before each load. That its files come from its own partition is because the menu is
loaded from one device after the other, and the entry chosen has its device created again. -/
namespace Parthenope.Ext2
open CString Menu
open PartitionTable (RdbPartition)

/-- The calls of the driver, which keep a state of their own. -/
structure Ext2fs (σ : Type) where
  setBlkDevFull : RdbPartition → σ → Word × σ
  mount : Word → σ → Word × σ
  openFile : List Byte → σ → Int × σ
  read : Int → σ → Int × List Byte × σ
  close : σ → σ

/-- `ext2_boot_dev_t`. -/
structure Ext2BootDev where
  discno : Byte
  partno : Byte
  partLength : Word
  deriving DecidableEq

/-- A device on an ext2 partition, or one that does without the driver. -/
inductive BootDev (Device : Type)
  | ext2 (this : Ext2BootDev)
  | other (this : Device)

/-- The driver, the partition table and what the other devices do. -/
structure Drivers (σ Device : Type) where
  ext2fs : Ext2fs σ
  table : Nat → Option RdbPartition
  sfsCreate : RdbPartition → Option Device
  tftpCreate : Option Device
  cdromCreate : Option Device
  loadFile : Device → List Byte → Int × List Byte

namespace Ext2fs
variable {σ : Type} (fs : Ext2fs σ)

/-- `load_file` of `ext2.c`. -/
def loadFile (this : Ext2BootDev) (filename : List Byte) (s : σ) : (Int × List Byte) × σ :=
  match fs.mount this.partLength s with
  | (mounted, s) =>
    if mounted = 0 then ((-4, []), fs.close s)
    else
      match fs.openFile filename s with
      | (filelen, s) =>
        if filelen < 0 then ((-5, []), fs.close s)
        else
          match fs.read filelen s with
          | (readed, buffer, s) =>
            if readed ≠ filelen then ((-6, buffer), fs.close s) else ((filelen, buffer), fs.close s)

/-- `ext2_create`. -/
def ext2Create (partition : RdbPartition) (s : σ) : Option Ext2BootDev × σ :=
  match fs.setBlkDevFull partition s with
  | (partLength, s) =>
    if partLength = 0 then (none, fs.close s)
    else
      match fs.mount partLength s with
      | (mounted, s) =>
        if mounted = 0 then (none, fs.close s)
        else (some ⟨partition.disk, partition.partition, partLength⟩, fs.close s)

end Ext2fs

namespace Drivers
variable {σ Device : Type} (w : Drivers σ Device)

/-- `dev->load_file`. -/
def load (dev : BootDev Device) (filename : List Byte) (s : σ) : (Int × List Byte) × σ :=
  match dev with
  | .ext2 this => w.ext2fs.loadFile this filename s
  | .other this => (w.loadFile this filename, s)

/-- `ext2_create` or `sfs_create`. -/
def create (partition : RdbPartition) (s : σ) : Option (BootDev Device) × σ :=
  match w.ext2fs.ext2Create partition s with
  | (some this, s) => (some (.ext2 this), s)
  | (none, s) => ((w.sfsCreate partition).map .other, s)

/-- The devices with the state of the driver. -/
def state : StateDevices σ (BootDev Device) RdbPartition where
  table := w.table
  create := w.create
  tftpCreate s := (w.tftpCreate.map .other, s)
  cdromCreate s := (w.cdromCreate.map .other, s)
  loadFile := w.load

end Drivers

/-- How far the driver is with a partition. -/
inductive Phase
  | closed
  | mounted
  | opened (filename : List Byte)

/-- The driver mounts the partition that it was set to last, has the files of the volume on
it, and stays set to it when it is closed. -/
structure Serves {σ : Type} (fs : Ext2fs σ) (length : RdbPartition → Word) (volume : RdbPartition → Option Volume)
    (On : Option RdbPartition → Phase → σ → Prop) : Prop where
  sets : ∀ q p s, On q .closed s → ∃ s', fs.setBlkDevFull p s = (length p, s') ∧ On (some p) .closed s'
  bad : ∀ p s, On (some p) .closed s → volume p = none →
    ∃ s', fs.mount (length p) s = (0, s') ∧ On (some p) .closed s'
  mounts : ∀ p v s, On (some p) .closed s → volume p = some v →
    ∃ mounted s', fs.mount (length p) s = (mounted, s') ∧ mounted ≠ 0 ∧ On (some p) .mounted s'
  missing : ∀ p v filename s, On (some p) .mounted s → volume p = some v → v filename = none →
    ∃ filelen s', fs.openFile filename s = (filelen, s') ∧ filelen < 0 ∧ On (some p) .mounted s'
  opens : ∀ p v filename content s, On (some p) .mounted s → volume p = some v → v filename = some content →
    ∃ s', fs.openFile filename s = ((content.length : Int), s') ∧ On (some p) (.opened filename) s'
  reads : ∀ p v filename content s, On (some p) (.opened filename) s → volume p = some v → v filename = some content →
    ∃ s', fs.read content.length s = ((content.length : Int), content, s') ∧ On (some p) (.opened filename) s'
  closes : ∀ q phase s, On q phase s → On q .closed (fs.close s)

/-- What a load from a volume gives. -/
def loaded (v : Volume) (filename : List Byte) : Int × List Byte :=
  match v filename with
  | none => (-5, [])
  | some content => (content.length, content)

/-- The devices without the state of the driver: each reads the volume of its own partition. -/
def Drivers.devices {σ Device : Type} (w : Drivers σ Device) (length : RdbPartition → Word)
    (volume : RdbPartition → Option Volume) : Devices (BootDev Device) RdbPartition where
  table := w.table
  ext2Create p :=
    if length p ≠ 0 ∧ (volume p).isSome then some (.ext2 ⟨p.disk, p.partition, length p⟩) else none
  sfsCreate p := (w.sfsCreate p).map .other
  tftpCreate := w.tftpCreate.map .other
  cdromCreate := w.cdromCreate.map .other
  loadFile dev filename :=
    match dev with
    | .ext2 this => ((w.table this.partno.toNat).bind volume).elim (-4, []) fun v => loaded v filename
    | .other this => w.loadFile this filename

/-- A slot of the table has the partition of its number. -/
def Drivers.Numbered {σ Device : Type} (w : Drivers σ Device) : Prop :=
  ∀ i p, w.table i = some p → p.partition.toNat = i

/-- The driver is closed, and where the device needs it it is set to the partition of that. -/
def Ready {σ Device : Type} (w : Drivers σ Device) (length : RdbPartition → Word)
    (volume : RdbPartition → Option Volume)
    (On : Option RdbPartition → Phase → σ → Prop) (dev' dev : BootDev Device) (s : σ) : Prop :=
  dev' = dev ∧
    match dev with
    | .ext2 this => ∃ i p, w.table i = some p ∧ (volume p).isSome ∧ this = ⟨p.disk, p.partition, length p⟩ ∧
        On (some p) .closed s
    | .other _ => ∃ q, On q .closed s

section
variable {σ Device : Type} {fs : Ext2fs σ} {w : Drivers σ Device} {length : RdbPartition → Word}
  {volume : RdbPartition → Option Volume} {On : Option RdbPartition → Phase → σ → Prop} {p q : RdbPartition}
  {last : Option RdbPartition} {v : Volume} {s : σ} {this : Ext2BootDev} {filename : List Byte} {i : Nat}
  {dev dev' : BootDev Device}

/-- A load comes from the partition that the driver is set to, whichever the device is for. -/
theorem loadFile_set (serves : Serves fs length volume On) (on : On (some q) .closed s)
    (long : this.partLength = length q) (here : volume q = some v) (filename : List Byte) :
    ∃ s', fs.loadFile this filename s = (loaded v filename, s') ∧ On (some q) .closed s' := by
  obtain ⟨mounted, s₁, mount, nonzero, on⟩ := serves.mounts q v s on here
  rw [Ext2fs.loadFile, long, mount, loaded]
  simp only [nonzero, if_false]
  cases file : v filename with
  | none =>
    obtain ⟨filelen, s₂, opened, negative, on⟩ := serves.missing q v filename s₁ on here file
    simp only [opened, negative, if_true]
    exact ⟨_, rfl, serves.closes _ _ _ on⟩
  | some content =>
    obtain ⟨s₂, opened, on⟩ := serves.opens q v filename content s₁ on here file
    obtain ⟨s₃, read, on⟩ := serves.reads q v filename content s₂ on here file
    have size : ¬(content.length : Int) < 0 := Int.not_lt.mpr (Int.natCast_nonneg _)
    simp only [opened, size, if_false, read, ne_eq, not_true]
    exact ⟨_, rfl, serves.closes _ _ _ on⟩

private theorem ready_closed (ready : Ready w length volume On dev' dev s) : ∃ q, On q .closed s := by
  obtain ⟨rfl, ready⟩ := ready
  cases dev' with
  | ext2 this =>
    obtain ⟨_, p, -, -, -, on⟩ := ready
    exact ⟨some p, on⟩
  | other this => exact ready

/-- A device that is ready gives its files, and is ready after that. -/
theorem load_ready (serves : Serves w.ext2fs length volume On) (numbered : w.Numbered)
    (ready : Ready w length volume On dev' dev s) (filename : List Byte) :
    ∃ s', w.load dev' filename s = ((w.devices length volume).loadFile dev filename, s') ∧
      Ready w length volume On dev' dev s' := by
  obtain ⟨rfl, ready⟩ := ready
  cases dev' with
  | other this => exact ⟨s, rfl, rfl, ready⟩
  | ext2 this =>
    obtain ⟨i, p, known, mounted, rfl, on⟩ := ready
    obtain ⟨v, here⟩ := Option.isSome_iff_exists.mp mounted
    obtain ⟨s', loads, on⟩ := @loadFile_set _ _ _ _ _ _ _ _ ⟨p.disk, p.partition, length p⟩ serves on rfl here filename
    refine ⟨s', ?_, rfl, i, p, known, mounted, rfl, on⟩
    rw [Drivers.load, Drivers.devices]
    dsimp only
    rw [loads]
    rw [numbered i p known, known, Option.bind_some, here]
    rfl

/-- A device that does without the driver is ready while that is closed. -/
theorem other_comes (made : Option Device) (on : On last .closed s) :
    Comes (fun s => ∃ q, On q .closed s) (Ready w length volume On) (made.map .other, s) (made.map .other) := by
  refine ⟨⟨last, on⟩, ?_⟩
  cases made with
  | none => exact .none
  | some this => exact .some ⟨rfl, last, on⟩

/-- A partition gets the device it should. -/
theorem create_comes (serves : Serves w.ext2fs length volume On) (known : w.table i = some p) (on : On last .closed s) :
    Comes (fun s => ∃ q, On q .closed s) (Ready w length volume On) (w.create p s)
      ((w.devices length volume).create p) := by
  obtain ⟨s₁, set, on⟩ := serves.sets last p s on
  have without (none : ¬(length p ≠ 0 ∧ (volume p).isSome)) :
      (w.devices length volume).create p = (w.sfsCreate p).map BootDev.other := by
    simp only [Devices.create, Drivers.devices, if_neg none, Option.none_or]
  rw [Drivers.create, Ext2fs.ext2Create, set]
  by_cases empty : length p = 0
  · simp only [empty, if_true]
    rw [without fun both => both.1 empty]
    exact other_comes _ (serves.closes _ _ _ on)
  · simp only [empty, if_false]
    cases here : volume p with
    | none =>
      obtain ⟨s₂, mount, on⟩ := serves.bad p s₁ on here
      simp only [mount, if_true]
      rw [without fun both => by
        rw [here] at both
        cases both.2]
      exact other_comes _ (serves.closes _ _ _ on)
    | some v =>
      obtain ⟨mounted, s₂, mount, nonzero, on⟩ := serves.mounts p v s₁ on here
      have same : (w.devices length volume).create p = some (.ext2 ⟨p.disk, p.partition, length p⟩) := by
        simp only [Devices.create, Drivers.devices, here]
        rw [if_pos ⟨empty, rfl⟩, Option.some_or]
      have on := serves.closes _ _ _ on
      simp only [mount, nonzero, if_false, same]
      exact ⟨⟨_, on⟩, .some ⟨rfl, i, p, known, by rw [here]; rfl, rfl, on⟩⟩

theorem state_refines (serves : Serves w.ext2fs length volume On) (numbered : w.Numbered) :
    Refines w.state (w.devices length volume) (fun _ => True) (fun s => ∃ q, On q .closed s)
      (Ready w length volume On) where
  table := rfl
  menus _ _ := trivial
  idle _ _ _ ready := ready_closed ready
  creates _ _ _ known closed := closed.elim fun _ on => create_comes serves known on
  tftp _ closed := closed.elim fun _ on => other_comes _ on
  cdrom _ closed := closed.elim fun _ on => other_comes _ on
  loads _ _ path _ ready _ := load_ready serves numbered ready path

/-- From the unit booted from to the files of the entry chosen in the menu every load gives what
the partition of its device has, and the driver is closed at the end. -/
theorem drivers_refine (serves : Serves w.ext2fs length volume On) (numbered : w.Numbered) (on : On none .closed s)
    (type : UnitType) (fuel : Nat) (scratch : Word × Word) (heap : Heap)
    (choose : Option (Except Fault (Option Addr × Heap)) → Entry × List (List Byte)) :
    ∃ s', w.state.session type fuel scratch heap choose s =
      ((w.devices length volume).session type fuel scratch heap choose, s') ∧ ∃ q, On q .closed s' :=
  session_refines (state_refines serves numbered) ⟨none, on⟩ type fuel scratch heap fun _ _ _ => trivial

end

/-- A driver that has nothing but these volumes. -/
def plainDriver (volume : RdbPartition → Option Volume) : Ext2fs (Option RdbPartition × Phase) where
  setBlkDevFull p _ := (1, some p, .closed)
  mount _ s := if (s.1.bind volume).isSome then (1, s.1, .mounted) else (0, s.1, .closed)
  openFile filename s :=
    match (s.1.bind volume).bind (· filename) with
    | none => (-1, s.1, .mounted)
    | some content => (content.length, s.1, .opened filename)
  read _ s :=
    match s.2 with
    | .opened filename =>
      let content := ((s.1.bind volume).bind (· filename)).getD []
      (content.length, content, s)
    | _ => (-1, [], s)
  close s := (s.1, .closed)

theorem plainDriver_serves (volume : RdbPartition → Option Volume) :
    Serves (plainDriver volume) (fun _ => 1) volume fun q phase s => s = (q, phase) := by
  constructor
  · rintro q p s rfl
    exact ⟨_, rfl, rfl⟩
  · rintro p s rfl here
    refine ⟨_, ?_, rfl⟩
    simp only [plainDriver, Option.bind_some, here]
    rfl
  · rintro p v s rfl here
    refine ⟨1, _, ?_, by decide, rfl⟩
    simp only [plainDriver, Option.bind_some, here]
    rfl
  · rintro p v filename s rfl here file
    refine ⟨-1, _, ?_, by decide, rfl⟩
    simp only [plainDriver, Option.bind_some, here, file]
  · rintro p v filename content s rfl here file
    refine ⟨_, ?_, rfl⟩
    simp only [plainDriver, Option.bind_some, here, file]
  · rintro p v filename content s rfl here file
    refine ⟨_, ?_, rfl⟩
    simp only [plainDriver, Option.bind_some, here, file, Option.getD_some]
  · rintro q phase s rfl
    rfl

/-- Two partitions, the second with a file on it. -/
def twoVolumes : Drivers (Option RdbPartition × Phase) Unit where
  ext2fs := plainDriver fun p => some fun path => if p.partition = 1 ∧ path = chars "k" then some [1, 2, 3] else none
  table i := if i < 2 then some ⟨0, BitVec.ofNat 8 i, ⟨0, 0, 0, [], [], by decide⟩⟩ else none
  sfsCreate _ := none
  tftpCreate := none
  cdromCreate := none
  loadFile _ _ := (-1, [])

theorem twoVolumes_numbered : twoVolumes.Numbered := by
  intro i p known
  unfold twoVolumes at known
  dsimp only at known
  split at known
  · cases known
    exact Nat.mod_eq_of_lt (by omega)
  · cases known

/-- The file is loaded from the second one. -/
theorem secondVolume_loaded :
    ∃ menu s, twoVolumes.state.session .harddisk 0 (0, 0) emptyHeap (fun _ => (mark 1 entryAlloc, [chars "k"]))
      (none, .closed) = ((menu, some [(3, [1, 2, 3])]), s) := by
  obtain ⟨s, ran, -⟩ := drivers_refine (plainDriver_serves _) twoVolumes_numbered rfl .harddisk 0 (0, 0) emptyHeap
    fun _ => (mark 1 entryAlloc, [chars "k"])
  exact ⟨_, s, ran⟩

end Parthenope.Ext2
