import Parthenope.AosStart
import Parthenope.DeviceBoot
import Parthenope.Ext2

/-! Booting a kernel that is no image, with modules: what the kernel finds in its list is what
the modules are on the volume that they are loaded from. -/
namespace Parthenope.AosVolume
open AosStart ByteMemory DeviceBoot Menu NodeList
open CString (Byte chars)
open Bootstrap (Buffers Control Event Load Machine Outcomes Recognised ShortTitle attempts kernelMachine)

/-- The content of module `i` on a volume. -/
def moduleContent (v : Volume) (entry : Entry) (i : Nat) : List Byte := (v (fileName entry (.aosModule i))).getD []

/-- What `malloc` gives for the modules on a volume: blocks that share no byte, also not with what
is read into the buffer. -/
structure Allocated (v : Volume) (entry : Entry) (b : Buffers) (blocks : Blocks) (o : Outcomes) : Prop where
  apart : ∀ p q x, p.Before entry.modules.length → q.Before entry.modules.length → blocks.Inside o x p →
    blocks.Inside o x q → p = q
  buffer : ∀ i < entry.modules.length, ∀ x, Within b.module (moduleContent v entry i).length x →
    ∀ p : Part, p.Before entry.modules.length → ¬blocks.Inside o x p

section
variable {Device Partition : Type} {s : Devices Device Partition} {v : Volume} {boot : Option Device} {entry : Entry}
  {dev : Device} {b : Buffers} {blocks : Blocks} {o : Outcomes} {firmware : Firmware} {m : Machine} {i : Nat}

/-- No attempt takes such a kernel for its own. -/
theorem attempts_skip (other : ¬Recognised m.mem b.kernel) : attempts o b entry m = .back m := by
  obtain ⟨standalone, rest⟩ := not_or.mp other
  obtain ⟨linux, elf⟩ := not_or.mp rest
  have refused : Elf.loadElfFile (entry.kernel.getD []) b.kernel m.loader = (false, m.loader) :=
    if_pos (Bool.eq_false_of_not_eq_true elf)
  rw [attempts, Bootstrap.standalone_skips (Bool.eq_false_of_not_eq_true standalone), Control.next_back,
    Bootstrap.linux_skips (Bool.eq_false_of_not_eq_true linux), Control.next_back, Bootstrap.testbootAros,
    refused]

/-- What a load of a module gives is its content. -/
theorem module_loads (files : HasFiles s dev v (arosFiles entry)) (opened : s.bootDevice boot entry = some dev)
    (firmware : Firmware) (b : Buffers) (below : i < entry.modules.length) :
    (outcomesOf s firmware b boot entry).length (.aosModule i) = (moduleContent v entry i).length ∧
      (outcomesOf s firmware b boot entry).read (.aosModule i) = put b.module (moduleContent v entry i) := by
  obtain ⟨-, named, listed⟩ := module_file below
  exact files.loaded opened firmware b (.aosModule i) (named ▸ listed)

/-- The devices and `malloc` serve the loop over the modules. -/
theorem volume_serves (files : HasFiles s dev v (arosFiles entry)) (opened : s.bootDevice boot entry = some dev)
    (allocated : Allocated v entry b blocks (outcomesOf s firmware b boot entry)) :
    Serves (outcomesOf s firmware b boot entry) b blocks entry.modules.length
      fun i k => (moduleContent v entry i).getD k 0 := by
  have buffered (i : Nat) (below : i < entry.modules.length) (k : Nat)
      (inside : k < ((outcomesOf s firmware b boot entry).length (.aosModule i)).toNat) :
      Within b.module (moduleContent v entry i).length (b.module + BitVec.ofNat 32 k) := by
    rw [(module_loads files opened firmware b below).1, Int.toNat_natCast] at inside
    rw [Within, add_sub_cancel_left, BitVec.toNat_ofNat]
    exact (Nat.mod_le ..).trans_lt inside
  constructor
  · exact allocated.apart
  · exact fun i below k inside => allocated.buffer i below _ (buffered i below k inside)
  · intro i below
    obtain ⟨length, read⟩ := module_loads files opened firmware b below
    refine ⟨length ▸ Int.natCast_nonneg _, fun m k inside => ?_⟩
    -- A block that is longer than the memory would share bytes with the list.
    have small : (moduleContent v entry i).length ≤ 2 ^ 32 := by
      refine Nat.le_of_not_lt fun long => ?_
      have everywhere : blocks.Inside (outcomesOf s firmware b boot entry) blocks.list (.address i) := by
        rw [Blocks.Inside, length, Int.toNat_natCast]
        exact (BitVec.isLt _).trans long
      have same : Part.list = .address i :=
        allocated.apart .list (.address i) _ trivial below (within_start (by decide)) everywhere
      cases same
    have here := buffered i below k inside
    rw [length, Int.toNat_natCast] at inside
    rw [read, put, if_pos here, add_sub_cancel_left, BitVec.toNat_ofNat, Nat.mod_eq_of_lt (inside.trans_le small)]
  · intro i below m x p before within
    obtain ⟨-, read⟩ := module_loads files opened firmware b below
    rw [read]
    exact if_neg fun filled => allocated.buffer i below x filled p (before.mono below.le) within

/-- The modules with their lengths. -/
theorem handed_modules (files : HasFiles s dev v (arosFiles entry)) (opened : s.bootDevice boot entry = some dev)
    (firmware : Firmware) (b : Buffers) :
    (entry.modules.zipIdx.map fun at' => (at'.1.name, (outcomesOf s firmware b boot entry).length (.aosModule at'.2))) =
      entry.modules.map fun module => (module.name, (((v module.name).getD []).length : Int)) := by
  have each (at' : EntryObject × Nat) (inside : at' ∈ entry.modules.zipIdx) :
      (at'.1.name, (outcomesOf s firmware b boot entry).length (.aosModule at'.2)) =
        (at'.1.name, (((v at'.1.name).getD []).length : Int)) := by
    obtain ⟨below, here⟩ := List.getElem?_eq_some_iff.mp (List.mem_zipIdx_iff_getElem?.mp inside)
    obtain ⟨-, named, -⟩ := module_file below
    rw [(module_loads files opened firmware b below).1, moduleContent, named, here]
  calc
    _ = entry.modules.zipIdx.map fun at' => (at'.1.name, (((v at'.1.name).getD []).length : Int)) :=
      List.map_congr_left each
    _ = (entry.modules.zipIdx.map Prod.fst).map fun module => (module.name, (((v module.name).getD []).length : Int)) :=
      by
        rw [List.map_map]
        rfl
    _ = _ := by rw [List.zipIdx_map_fst]

/-- The kernel is called in its buffer, with all the modules. -/
theorem volume_enters (files : HasFiles s dev v (arosFiles entry)) (opened : s.bootDevice boot entry = some dev)
    (direct : entry.other = none) (short : ShortTitle entry) (firmware : Firmware) (b : Buffers) (loader : Elf.Loader)
    (raw : ¬Recognised (put b.kernel ((v (entry.kernel.getD [])).getD []) loader.mem) b.kernel) :
    ∃ machine, Bootstrap.bootstrap (outcomesOf s firmware b boot entry) b (some entry) (.start loader) =
        (if firmware.kernelReturns then .back (machine.emit .prompt) else .gone machine) ∧
      machine.trace.getLast? = some (.rawJump b.kernel
        (entry.modules.map fun module => (module.name, (((v module.name).getD []).length : Int)))) := by
  have attempted := files.attempted opened direct firmware b
  have kernel := (files.loaded opened firmware b .kernel List.mem_cons_self).2
  have other : ¬Recognised (kernelMachine (outcomesOf s firmware b boot entry) b entry loader).mem b.kernel := by
    have memory : (kernelMachine (outcomesOf s firmware b boot entry) b entry loader).mem =
        (outcomesOf s firmware b boot entry).read .kernel loader.mem := rfl
    rw [memory, kernel]
    exact raw
  have handed := @aosModules_handed (outcomesOf s firmware b boot entry) b 0 entry.modules
    (kernelMachine (outcomesOf s firmware b boot entry) b entry loader) [] fun j below => by
      rw [Nat.zero_add, (module_loads files opened firmware b below).1]
      exact Int.natCast_nonneg _
  rw [List.nil_append, handed_modules files opened firmware b] at handed
  rw [Bootstrap.bootstrap_attempts attempted, attempts_skip other, Control.next_back,
    Bootstrap.aos_writes short, handed]
  let after := (Bootstrap.aosModules (outcomesOf s firmware b boot entry) b 0 entry.modules []
    (kernelMachine (outcomesOf s firmware b boot entry) b entry loader)).2
  refine ⟨after.emit (.rawJump b.kernel _), ?_, List.getLast?_concat⟩
  have returns : (outcomesOf s firmware b boot entry).kernelReturns = firmware.kernelReturns := rfl
  rw [Option.elim_some, returns]
  cases firmware.kernelReturns <;> rfl

end

/-- A kernel that is no image is entered, where the title fits, with a list in which each module is
as its volume has it, from either end in the order of the menu. -/
theorem aos_starts_listed {σ Concrete Abstract Partition : Type} {w : StateDevices σ Concrete Partition}
    {s : Devices Abstract Partition} {Good : List Byte → Prop} {Idle : σ → Prop}
    {Ready : Concrete → Abstract → σ → Prop}
    {x : σ} {entry : Entry} {dev : Abstract} {v : Volume} {firmware : Firmware} {b : Buffers} {blocks : Blocks}
    {type : UnitType} {fuel : Nat} {scratch : Word × Word} {heap : Heap} {loader : Elf.Loader}
    {choose : Option (Except Fault (Option Addr × Heap)) → Option Entry}
    (refines : Refines w s Good Idle Ready) (idle : Idle x)
    (chosen : choose (s.menuLoad (s.getBootingDevice type) fuel scratch heap) = some entry)
    (good : ∀ path ∈ entryFiles entry, Good path) (direct : entry.other = none) (short : ShortTitle entry)
    (opened : s.bootDevice (s.getBootingDevice type) entry = some dev) (files : HasFiles s dev v (arosFiles entry))
    (raw : ¬Recognised (put b.kernel ((v (entry.kernel.getD [])).getD []) loader.mem) b.kernel)
    (allocated : Allocated v entry b blocks (outcomesOf s firmware b (s.getBootingDevice type) entry)) :
    let o := outcomesOf s firmware b (s.getBootingDevice type) entry
    let filled := put b.kernel ((v (entry.kernel.getD [])).getD []) loader.mem
    (∃ machine x', start w firmware b type fuel scratch heap choose loader x =
        ((s.menuLoad (s.getBootingDevice type) fuel scratch heap,
          if firmware.kernelReturns then .back (machine.emit .prompt) else .gone machine), x') ∧ Idle x' ∧
        machine.trace.getLast? = some (.rawJump b.kernel
          (entry.modules.map fun module => (module.name, (((v module.name).getD []).length : Int))))) ∧
      ∃ m, aosMemory o b blocks entry.modules.length filled = some m ∧
        WellFormed m blocks.list ((List.range entry.modules.length).map blocks.module) ∧
        ∀ i < entry.modules.length,
          moduleAt m (blocks.module i) =
            ⟨blocks.name i, 0, 2, 3, 0, 0, blocks.address i, BitVec.ofNat 32 (moduleContent v entry i).length⟩ ∧
          ∀ k < (moduleContent v entry i).length,
            m (blocks.address i + BitVec.ofNat 32 k) = (moduleContent v entry i).getD k 0 := by
  intro o filled
  constructor
  · have asked (other : Entry) (same : choose (s.menuLoad (s.getBootingDevice type) fuel scratch heap) = some other) :
        ∀ path ∈ entryFiles other, Good path := by
      rw [chosen] at same
      cases same
      exact good
    obtain ⟨machine, entered, last⟩ := volume_enters files opened direct short firmware b loader raw
    obtain ⟨x', started, idle⟩ := start_refines refines idle firmware b type fuel scratch heap loader asked
    rw [chosen, Option.getD_some, entered] at started
    exact ⟨machine, x', started, idle, last⟩
  · have serves := volume_serves files opened allocated
    obtain ⟨m, ran, built⟩ := (built_zero o blocks (fun i k => (moduleContent v entry i).getD k 0)
      filled).addModules serves
      entry.modules.length (by omega)
    rw [Nat.zero_add] at built
    refine ⟨m, ran, built.held.wellFormed, fun i below => ?_⟩
    have length := (module_loads files opened firmware b below).1
    have fields := built.fields i below
    have contents := built.contents i below
    rw [length] at fields
    rw [length, Int.toNat_natCast] at contents
    exact ⟨fields, contents⟩

/-- A volume with a kernel and two modules. -/
def pairVolume (path : List Byte) : Option (List Byte) :=
  if path = chars "k" then some [1, 2, 3] else if path = [0x6d] then some [0, 1, 2]
  else if path = [0x6e] then some [10, 11, 12] else none

def pairDrivers : Ext2.Drivers (Option PartitionTable.RdbPartition × Ext2.Phase) Unit :=
  { Ext2.twoVolumes with ext2fs := Ext2.plainDriver fun _ => some pairVolume }

def kernelEntry : Entry := mark 0 { pairEntry with kernel := some (chars "k") }

def pairDevices : Devices (Ext2.BootDev Unit) PartitionTable.RdbPartition :=
  pairDrivers.devices (fun _ => 1) fun _ => some pairVolume

private theorem pairDevices_files : ∃ dev, pairDevices.bootDevice none kernelEntry = some dev ∧
    HasFiles pairDevices dev pairVolume (arosFiles kernelEntry) := by
  refine ⟨_, rfl, fun path inside => ?_⟩
  have either : path = chars "k" ∨ path = [0x6d] ∨ path = [0x6e] := by
    simpa [arosFiles, kernelEntry, mark, pairEntry, entryAlloc] using inside
  rcases either with rfl | rfl | rfl <;> exact ⟨_, rfl, rfl⟩

/-- The two modules are handed over as they are on the volume. -/
theorem pairVolume_handed :
    ∃ machine x', start pairDrivers.state ⟨fun _ => none, false⟩ pairBuffers .harddisk 0 (0, 0) emptyHeap
        (fun _ => some kernelEntry) (Elf.Loader.initial fun _ => 0) (none, .closed) =
      ((pairDevices.menuLoad none 0 (0, 0) emptyHeap, .gone machine), x') ∧
      machine.trace.getLast? = some (.rawJump 0x10000 [([0x6d], 3), ([0x6e], 3)]) ∧
      ∃ m, aosMemory (outcomesOf pairDevices ⟨fun _ => none, false⟩ pairBuffers none kernelEntry)
        pairBuffers pairBlocks 2
          (put 0x10000 [1, 2, 3] fun _ => 0) = some m ∧
        WellFormed m 64 [128, 192] ∧ ∀ k < 3, m (pairBlocks.address 1 + BitVec.ofNat 32 k) = [10, 11, 12].getD k 0 := by
  obtain ⟨dev, opened, files⟩ := pairDevices_files
  have length (i : Nat) (below : i < 2) :
      (outcomesOf pairDevices ⟨fun _ => none, false⟩ pairBuffers none kernelEntry).length (.aosModule i) = 3 := by
    obtain rfl | rfl : i = 0 ∨ i = 1 := by omega
    · rfl
    · rfl
  have inside (x : Word) (p : Part) (before : p.Before 2) (within : pairBlocks.Inside
      (outcomesOf pairDevices ⟨fun _ => none, false⟩ pairBuffers none kernelEntry) x p) :
      pairBlocks.Inside pairOutcomes x p := by
    cases p with
    | list => exact within
    | module i => exact within
    | address i =>
      rw [Blocks.Inside, length i before] at within
      exact within
  have allocated : Allocated pairVolume kernelEntry pairBuffers pairBlocks
      (outcomesOf pairDevices ⟨fun _ => none, false⟩ pairBuffers none kernelEntry) := by
    refine ⟨fun p q x before before' within within' => ?_, fun i below x filled p before within => ?_⟩
    · exact pair_serves.apart p q x before before' (inside x p before within) (inside x q before' within')
    · have place : pairBuffers.module + BitVec.ofNat 32 (x - pairBuffers.module).toNat = x := by
        rw [BitVec.ofNat_toNat, BitVec.setWidth_eq]
        bv_omega
      have short : (moduleContent pairVolume kernelEntry i).length = 3 := by
        obtain rfl | rfl : i = 0 ∨ i = 1 := by
          have below : i < 2 := below
          omega
        · rfl
        · rfl
      rw [Within, short] at filled
      exact pair_serves.buffer i below _ filled p before (place.symm ▸ inside x p before within)
  have raw : ¬Recognised (put 0x10000 [1, 2, 3] fun _ => 0) 0x10000 := by
    unfold Recognised
    decide
  obtain ⟨⟨machine, x', started, -, last⟩, m, ran, formed, each⟩ :=
    @aos_starts_listed _ _ _ _ pairDrivers.state pairDevices _ _ _
    (none, .closed) kernelEntry dev pairVolume ⟨fun _ => none, false⟩ pairBuffers pairBlocks .harddisk 0
      (0, 0) emptyHeap
    (Elf.Loader.initial fun _ => 0) (fun _ => some kernelEntry)
    (Ext2.state_refines (Ext2.plainDriver_serves _) Ext2.twoVolumes_numbered) ⟨none, rfl⟩ rfl (fun _ _ => trivial) rfl
    ⟨[0x50], rfl, by decide⟩ opened files raw allocated
  exact ⟨machine, x', started, last, m, ran, formed, (each 1 (by decide)).2⟩

end Parthenope.AosVolume
