import Parthenope.CdBoot
import Parthenope.DeviceBoot

/-! All of `bootstrap` on a machine with a disk and a CD drive. Booted from a CD, it goes from
the sectors of the disc to a kernel that is linked in memory. -/
namespace Parthenope.CdStart
open ByteMemory CdBoot CString DeviceBoot FileTree FileNames
open Cdrom hiding Fault
open Buffer (fold)
open Sfs (pathComponents)
open Menu (Entry Heap Addr Book Volume Fault UnitType menuPaths Stored entryAlloc)
open Ext2 (Drivers Phase)
open PartitionTable (RdbPartition)
open Bootstrap (Buffers Machine)
open Elf (Loader)
open ElfImage ElfLayout

/-- Whatever unit it is booted from and whatever entry is chosen whose files have paths that hold
on the disc, the boot loader does what it would if no device had a state, and leaves the driver
of the disk closed. -/
theorem machine_starts {σ Device D : Type} [Finite D] {w : Drivers σ Device} {length : RdbPartition → Word}
    {volume : RdbPartition → Option Volume} {On : Option RdbPartition → Phase → σ → Prop} {host : Host D}
    {disc : Word → Sector} {root : Word × Word} {rr : Option Byte} {entries : Word × Word → Listing} {v : Volume}
    {paths : List (List Byte)} {fresh : Nat → CdromBootDev D} {x : σ} (serves : Serves host.read disc)
    (memory : ∀ n, host.allocates n = true) (holds : Holds host disc root rr entries v (menuPaths ++ paths))
    (chance : ∀ k, (fresh k).boot.sectorInBuf = 16 → (fresh k).boot.tmpbuf = disc 16)
    (drives : Ext2.Serves w.ext2fs length volume On) (numbered : w.Numbered) (on : On none .closed x) (phys : D) :
    let s := cdDevices (w.devices length volume) v
    ∃ n, ∀ more, n ≤ more → ∀ (firmware : Firmware) (b : Buffers) (type : UnitType) (fuel : Nat) (scratch : Word × Word)
        (heap : Heap) (loader : Loader) (choose : Option (Except Fault (Option Addr × Heap)) → Option Entry),
      let boot := s.getBootingDevice type
      let menu := s.menuLoad boot fuel scratch heap
      (∀ entry, choose menu = some entry → ∀ path ∈ entryFiles entry, path ∈ menuPaths ++ paths) →
        ∃ x', start (withCd w.state host fresh more) firmware b type fuel scratch heap choose loader (x, ⟨phys, []⟩) =
          ((menu, Bootstrap.bootstrap (outcomesOf s firmware b boot ((choose menu).getD entryAlloc)) b (choose menu)
            (.start loader)), x') ∧ ∃ q, On q .closed x'.1 := by
  intro s
  obtain ⟨n, machine⟩ := machine_refines serves memory holds chance drives numbered
  refine ⟨n, fun more above firmware b type fuel scratch heap loader choose => ?_⟩
  intro boot menu asked
  obtain ⟨x', started, idle⟩ := start_refines (x := (x, ⟨phys, []⟩)) (machine more above)
    ⟨⟨none, on⟩, unmade_sound disc root rr phys⟩ firmware b type fuel scratch heap loader
    fun entry chosen path inside => ⟨trivial, asked entry chosen path inside⟩
  exact ⟨x', started, idle.1⟩

/-- The kernel `k` of the second partition. -/
def rawEntry : Entry := { Menu.mark 1 entryAlloc with title := some (chars "r"), kernel := some (chars "k") }

/-- Three bytes that are no image are entered as they are, with the disc left alone. -/
theorem secondVolume_entered :
    ∃ n menu machine x',
      start (withCd Ext2.twoVolumes.state (steadyHost alternateDisc) (fun _ => leftover (fun _ => 0) 0) n)
          ⟨fun _ => none, false⟩ ArosStart.wordBuffers .harddisk 0 (0, 0) Menu.emptyHeap (fun _ => some rawEntry)
          (Loader.initial fun _ => 0) ((none, .closed), ⟨(), []⟩) =
        ((menu, .gone machine), x') ∧
        machine.trace.getLast? = some (.rawJump 0x1000 []) ∧
        (List.range 3).map (fun i => machine.mem (0x1000 + BitVec.ofNat 32 i)) = [1, 2, 3] := by
  have chance (k : Nat) (same : (leftover (fun _ => 0) 0).boot.sectorInBuf = 16) :
      (leftover (fun _ => 0) 0).boot.tmpbuf = alternateDisc 16 := absurd same (by decide)
  have asked (entry : Entry) (same : some rawEntry = some entry) :
      ∀ path ∈ entryFiles entry, path ∈ menuPaths ++ [chars "a", chars "k"] := by
    cases same
    decide
  obtain ⟨n, starts⟩ := machine_starts alternateDisc_serves (fun _ => rfl) alternateDisc_holds chance
    (Ext2.plainDriver_serves _) Ext2.twoVolumes_numbered rfl ()
  obtain ⟨x', started, -⟩ := starts n le_rfl ⟨fun _ => none, false⟩ ArosStart.wordBuffers .harddisk 0
    (0, 0) Menu.emptyHeap
    (Loader.initial fun _ => 0) (fun _ => some rawEntry) asked
  exact ⟨n, _, _, x', started, by rfl, by decide⟩

end Parthenope.CdStart
