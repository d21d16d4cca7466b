import Parthenope.CdromRockRidge
import Parthenope.Ext2

/-! Booting from a CD, from `cdrom_create` to the menu on the disc and the files of an entry
chosen in it. Each device has a cache of its own; the drive is one. -/
namespace Parthenope.CdBoot
open CString Cdrom FileTree FileNames StepLoop
open Buffer (fold)
open Sfs (pathComponents)
open Menu (StateDevices Devices Refines Entry Heap Addr Book Volume menuPaths UnitType Stored)
open Ext2 (Drivers BootDev Phase)
open PartitionTable (RdbPartition)

/-- The drive and the devices that have been made for it. -/
structure Drive (D : Type) where
  phys : D
  made : List (CdromBootDev D)

/-- A device, with the drive as it is now. -/
def onDrive {D : Type} (phys : D) (dev : CdromBootDev D) : CdromBootDev D :=
  { dev with boot := { dev.boot with phys := phys } }

namespace Drive
variable {D : Type} (host : Host D) (fuel : Nat)

/-- `cdrom_create`, with what is in the memory of each new device. A call that does not come
back counts as one that fails. -/
def create (fresh : Nat → CdromBootDev D) (d : Drive D) : Option Nat × Drive D :=
  match cdromCreate host (onDrive d.phys (fresh d.made.length)) fuel with
  | some (.ok (some dev)) => (some d.made.length, ⟨dev.boot.phys, d.made ++ [dev]⟩)
  | _ => (none, d)

/-- `fs_cdrom_load_file`, for a device by its number. -/
def load (i : Nat) (filename : List Byte) (d : Drive D) : (Int × List Byte) × Drive D :=
  match d.made[i]? with
  | none => ((-1, []), d)
  | some dev =>
    match fsCdromLoadFile host (onDrive d.phys dev) filename fuel with
    | some (.ok (dev, loaded)) => (loaded, ⟨dev.boot.phys, d.made.set i dev⟩)
    | _ => ((-1, []), d)

end Drive

/-- The devices of a machine that has a CD drive too. -/
def withCd {σ Device Partition D : Type} (disk : StateDevices σ Device Partition) (host : Host D)
    (fresh : Nat → CdromBootDev D) (fuel : Nat) : StateDevices (σ × Drive D) (Device ⊕ Nat) Partition where
  table := disk.table
  create partition x :=
    match disk.create partition x.1 with
    | (dev, s) => (dev.map .inl, s, x.2)
  tftpCreate x :=
    match disk.tftpCreate x.1 with
    | (dev, s) => (dev.map .inl, s, x.2)
  cdromCreate x :=
    match x.2.create host fuel fresh with
    | (dev, d) => (dev.map .inr, x.1, d)
  loadFile dev filename x :=
    match dev with
    | .inl dev =>
      match disk.loadFile dev filename x.1 with
      | (loaded, s) => (loaded, s, x.2)
    | .inr i =>
      match x.2.load host fuel i filename with
      | (loaded, d) => (loaded, x.1, d)

/-- What a load from a CD gives: for a file that is not there zero, which is no failure to
`bootstrap`. -/
def cdLoaded (v : Volume) (filename : List Byte) : Int × List Byte :=
  match v filename with
  | none => (0, [])
  | some content => (content.length, content)

/-- The devices without caches, with the volume that is on the disc. -/
def cdDevices {Device Partition : Type} (s : Devices Device Partition) (v : Volume) :
    Devices (Device ⊕ Unit) Partition where
  table := s.table
  ext2Create partition := (s.ext2Create partition).map .inl
  sfsCreate partition := (s.sfsCreate partition).map .inl
  tftpCreate := s.tftpCreate.map .inl
  cdromCreate := some (.inr ())
  loadFile dev filename :=
    match dev with
    | .inl dev => s.loadFile dev filename
    | .inr () => cdLoaded v filename

/-- A disc has a well-formed volume, and the volume's paths lead to what is on it. -/
structure Holds {D : Type} (host : Host D) (disc : Word → Sector) (root : Word × Word) (rr : Option Byte)
    (entries : Word × Word → Listing) (v : Volume) (paths : List (List Byte)) : Prop where
  opens : Opens host disc root rr
  formed : WellFormed (Lists host disc (RecordNamed host disc rr)) (fun _ => True) entries root
  shallow : ∀ path ∈ paths, (pathComponents path).length ≤ isoMaxDepth + 1
  ended : ∀ path ∈ paths, (0 : Byte) ∉ path
  leads : ∀ path ∈ paths, v path =
    (follow fold (lookupAs fold Node.file?) entries (pathComponents path) root).map (extentContent disc)
  small : ∀ path ∈ paths, ∀ content, v path = some content → content.length < 2 ^ 31

/-- All the devices are for the volume of the disc. -/
def Sound {D : Type} (disc : Word → Sector) (root : Word × Word) (rr : Option Byte) (d : Drive D) : Prop :=
  ∀ dev ∈ d.made, Opened disc root rr dev

/-- A device is ready, whichever drive it is for. -/
def Ready {σ Concrete Abstract D : Type} (Idle : σ → Prop) (Fit : Concrete → Abstract → σ → Prop) (disc : Word → Sector)
    (root : Word × Word) (rr : Option Byte) (dev' : Concrete ⊕ Nat) (dev : Abstract ⊕ Unit) (x : σ × Drive D) : Prop :=
  Sound disc root rr x.2 ∧
    match dev', dev with
    | .inl dev', .inl dev => Fit dev' dev x.1
    | .inr i, .inr () => Idle x.1 ∧ i < x.2.made.length
    | _, _ => False

section
variable {σ Concrete Abstract Partition D : Type} {disk : StateDevices σ Concrete Partition}
  {s : Devices Abstract Partition}
  {Good : List Byte → Prop} {Idle : σ → Prop} {Fit : Concrete → Abstract → σ → Prop} {host : Host D}
  {disc : Word → Sector}
  {root : Word × Word} {rr : Option Byte} {entries : Word × Word → Listing} {v : Volume} {paths : List (List Byte)}
  {fresh : Nat → CdromBootDev D} {d : Drive D} {dev : CdromBootDev D} {x : σ} {fuel : Nat}

private theorem onDrive_opened (opened : Opened disc root rr dev) (phys : D) : Opened disc root rr (onDrive phys dev) :=
  ⟨opened.coherent, opened.voldesc, opened.rootdir, opened.marked, opened.skips⟩

private theorem loadedFrom_volume (holds : Holds host disc root rr entries v paths) {path : List Byte}
    (inside : path ∈ paths) :
    loadedFrom disc (follow fold (lookupAs fold Node.file?) entries (pathComponents path) root) = cdLoaded v path := by
  have leads := holds.leads path inside
  have small := holds.small path inside
  rw [cdLoaded]
  generalize follow fold (lookupAs fold Node.file?) entries (pathComponents path) root = led at leads ⊢
  cases led with
  | none =>
    rw [leads]
    rfl
  | some place =>
    have length : (extentContent disc place).length = place.2.toNat := Buffer.slice_length
    have short := small _ leads
    rw [length] at short
    rw [leads]
    simp only [loadedFrom, Option.map_some, length]
    rw [BitVec.toInt_eq_toNat_of_lt (by omega)]

/-- Fuel that is enough for every call, whatever sector is in a cache. -/
theorem enough_fuel [Finite D] (serves : Serves host.read disc) (memory : ∀ n, host.allocates n = true)
    (holds : Holds host disc root rr entries v paths) :
    ∃ n, ∀ fuel, n ≤ fuel →
      (∀ fresh : CdromBootDev D, (fresh.boot.sectorInBuf = 16 → fresh.boot.tmpbuf = disc 16) →
        ∃ dev, Opened disc root rr dev ∧ cdromCreate host fresh fuel = some (.ok (some dev))) ∧
      ∀ path ∈ paths, ∀ dev, Opened disc root rr dev →
        ∃ dev', Opened disc root rr dev' ∧ fsCdromLoadFile host dev path fuel = some (.ok (dev', cdLoaded v path)) := by
  -- A device is what is in its cache and how many bytes it skips; there are finitely many.
  obtain ⟨n, created⟩ := @enough_for_each (Cache D × Byte) _
    (fun c fuel => (c.1.sectorInBuf = 16 → c.1.tmpbuf = disc 16) →
      ∃ dev, Opened disc root rr dev ∧ cdromCreate host ⟨c.1, [], [], false, c.2⟩ fuel = some (.ok (some dev)))
    fun c => by
      by_cases chance : c.1.sectorInBuf = 16 → c.1.tmpbuf = disc 16
      · have fresh : (⟨c.1, [], [], false, c.2⟩ : CdromBootDev D).boot.sectorInBuf = 16 →
            (⟨c.1, [], [], false, c.2⟩ : CdromBootDev D).boot.tmpbuf = disc 16 := chance
        obtain ⟨n, dev, opened, made⟩ := create_opened serves memory holds.opens fresh
        exact ⟨n, fun m more _ => ⟨dev, opened, create_more made more⟩⟩
      · exact ⟨0, fun _ _ other => absurd other chance⟩
  obtain ⟨n', loaded⟩ := @enough_for_all (List Byte) paths
    (fun path fuel => ∀ c : Cache D × Byte,
      let dev : CdromBootDev D := ⟨c.1, volumeDescriptor disc,
        Buffer.slice (discByte disc root.1 0) 0 dirSize, rr.isSome, c.2⟩
      Opened disc root rr dev →
        ∃ dev', Opened disc root rr dev' ∧ fsCdromLoadFile host dev path fuel = some (.ok (dev', cdLoaded v path)))
    fun path inside => enough_for_each fun c => by
      dsimp only
      by_cases opened : Opened disc root rr
          ⟨c.1, volumeDescriptor disc, Buffer.slice (discByte disc root.1 0) 0 dirSize, rr.isSome, c.2⟩
      · obtain ⟨n, dev', opened', loaded⟩ := opened_load serves memory holds.opens holds.formed opened
          (holds.shallow path inside) (holds.ended path inside)
        rw [loadedFrom_volume holds inside] at loaded
        exact ⟨n, fun m more _ => ⟨dev', opened', loadFile_more loaded more⟩⟩
      · exact ⟨0, fun _ _ other => absurd other opened⟩
  refine ⟨max n n', fun fuel more => ⟨fun fresh chance => ?_, fun path inside dev opened => ?_⟩⟩
  · exact created fuel ((le_max_left n n').trans more) (fresh.boot, fresh.suspSkip) chance
  · obtain ⟨boot, voldesc, rootdir, marked, skip⟩ := dev
    obtain ⟨rfl, rfl, rfl⟩ := And.intro opened.voldesc (And.intro opened.rootdir opened.marked)
    exact loaded fuel ((le_max_right n n').trans more) path inside (boot, skip) opened

/-- A device of the others comes as it would without the drive. -/
theorem inl_comes {made : Option Concrete × σ} {dev : Option Abstract} (comes : Menu.Comes Idle Fit made dev)
    (sound : Sound disc root rr d) :
    Menu.Comes (fun x => Idle x.1 ∧ Sound disc root rr x.2) (Ready Idle Fit disc root rr) (made.1.map .inl, made.2, d)
      (dev.map .inl) := by
  obtain ⟨made, x⟩ := made
  obtain ⟨idle, same⟩ := comes
  refine ⟨⟨idle, sound⟩, ?_⟩
  cases same with
  | none => exact .none
  | some fit => exact .some ⟨sound, fit⟩

/-- The machine with a drive gives what it would without caches. -/
theorem withCd_refines (refines : Refines disk s Good Idle Fit)
    (created : ∀ fresh : CdromBootDev D, (fresh.boot.sectorInBuf = 16 → fresh.boot.tmpbuf = disc 16) →
      ∃ dev, Opened disc root rr dev ∧ cdromCreate host fresh fuel = some (.ok (some dev)))
    (loaded : ∀ path ∈ paths, ∀ dev, Opened disc root rr dev →
      ∃ dev', Opened disc root rr dev' ∧ fsCdromLoadFile host dev path fuel = some (.ok (dev', cdLoaded v path)))
    (chance : ∀ k, (fresh k).boot.sectorInBuf = 16 → (fresh k).boot.tmpbuf = disc 16)
    (menus : ∀ path ∈ menuPaths, path ∈ paths) :
    Refines (withCd disk host fresh fuel) (cdDevices s v) (fun path => Good path ∧ path ∈ paths)
      (fun x => Idle x.1 ∧ Sound disc root rr x.2) (Ready Idle Fit disc root rr) where
  table := refines.table
  menus path inside := ⟨refines.menus path inside, menus path inside⟩
  idle dev' dev x ready := by
    obtain ⟨sound, fit⟩ := ready
    rcases dev' with dev' | i
    · rcases dev with dev | ⟨⟩
      · exact ⟨refines.idle _ _ _ fit, sound⟩
      · exact fit.elim
    · rcases dev with dev | ⟨⟩
      · exact fit.elim
      · exact ⟨fit.1, sound⟩
  creates i partition x known idle := by
    have same : (cdDevices s v).create partition = (s.create partition).map .inl := Option.map_or.symm
    rw [same]
    exact inl_comes (refines.creates i partition x.1 known idle.1) idle.2
  tftp x idle := inl_comes (refines.tftp x.1 idle.1) idle.2
  cdrom x idle := by
    obtain ⟨dev, opened, made⟩ := created (onDrive x.2.phys (fresh x.2.made.length)) (chance _)
    have call : (withCd disk host fresh fuel).cdromCreate x =
        (some (.inr x.2.made.length), x.1, ⟨dev.boot.phys, x.2.made ++ [dev]⟩) := by
      simp only [withCd, Drive.create, made, Option.map_some]
    rw [call]
    have sound : Sound disc root rr ⟨dev.boot.phys, x.2.made ++ [dev]⟩ := by
      intro dev' inside
      rcases List.mem_append.mp inside with before | new
      · exact idle.2 dev' before
      · exact List.mem_singleton.mp new ▸ opened
    refine ⟨⟨idle.1, sound⟩, .some ⟨sound, idle.1, ?_⟩⟩
    rw [List.length_append]
    exact Nat.lt_succ_self _
  loads dev' dev path x ready good := by
    obtain ⟨sound, fit⟩ := ready
    rcases dev' with dev' | i
    · rcases dev with dev | ⟨⟩
      · obtain ⟨x', loads, fit⟩ := refines.loads _ _ path _ fit good.1
        refine ⟨(x', x.2), ?_, sound, fit⟩
        simp only [withCd, loads]
        rfl
      · exact fit.elim
    · rcases dev with dev | ⟨⟩
      · exact fit.elim
      · obtain ⟨idle, below⟩ := fit
        obtain ⟨dev', opened, loads⟩ := loaded path good.2 _
          (onDrive_opened (sound _ (List.getElem_mem below)) x.2.phys)
        refine ⟨(x.1, ⟨dev'.boot.phys, x.2.made.set i dev'⟩), ?_, ?_, idle, ?_⟩
        · simp only [withCd, Drive.load, List.getElem?_eq_getElem below, loads]
          rfl
        · intro other inside
          rcases List.mem_or_eq_of_mem_set inside with before | rfl
          · exact sound other before
          · exact opened
        · rw [List.length_set]
          exact below

end

/-- A machine whose drive has a disc in it gives what it would without caches, with fuel enough. -/
theorem machine_refines {σ Device D : Type} [Finite D] {w : Drivers σ Device} {length : RdbPartition → Word}
    {volume : RdbPartition → Option Volume} {On : Option RdbPartition → Phase → σ → Prop} {host : Host D}
    {disc : Word → Sector} {root : Word × Word} {rr : Option Byte} {entries : Word × Word → Listing} {v : Volume}
    {paths : List (List Byte)} {fresh : Nat → CdromBootDev D} (serves : Serves host.read disc)
    (memory : ∀ n, host.allocates n = true) (holds : Holds host disc root rr entries v (menuPaths ++ paths))
    (chance : ∀ k, (fresh k).boot.sectorInBuf = 16 → (fresh k).boot.tmpbuf = disc 16)
    (drives : Ext2.Serves w.ext2fs length volume On) (numbered : w.Numbered) :
    ∃ n, ∀ more, n ≤ more → Refines (withCd w.state host fresh more) (cdDevices (w.devices length volume) v)
      (fun path => True ∧ path ∈ menuPaths ++ paths) (fun x => (∃ q, On q .closed x.1) ∧ Sound disc root rr x.2)
      (Ready (fun x => ∃ q, On q .closed x) (Ext2.Ready w length volume On) disc root rr) := by
  obtain ⟨n, enough⟩ := enough_fuel serves memory holds
  refine ⟨n, fun more above => ?_⟩
  obtain ⟨created, loaded⟩ := enough more above
  exact withCd_refines (Ext2.state_refines drives numbered) created loaded chance
    fun path inside => List.mem_append_left _ inside

theorem unmade_sound {D : Type} (disc : Word → Sector) (root : Word × Word) (rr : Option Byte) (phys : D) :
    Sound disc root rr ⟨phys, []⟩ :=
  fun _ inside => absurd inside List.not_mem_nil

def alternateVolume : Volume := fun path =>
  (follow fold (lookupAs fold Node.file?) (fun _ => alternateRoot) (pathComponents path) (17, 2048)).map
    (extentContent alternateDisc)

private theorem alternateDisc_opens : Opens (steadyHost alternateDisc) alternateDisc (17, 2048) (some 0) := by
  have marked : AreaHas alternateDisc 17 34 12 "RR" (some marker) :=
    areaHas_laid [sharing, marker] [] "RR" (by decide) (by decide) (by decide)
  exact ⟨by decide, by decide, .shared (by decide) marked⟩

theorem extents_small (disc : Word → Sector) {entries : Word × Word → Listing} {root : Word × Word}
    {paths : List (List Byte)} (short : ∀ path ∈ paths,
      (follow fold (lookupAs fold Node.file?) entries (pathComponents path) root).all
        (fun place => place.2 < 2 ^ 31) = true) :
    ∀ path ∈ paths, ∀ content, (follow fold (lookupAs fold Node.file?) entries (pathComponents path) root).map
      (extentContent disc) = some content → content.length < 2 ^ 31 := by
  intro path inside content named
  obtain ⟨place, led, rfl⟩ := Option.map_eq_some_iff.mp named
  have small := short path inside
  rw [led] at small
  have length : (extentContent disc place).length = place.2.toNat := Buffer.slice_length
  rw [length]
  exact BitVec.lt_def.mp (of_decide_eq_true small)

theorem alternateDisc_holds :
    Holds (steadyHost alternateDisc) alternateDisc (17, 2048) (some 0) (fun _ => alternateRoot) alternateVolume
      (menuPaths ++ [chars "a", chars "k"]) :=
  ⟨alternateDisc_opens, alternateDisc_formed, by decide, by decide, fun _ _ => rfl,
    extents_small alternateDisc (by decide)⟩

end Parthenope.CdBoot
