import Parthenope.ArosStart
import Parthenope.DeviceState

/-! `bootstrap` on its devices, from the unit booted from to the end of the attempts. A load
leaves in memory what its device has; the outcomes that the attempts depend on are those of
devices without a state. -/
namespace Parthenope.DeviceBoot
open ByteMemory Menu
open CString hiding Word
open Bootstrap (Word Mem Load Bootm Argument Outcomes Buffers Event Machine Control ihMagic isStandalone isLinuxKernel
  imageHeaderAt opens titleFits ShortTitle)

/-- What is not the boot loader's: `bootm`, and whether a kernel that is called returns. -/
structure Firmware where
  bootm : Bootm → Option (Mem → Mem)
  kernelReturns : Bool

/-- What a load leaves in memory. -/
def put (buffer : Word) (content : List Byte) (m : Mem) : Mem := fun x =>
  if Within buffer content.length x then content.getD (x - buffer).toNat 0 else m x

/-- What follows a call that comes back, with the state of the devices. -/
def andThen {σ : Type} : Control × σ → (Machine → σ → Control × σ) → Control × σ
  | (.back m, s), f => f m s
  | (.gone m, s), _ => (.gone m, s)
  | (.overflow m, s), _ => (.overflow m, s)

def Firmware.start (firmware : Firmware) (site : Bootm) (argv : List Argument) (m : Machine) : Control :=
  match firmware.bootm site with
  | none => .gone (m.emit (.bootm argv))
  | some effect => .back ((m.emit (.bootm argv)).change effect)

section
variable {σ Device Partition : Type} (w : StateDevices σ Device Partition) (firmware : Firmware) (b : Buffers)

/-- `load_file`: its result, the machine and the devices after it. -/
def loadFile (dev : Device) (name : List Byte) (buffer : Word) (m : Machine) (s : σ) : Int × Machine × σ :=
  match w.loadFile dev name s with
  | (loaded, s) => (loaded.1, (m.emit (.load name buffer)).change (put buffer loaded.2), s)

/-- A file that is loaded if the entry names one. -/
def loadNamed (dev : Device) (name : Option (List Byte)) (buffer : Word) (m : Machine) (s : σ) : Machine × σ :=
  match name with
  | none => (m, s)
  | some name => (loadFile w dev name buffer m s).2

def testbootStandalone (m : Machine) (s : σ) : Control × σ :=
  if !isStandalone (imageHeaderAt m.mem b.kernel) then (.back m, s)
  else
    (firmware.start .standalone [.command, .address b.kernel] (m.emit (.setenv (chars "autostart") (chars "yes"))), s)

def testbootLinux (dev : Device) (entry : Entry) (m : Machine) (s : σ) : Control × σ :=
  if !isLinuxKernel (imageHeaderAt m.mem b.kernel) then (.back m, s)
  else
    match loadNamed w dev entry.initrd b.initrd (m.emit (.setenv (chars "bootargs") (entry.append.getD []))) s with
    | (m, s) =>
      match loadNamed w dev entry.dtb b.dtb m s with
      | (m, s) =>
        let initrd := match entry.initrd with
          | some _ => [Argument.address b.initrd]
          | none => if entry.dtb.isSome then [.none] else []
        let dtb := match entry.dtb with
          | some _ => [Argument.address b.dtb]
          | none => []
        (firmware.start .linux ([.command, .address b.kernel] ++ initrd ++ dtb) m, s)

/-- The loop over the modules in `testboot_aros`. -/
def arosModules (dev : Device) : List EntryObject → Machine → σ → (Bool × Machine) × σ
  | [], m, s => ((true, m), s)
  | module :: rest, m, s =>
    match loadFile w dev module.name b.file m s with
    | (length, m, s) =>
      if length < 0 then ((false, m), s)
      else
        match Elf.loadElfFile module.name b.file m.loader with
        | (false, loader) => ((false, { m with loader := loader }), s)
        | (true, loader) => arosModules dev rest { m with loader := loader } s

/-- The kernel and then its modules, with the title's line between the two. -/
def testbootAros (dev : Device) (entry : Entry) (m : Machine) (s : σ) : Control × σ :=
  match Elf.loadElfFile (entry.kernel.getD []) b.kernel m.loader with
  | (false, loader) => (.back { m with loader := loader }, s)
  | (true, loader) =>
    if !titleFits entry.title then (.overflow { m with loader := loader }, s)
    else
      match arosModules w b dev entry.modules { m with loader := loader } s with
      | ((false, m), s) => (.back m, s)
      | ((true, m), s) => (.gone (m.emit (.arosKernel m.loader.ptrRw m.loader.ptrRo entry.append)), s)

/-- The loop over the modules in `testboot_aos`, with the list it builds. -/
def aosModules (dev : Device) : List EntryObject → List (List Byte × Int) → Machine → σ →
    (Option (List (List Byte × Int)) × Machine) × σ
  | [], list, m, s => ((some list, m), s)
  | module :: rest, list, m, s =>
    match loadFile w dev module.name b.module m s with
    | (length, m, s) =>
      if length < 0 then ((none, m), s)
      else aosModules dev rest (list ++ [(module.name, length)]) m s

def testbootAos (dev : Device) (entry : Entry) (m : Machine) (s : σ) : Control × σ :=
  if !titleFits entry.title then (.overflow m, s)
  else
    match aosModules w b dev entry.modules [] m s with
    | ((none, m), s) => (.back m, s)
    | ((some list, m), s) =>
      let m := m.emit (.rawJump b.kernel list)
      (if firmware.kernelReturns then .back m else .gone m, s)

/-- `bootstrap` for the entry chosen, or none. -/
def bootstrap (boot : Option Device) (entry : Option Entry) (m : Machine) (s : σ) : Control × σ :=
  match entry with
  | none => (Bootstrap.exit m, s)
  | some entry =>
    match entry.other with
    | some name => (.back (m.emit (.bootu name)), s)
    | none =>
      match w.bootDevice boot entry s with
      | (none, s) => (Bootstrap.exit m, s)
      | (some dev, s) =>
        match loadFile w dev (entry.kernel.getD []) b.kernel m s with
        | (length, m, s) =>
          if length < 0 then (.back m, s)
          else
            andThen (testbootStandalone firmware b m s) fun m s =>
            andThen (testbootLinux w firmware b dev entry m s) fun m s =>
            andThen (testbootAros w b dev entry m s) fun m s =>
            andThen (testbootAos w firmware b dev entry m s) fun m s => (Bootstrap.exit m, s)

/-- All of `bootstrap`: the menu, and what becomes of the entry chosen in it. -/
def start (type : UnitType) (fuel : Nat) (scratch : Word × Word) (heap : Heap)
    (choose : Option (Except Fault (Option Addr × Heap)) → Option Entry) (loader : Elf.Loader) (s : σ) :
    (Option (Except Fault (Option Addr × Heap)) × Control) × σ :=
  match w.getBootingDevice type s with
  | (boot, s) =>
    match w.menuLoad boot fuel scratch heap s with
    | (menu, s) =>
      match bootstrap w firmware b boot (choose menu) (.start loader) s with
      | (control, s) => ((menu, control), s)

end

/-- The file that is loaded at each call. -/
def fileName (entry : Entry) : Load → List Byte
  | .kernel => entry.kernel.getD []
  | .initrd => entry.initrd.getD []
  | .dtb => entry.dtb.getD []
  | .arosModule i => ((entry.modules[i]?).map EntryObject.name).getD []
  | .aosModule i => ((entry.modules[i]?).map EntryObject.name).getD []

/-- The buffer that it is loaded into. -/
def bufferOf (b : Buffers) : Load → Word
  | .kernel => b.kernel
  | .initrd => b.initrd
  | .dtb => b.dtb
  | .arosModule _ => b.file
  | .aosModule _ => b.module

/-- The files of an entry. -/
def entryFiles (entry : Entry) : List (List Byte) :=
  entry.kernel.getD [] :: (entry.initrd.toList ++ entry.dtb.toList ++ entry.modules.map EntryObject.name)

/-- What is loaded at a call, from devices without a state. -/
def loadedAt {Device Partition : Type} (s : Devices Device Partition) (boot : Option Device) (entry : Entry)
    (site : Load) : Int × List Byte :=
  match s.bootDevice boot entry with
  | none => (-1, [])
  | some dev => s.loadFile dev (fileName entry site)

/-- The outcomes for an entry. -/
def outcomesOf {Device Partition : Type} (s : Devices Device Partition) (firmware : Firmware) (b : Buffers)
    (boot : Option Device) (entry : Entry) : Outcomes where
  bootingDevice := boot.isSome
  ide _ partition := ((s.rdbPartitionTableGet (partition.setWidth 8)).bind s.create).isSome
  tftp := s.tftpCreate.isSome
  cdrom := s.cdromCreate.isSome
  length site := (loadedAt s boot entry site).1
  read site := put (bufferOf b site) (loadedAt s boot entry site).2
  bootm := firmware.bootm
  kernelReturns := firmware.kernelReturns

section
variable {σ Concrete Abstract Partition : Type} {w : StateDevices σ Concrete Partition} {s : Devices Abstract Partition}
  {Good : List Byte → Prop} {Idle : σ → Prop} {Ready : Concrete → Abstract → σ → Prop} {dev' : Concrete}
  {dev : Abstract}
  {boot' : Option Concrete} {boot : Option Abstract} {x : σ} {entry : Entry}

/-- A load does what the outcome for its call says. -/
theorem loadFile_refines (refines : Refines w s Good Idle Ready) (opened : s.bootDevice boot entry = some dev)
    (ready : Ready dev' dev x) (firmware : Firmware) (b : Buffers) (m : Machine) (site : Load) (buffer : Word)
    {name : List Byte} (named : fileName entry site = name) (placed : bufferOf b site = buffer) (good : Good name) :
    ∃ x', loadFile w dev' name buffer m x = ((outcomesOf s firmware b boot entry).length site,
      (m.emit (.load name buffer)).change ((outcomesOf s firmware b boot entry).read site), x') ∧
        Ready dev' dev x' := by
  subst placed
  obtain ⟨x', loads, ready⟩ := refines.loads _ _ name _ ready good
  have same : loadedAt s boot entry site = s.loadFile dev name := by rw [loadedAt, opened, named]
  refine ⟨x', ?_, ready⟩
  rw [loadFile, loads]
  show _ = ((loadedAt s boot entry site).1, (m.emit _).change (put _ (loadedAt s boot entry site).2), x')
  rw [same]

private theorem loadNamed_refines (refines : Refines w s Good Idle Ready) (opened : s.bootDevice boot entry = some dev)
    (ready : Ready dev' dev x) (firmware : Firmware) (b : Buffers) (m : Machine) (site : Load)
    (buffer : Word) {name : Option (List Byte)}
    (named : ∀ path, name = some path → fileName entry site = path ∧ Good path) (placed : bufferOf b site = buffer) :
    ∃ x', loadNamed w dev' name buffer m x =
      (name.elim m fun path => (m.loadFile (outcomesOf s firmware b boot entry) site path buffer).2, x') ∧
      Ready dev' dev x' := by
  cases name with
  | none => exact ⟨x, rfl, ready⟩
  | some path =>
    obtain ⟨same, good⟩ := named path rfl
    obtain ⟨x', loaded, ready⟩ := loadFile_refines refines opened ready firmware b m site buffer same placed good
    exact ⟨x', by rw [loadNamed, loaded]; rfl, ready⟩

private theorem initrd_listed {path : List Byte} (named : entry.initrd = some path) : path ∈ entryFiles entry := by
  simp [entryFiles, named]

private theorem dtb_listed {path : List Byte} (named : entry.dtb = some path) : path ∈ entryFiles entry := by
  simp [entryFiles, named]

/-- Module `i` of an entry. -/
theorem module_here {i : Nat} {module : EntryObject} {rest : List EntryObject}
    (left : entry.modules.drop i = module :: rest) :
    ((entry.modules[i]?).map EntryObject.name).getD [] = module.name ∧ module.name ∈ entryFiles entry ∧
      entry.modules.drop (i + 1) = rest := by
  have here : entry.modules[i]? = some module := by rw [← List.head?_drop, left, List.head?_cons]
  refine ⟨by rw [here]; rfl, ?_, by rw [← List.tail_drop, left, List.tail_cons]⟩
  have listed := List.mem_map_of_mem (f := EntryObject.name) (List.mem_of_getElem? here)
  exact List.mem_cons_of_mem _ (List.mem_append_right _ listed)

/-- What follows a call, if the device is ready when it comes back. -/
theorem andThen_refines {f' : Machine → σ → Control × σ} {f : Machine → Control} (refines : Refines w s Good Idle Ready)
    (ready : Ready dev' dev x) (control : Control)
    (later : ∀ m x, Ready dev' dev x → ∃ x', f' m x = (f m, x') ∧ Idle x') :
    ∃ x', andThen (control, x) f' = (control.next f, x') ∧ Idle x' := by
  cases control with
  | back m => exact later m x ready
  | gone m => exact ⟨x, rfl, refines.idle _ _ _ ready⟩
  | overflow m => exact ⟨x, rfl, refines.idle _ _ _ ready⟩

private theorem linux_refines (refines : Refines w s Good Idle Ready) (opened : s.bootDevice boot entry = some dev)
    (ready : Ready dev' dev x) (good : ∀ path ∈ entryFiles entry, Good path) (firmware : Firmware) (b : Buffers)
    (m : Machine) :
    ∃ x', testbootLinux w firmware b dev' entry m x =
      (Bootstrap.testbootLinux (outcomesOf s firmware b boot entry) b entry m, x') ∧ Ready dev' dev x' := by
  rw [testbootLinux, Bootstrap.testbootLinux]
  by_cases mine : isLinuxKernel (imageHeaderAt m.mem b.kernel) = true
  · have other : ¬(!isLinuxKernel (imageHeaderAt m.mem b.kernel)) = true := by rw [mine]; decide
    rw [if_neg other, if_neg other]
    obtain ⟨x₁, initrd, ready⟩ := loadNamed_refines refines opened ready firmware b
      (m.emit (.setenv (chars "bootargs") (entry.append.getD []))) .initrd b.initrd
      (fun path same => ⟨by rw [fileName, same]; rfl, good path (initrd_listed same)⟩) rfl
    obtain ⟨x₂, dtb, ready⟩ := loadNamed_refines refines opened ready firmware b _ .dtb b.dtb
      (fun path same => ⟨by rw [fileName, same]; rfl, good path (dtb_listed same)⟩) rfl
    refine ⟨x₂, ?_, ready⟩
    rw [initrd]
    dsimp only
    rw [dtb]
    cases entry.initrd <;> cases entry.dtb <;> rfl
  · have other : (!isLinuxKernel (imageHeaderAt m.mem b.kernel)) = true := by
      rw [Bool.eq_false_of_not_eq_true mine]
      rfl
    rw [if_pos other, if_pos other]
    exact ⟨x, rfl, ready⟩

private theorem arosModules_refines (refines : Refines w s Good Idle Ready)
    (opened : s.bootDevice boot entry = some dev)
    (ready : Ready dev' dev x) (good : ∀ path ∈ entryFiles entry, Good path) (firmware : Firmware) (b : Buffers)
    {i : Nat} {modules : List EntryObject} (left : entry.modules.drop i = modules) (m : Machine) :
    ∃ x', arosModules w b dev' modules m x =
      (Bootstrap.arosModules (outcomesOf s firmware b boot entry) b i modules m, x') ∧ Ready dev' dev x' := by
  induction modules generalizing i m x with
  | nil => exact ⟨x, rfl, ready⟩
  | cons module rest ih =>
    obtain ⟨named, inside, next⟩ := module_here left
    obtain ⟨x₁, loaded, ready⟩ :=
      loadFile_refines refines opened ready firmware b m (.arosModule i) b.file named rfl (good _ inside)
    rw [arosModules, Bootstrap.arosModules, loaded]
    dsimp only [Machine.loadFile]
    by_cases missing : (outcomesOf s firmware b boot entry).length (.arosModule i) < 0
    · rw [if_pos missing, if_pos missing]
      exact ⟨x₁, rfl, ready⟩
    · rw [if_neg missing, if_neg missing]
      generalize Elf.loadElfFile module.name b.file _ = taken
      obtain ⟨accepted, loader⟩ := taken
      cases accepted with
      | false => exact ⟨x₁, rfl, ready⟩
      | true => exact ih ready next _

private theorem aros_refines (refines : Refines w s Good Idle Ready) (opened : s.bootDevice boot entry = some dev)
    (ready : Ready dev' dev x) (good : ∀ path ∈ entryFiles entry, Good path) (firmware : Firmware) (b : Buffers)
    (m : Machine) :
    ∃ x', testbootAros w b dev' entry m x =
      (Bootstrap.testbootAros (outcomesOf s firmware b boot entry) b entry m, x') ∧ Ready dev' dev x' := by
  rw [testbootAros, Bootstrap.testbootAros]
  generalize Elf.loadElfFile (entry.kernel.getD []) b.kernel m.loader = taken
  obtain ⟨accepted, loader⟩ := taken
  cases accepted with
  | false => exact ⟨x, rfl, ready⟩
  | true =>
    dsimp only
    cases titleFits entry.title with
    | false => exact ⟨x, rfl, ready⟩
    | true =>
      obtain ⟨x', loaded, ready⟩ := arosModules_refines refines opened ready good firmware b
        (show entry.modules.drop 0 = entry.modules from rfl) { m with loader := loader }
      refine ⟨x', ?_, ready⟩
      simp only [Bool.not_true, Bool.false_eq_true, if_false]
      rw [loaded]
      generalize Bootstrap.arosModules _ b 0 entry.modules { m with loader := loader } = result
      obtain ⟨complete, after⟩ := result
      cases complete <;> rfl

private theorem aosModules_refines (refines : Refines w s Good Idle Ready) (opened : s.bootDevice boot entry = some dev)
    (ready : Ready dev' dev x) (good : ∀ path ∈ entryFiles entry, Good path) (firmware : Firmware) (b : Buffers)
    {i : Nat} {modules : List EntryObject} (left : entry.modules.drop i = modules) (list : List (List Byte × Int))
    (m : Machine) :
    ∃ x', aosModules w b dev' modules list m x =
      (Bootstrap.aosModules (outcomesOf s firmware b boot entry) b i modules list m, x') ∧ Ready dev' dev x' := by
  induction modules generalizing i m x list with
  | nil => exact ⟨x, rfl, ready⟩
  | cons module rest ih =>
    obtain ⟨named, inside, next⟩ := module_here left
    obtain ⟨x₁, loaded, ready⟩ :=
      loadFile_refines refines opened ready firmware b m (.aosModule i) b.module named rfl (good _ inside)
    rw [aosModules, Bootstrap.aosModules, loaded]
    dsimp only [Machine.loadFile]
    by_cases missing : (outcomesOf s firmware b boot entry).length (.aosModule i) < 0
    · rw [if_pos missing, if_pos missing]
      exact ⟨x₁, rfl, ready⟩
    · rw [if_neg missing, if_neg missing]
      exact ih ready next _ _

private theorem aos_refines (refines : Refines w s Good Idle Ready) (opened : s.bootDevice boot entry = some dev)
    (ready : Ready dev' dev x) (good : ∀ path ∈ entryFiles entry, Good path) (firmware : Firmware) (b : Buffers)
    (m : Machine) :
    ∃ x', testbootAos w firmware b dev' entry m x =
      (Bootstrap.testbootAos (outcomesOf s firmware b boot entry) b entry m, x') ∧ Ready dev' dev x' := by
  rw [testbootAos, Bootstrap.testbootAos]
  cases titleFits entry.title with
  | false => exact ⟨x, rfl, ready⟩
  | true =>
    obtain ⟨x', loaded, ready⟩ := aosModules_refines refines opened ready good firmware b
      (show entry.modules.drop 0 = entry.modules from rfl) [] m
    refine ⟨x', ?_, ready⟩
    simp only [Bool.not_true, Bool.false_eq_true, if_false]
    rw [loaded]
    generalize Bootstrap.aosModules _ b 0 entry.modules [] m = result
    obtain ⟨list, after⟩ := result
    cases list <;> rfl

private theorem opens_device (firmware : Firmware) (b : Buffers) (entry : Entry) :
    opens (outcomesOf s firmware b boot entry) entry = (s.bootDevice boot entry).isSome := by
  rw [opens, Devices.bootDevice]
  cases entry.deviceType <;> rfl

private theorem standalone_same (s : Devices Abstract Partition) (boot : Option Abstract)
    (entry : Entry) (firmware : Firmware)
    (b : Buffers) (m : Machine) (x : σ) : testbootStandalone firmware b m x =
      (Bootstrap.testbootStandalone (outcomesOf s firmware b boot entry) b m, x) := by
  rw [testbootStandalone, Bootstrap.testbootStandalone]
  split <;> rfl

/-- The attempts, with the kernel in its buffer. -/
theorem attempts_refine (refines : Refines w s Good Idle Ready) (opened : s.bootDevice boot entry = some dev)
    (ready : Ready dev' dev x) (good : ∀ path ∈ entryFiles entry, Good path) (firmware : Firmware) (b : Buffers)
    (m : Machine) :
    ∃ x', (andThen (testbootStandalone firmware b m x) fun m s =>
        andThen (testbootLinux w firmware b dev' entry m s) fun m s =>
        andThen (testbootAros w b dev' entry m s) fun m s =>
        andThen (testbootAos w firmware b dev' entry m s) fun m s => (Bootstrap.exit m, s)) =
      ((Bootstrap.testbootStandalone (outcomesOf s firmware b boot entry) b m).next fun m =>
        (Bootstrap.testbootLinux (outcomesOf s firmware b boot entry) b entry m).next fun m =>
        (Bootstrap.testbootAros (outcomesOf s firmware b boot entry) b entry m).next fun m =>
        (Bootstrap.testbootAos (outcomesOf s firmware b boot entry) b entry m).next Bootstrap.exit, x') ∧ Idle x' := by
  rw [standalone_same s boot entry]
  refine andThen_refines refines ready _ fun m x ready => ?_
  obtain ⟨x₁, linux, ready⟩ := linux_refines refines opened ready good firmware b m
  rw [linux]
  refine andThen_refines refines ready _ fun m x ready => ?_
  obtain ⟨x₂, aros, ready⟩ := aros_refines refines opened ready good firmware b m
  rw [aros]
  refine andThen_refines refines ready _ fun m x ready => ?_
  obtain ⟨x₃, aos, ready⟩ := aos_refines refines opened ready good firmware b m
  rw [aos]
  exact andThen_refines refines ready _ fun m x ready => ⟨x, rfl, refines.idle _ _ _ ready⟩

/-- `bootstrap` gives what it would with these outcomes, and leaves the devices as they should be. -/
theorem bootstrap_refines (refines : Refines w s Good Idle Ready) (comes : Comes Idle Ready (boot', x) boot)
    (chosen : Option Entry) (good : ∀ entry, chosen = some entry → ∀ path ∈ entryFiles entry, Good path)
    (firmware : Firmware) (b : Buffers) (m : Machine) :
    ∃ x', bootstrap w firmware b boot' chosen m x =
      (Bootstrap.bootstrap (outcomesOf s firmware b boot (chosen.getD entryAlloc)) b chosen m, x') ∧ Idle x' := by
  cases chosen with
  | none => exact ⟨x, rfl, comes.1⟩
  | some entry =>
    have good := good entry rfl
    rw [bootstrap, Bootstrap.bootstrap, Option.getD_some, opens_device]
    cases entry.other with
    | some name => exact ⟨x, rfl, comes.1⟩
    | none =>
      have comes := bootDevice_comes refines comes entry
      generalize w.bootDevice boot' entry x = made at comes ⊢
      obtain ⟨device, x₁⟩ := made
      obtain ⟨idle, same⟩ := comes
      cases opened : s.bootDevice boot entry with
      | none =>
        rw [opened] at same
        cases same
        exact ⟨x₁, rfl, idle⟩
      | some dev =>
        rw [opened] at same
        cases same with
        | @some dev' _ ready =>
          obtain ⟨x₂, loaded, ready⟩ := loadFile_refines refines opened ready firmware b m .kernel b.kernel
            (show fileName entry .kernel = entry.kernel.getD [] from rfl) rfl (good _ List.mem_cons_self)
          simp only [Option.isSome_some, Bool.not_true, Bool.false_eq_true, if_false, Machine.loadFile, loaded]
          by_cases missing : (outcomesOf s firmware b boot entry).length .kernel < 0
          · rw [if_pos missing]
            exact ⟨x₂, Prod.ext (if_pos missing).symm rfl, refines.idle _ _ _ ready⟩
          · rw [if_neg missing]
            obtain ⟨x', attempts, idle⟩ := attempts_refine refines opened ready good firmware b _
            exact ⟨x', attempts.trans (Prod.ext (if_neg missing).symm rfl), idle⟩

end

/-- From the unit booted from to the end of the attempts, whatever is chosen in the menu, the
boot loader does on these devices what it does with the outcomes that devices without a state
have for that entry. -/
theorem start_refines {σ Concrete Abstract Partition : Type} {w : StateDevices σ Concrete Partition}
    {s : Devices Abstract Partition} {Good : List Byte → Prop} {Idle : σ → Prop}
    {Ready : Concrete → Abstract → σ → Prop}
    {x : σ} (refines : Refines w s Good Idle Ready) (idle : Idle x) (firmware : Firmware) (b : Buffers)
    (type : UnitType)
    (fuel : Nat) (scratch : Word × Word) (heap : Heap) (loader : Elf.Loader)
    {choose : Option (Except Fault (Option Addr × Heap)) → Option Entry}
    (good : ∀ entry, choose (s.menuLoad (s.getBootingDevice type) fuel scratch heap) = some entry →
      ∀ path ∈ entryFiles entry, Good path) :
    let boot := s.getBootingDevice type
    let menu := s.menuLoad boot fuel scratch heap
    ∃ x', start w firmware b type fuel scratch heap choose loader x =
      ((menu, Bootstrap.bootstrap (outcomesOf s firmware b boot ((choose menu).getD entryAlloc)) b (choose menu)
        (.start loader)), x') ∧ Idle x' := by
  intro boot menu
  have comes := bootingDevice_comes refines idle type
  rw [start]
  generalize w.getBootingDevice type x = made at comes ⊢
  obtain ⟨boot', x₁⟩ := made
  obtain ⟨x₂, loaded, comes⟩ := menuLoad_refines refines comes fuel scratch heap
  obtain ⟨x₃, booted, idle⟩ := bootstrap_refines refines comes (choose menu) good firmware b (.start loader)
  refine ⟨x₃, ?_, idle⟩
  dsimp only
  rw [loaded]
  dsimp only
  rw [booted]

/-- The files that `testboot_aros` loads. -/
def arosFiles (entry : Entry) : List (List Byte) := entry.kernel.getD [] :: entry.modules.map EntryObject.name

/-- The calls of `load_elf_file` for modules, each with its file in the buffer. -/
def moduleCalls (v : Volume) (b : Buffers) : List EntryObject → Elf.Loader → List ElfLayout.LoadCall
  | [], _ => []
  | module :: rest, loader =>
    let call : ElfLayout.LoadCall := ⟨module.name, b.file, put b.file ((v module.name).getD []) loader.mem⟩
    call :: moduleCalls v b rest (ElfLayout.loadFiles loader [call])

section
variable {Device Partition : Type} {s : Devices Device Partition} {v : Volume} {boot : Option Device} {entry : Entry}
  {dev : Device} {m : Mem}

/-- A device has these files as they are on a volume. -/
def HasFiles (s : Devices Device Partition) (dev : Device) (v : Volume) (paths : List (List Byte)) : Prop :=
  ∀ path ∈ paths, ∃ content, v path = some content ∧ s.loadFile dev path = ((content.length : Int), content)

theorem HasFiles.loaded {paths : List (List Byte)} (files : HasFiles s dev v paths)
    (opened : s.bootDevice boot entry = some dev) (firmware : Firmware) (b : Buffers) (site : Load)
    (inside : fileName entry site ∈ paths) :
    (outcomesOf s firmware b boot entry).length site = ((v (fileName entry site)).getD []).length ∧
      (outcomesOf s firmware b boot entry).read site =
        put (bufferOf b site) ((v (fileName entry site)).getD []) := by
  obtain ⟨content, here, loads⟩ := files _ inside
  have same : loadedAt s boot entry site = ((content.length : Int), content) := by
    rw [loadedAt, opened]
    exact loads
  rw [here, Option.getD_some]
  constructor
  · show (loadedAt s boot entry site).1 = _
    rw [same]
  · show put _ (loadedAt s boot entry site).2 = _
    rw [same]

/-- The file of a module is one of them. -/
theorem module_file {k : Nat} (below : k < entry.modules.length) :
    fileName entry (.arosModule k) = entry.modules[k].name ∧ fileName entry (.aosModule k) = entry.modules[k].name ∧
      entry.modules[k].name ∈ arosFiles entry := by
  have here : entry.modules[k]? = some entry.modules[k] := List.getElem?_eq_getElem below
  have named : ((entry.modules[k]?).map EntryObject.name).getD [] = entry.modules[k].name := by
    rw [here]
    rfl
  exact ⟨named, named, List.mem_cons_of_mem _ (List.mem_map_of_mem (List.getElem_mem below))⟩

theorem HasFiles.attempted (files : HasFiles s dev v (arosFiles entry)) (opened : s.bootDevice boot entry = some dev)
    (direct : entry.other = none) (firmware : Firmware) (b : Buffers) :
    Bootstrap.Attempted (outcomesOf s firmware b boot entry) entry := by
  refine ⟨direct, ?_, ?_⟩
  · rw [opens_device, opened]
    rfl
  · rw [(files.loaded opened firmware b .kernel List.mem_cons_self).1]
    exact Int.natCast_nonneg _

end

end Parthenope.DeviceBoot
