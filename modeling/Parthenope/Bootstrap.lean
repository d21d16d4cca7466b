import Parthenope.Elf
import Parthenope.Menu

/-! The boot attempts of `parthenope.c`, from the entry chosen in the menu on.
What the surroundings do is one `Outcomes`: every call site runs at most once,
so it says for each of them what is returned and what happens to the memory.
Drawing on the screen, messages and the cache are left out, but not the line that
is put together for the screen in a buffer of its own. -/
namespace Parthenope.Bootstrap
open ByteMemory CString Menu

abbrev Word := Elf.Word
abbrev Mem := Elf.Mem

def ihMagic : Word := 0x27051956
def ihTypeStandalone : BitVec 8 := 1
def ihTypeKernel : BitVec 8 := 2
def ihOsLinux : BitVec 8 := 5

/-- `image_header_t`, the fields read here. -/
structure ImageHeader where
  magic : Word
  os : BitVec 8
  type : BitVec 8

def imageHeaderAt (m : Mem) (p : Word) : ImageHeader where
  magic := load32 m p
  os := m (p + 28)
  type := m (p + 30)

/-- The calls of `load_file`. -/
inductive Load
  | kernel
  | initrd
  | dtb
  | arosModule (i : Nat)
  | aosModule (i : Nat)

/-- The two calls of `bootm`. -/
inductive Bootm
  | standalone
  | linux

inductive Argument
  | command
  | address (p : Word)
  | none

/-- What the calls return and do in one run; `bootm` may not return. -/
structure Outcomes where
  bootingDevice : Bool
  ide : Word → Word → Bool
  tftp : Bool
  cdrom : Bool
  length : Load → Int
  read : Load → Mem → Mem
  bootm : Bootm → Option (Mem → Mem)
  kernelReturns : Bool

/-- The addresses `malloc` gives. -/
structure Buffers where
  kernel : Word
  file : Word
  module : Word
  initrd : Word
  dtb : Word

inductive Event
  | setenv (name value : List Byte)
  | load (name : List Byte) (buffer : Word)
  | bootm (argv : List Argument)
  /-- The AROS kernel gets its bounds and command line and keeps control. -/
  | arosKernel (lowest highest : Word) (cmdLine : Option (List Byte))
  /-- The jump into the buffer, with the modules' names and lengths. -/
  | rawJump (buffer : Word) (modules : List (List Byte × Int))
  | bootu (name : List Byte)
  | prompt

structure Machine where
  loader : Elf.Loader
  trace : List Event

/-- A call comes back, or what it started keeps control, or it writes over the end of its
buffer, and what follows is open. -/
inductive Control
  | back (m : Machine)
  | gone (m : Machine)
  | overflow (m : Machine)

def Control.machine : Control → Machine
  | .back m => m
  | .gone m => m
  | .overflow m => m

/-- What follows a call that comes back. -/
def Control.next : Control → (Machine → Control) → Control
  | .back m, f => f m
  | .gone m, _ => .gone m
  | .overflow m, _ => .overflow m

namespace Machine

def mem (m : Machine) : Mem := m.loader.mem

def emit (m : Machine) (e : Event) : Machine := { m with trace := m.trace ++ [e] }

def change (m : Machine) (f : Mem → Mem) : Machine :=
  { m with loader := { m.loader with mem := f m.loader.mem } }

/-- `load_file`: its result and the machine after it. -/
def loadFile (o : Outcomes) (site : Load) (name : List Byte) (buffer : Word) (m : Machine) :
    Int × Machine :=
  (o.length site, (m.emit (.load name buffer)).change (o.read site))

def bootm (o : Outcomes) (site : Bootm) (argv : List Argument) (m : Machine) : Control :=
  match o.bootm site with
  | none => .gone (m.emit (.bootm argv))
  | some effect => .back ((m.emit (.bootm argv)).change effect)

end Machine

/-- The test of `testboot_standalone`. -/
def isStandalone (header : ImageHeader) : Bool :=
  header.magic == ihMagic && header.type == ihTypeStandalone

/-- The test of `testboot_linux`. -/
def isLinuxKernel (header : ImageHeader) : Bool :=
  header.magic == ihMagic && header.type == ihTypeKernel && header.os == ihOsLinux

def testbootStandalone (o : Outcomes) (b : Buffers) (m : Machine) : Control :=
  if !isStandalone (imageHeaderAt m.mem b.kernel) then .back m
  else
    (m.emit (.setenv (chars "autostart") (chars "yes"))).bootm o .standalone
      [.command, .address b.kernel]

/-- The initial RAM disk and the device tree are loaded where the entry names
them; whether that succeeds is not looked at. -/
def testbootLinux (o : Outcomes) (b : Buffers) (entry : Entry) (m : Machine) : Control :=
  if !isLinuxKernel (imageHeaderAt m.mem b.kernel) then .back m
  else
    let m := m.emit (.setenv (chars "bootargs") (entry.append.getD []))
    let (m, initrd) := match entry.initrd with
      | some name => ((m.loadFile o .initrd name b.initrd).2, [Argument.address b.initrd])
      | none => (m, if entry.dtb.isSome then [.none] else [])
    let (m, dtb) := match entry.dtb with
      | some name => ((m.loadFile o .dtb name b.dtb).2, [Argument.address b.dtb])
      | none => (m, [])
    m.bootm o .linux ([.command, .address b.kernel] ++ initrd ++ dtb)

/-- The loop over the modules in `testboot_aros`, from module `i` on. -/
def arosModules (o : Outcomes) (b : Buffers) : Nat → List EntryObject → Machine → Bool × Machine
  | _, [], m => (true, m)
  | i, module :: rest, m =>
    match m.loadFile o (.arosModule i) module.name b.file with
    | (length, m) =>
      if length < 0 then (false, m)
      else
        match Elf.loadElfFile module.name b.file m.loader with
        | (false, loader) => (false, { m with loader := loader })
        | (true, loader) => arosModules o b (i + 1) rest { m with loader := loader }

/-- The bytes of `tmpbuf`. -/
def tmpbufSize : Nat := 100

/-- Whether `sprintf (tmpbuf, "Booting %s", title)` ends inside the buffer. -/
def titleFits (title : Option (List Byte)) : Bool :=
  match title with
  | none => false
  | some title => (chars "Booting ").length + title.length + 1 ≤ tmpbufSize

/-- The kernel and then its modules. The line with the title is written between the two. -/
def testbootAros (o : Outcomes) (b : Buffers) (entry : Entry) (m : Machine) : Control :=
  match Elf.loadElfFile (entry.kernel.getD []) b.kernel m.loader with
  | (false, loader) => .back { m with loader := loader }
  | (true, loader) =>
    if !titleFits entry.title then .overflow { m with loader := loader }
    else
      match arosModules o b 0 entry.modules { m with loader := loader } with
      | (false, m) => .back m
      | (true, m) => .gone (m.emit (.arosKernel m.loader.ptrRw m.loader.ptrRo entry.append))

/-- The loop over the modules in `testboot_aos`, with the list it builds. -/
def aosModules (o : Outcomes) (b : Buffers) : Nat → List EntryObject → List (List Byte × Int) →
    Machine → Option (List (List Byte × Int)) × Machine
  | _, [], list, m => (some list, m)
  | i, module :: rest, list, m =>
    match m.loadFile o (.aosModule i) module.name b.module with
    | (length, m) =>
      if length < 0 then (none, m)
      else aosModules o b (i + 1) rest (list ++ [(module.name, length)]) m

/-- The kernel is called where it was loaded, and may return. -/
def testbootAos (o : Outcomes) (b : Buffers) (entry : Entry) (m : Machine) : Control :=
  if !titleFits entry.title then .overflow m
  else
    match aosModules o b 0 entry.modules [] m with
    | (none, m) => .back m
    | (some list, m) =>
      let m := m.emit (.rawJump b.kernel list)
      if o.kernelReturns then .back m else .gone m

/-- Whether a boot device stands open once the entry's own is opened. -/
def opens (o : Outcomes) (entry : Entry) : Bool :=
  match entry.deviceType with
  | .default => o.bootingDevice
  | .ide => o.ide entry.deviceNum entry.partition
  | .tftp => o.tftp
  | .cd => o.cdrom

/-- The label `exit`. -/
def exit (m : Machine) : Control := .back (m.emit .prompt)

/-- `bootstrap` for the entry chosen, or none. -/
def bootstrap (o : Outcomes) (b : Buffers) (entry : Option Entry) (m : Machine) : Control :=
  match entry with
  | none => exit m
  | some entry =>
    match entry.other with
    | some name => .back (m.emit (.bootu name))
    | none =>
      if !opens o entry then exit m
      else
        match m.loadFile o .kernel (entry.kernel.getD []) b.kernel with
        | (length, m) =>
          if length < 0 then .back m
          else
            (testbootStandalone o b m).next fun m =>
            (testbootLinux o b entry m).next fun m =>
            (testbootAros o b entry m).next fun m =>
            (testbootAos o b entry m).next exit

end Parthenope.Bootstrap
