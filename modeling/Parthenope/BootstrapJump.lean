import Parthenope.Bootstrap

/-! When `bootstrap` jumps into the kernel buffer. Every attempt comes back both
for an image that is not its own and for one it could not start, so the last
attempt also gets images an earlier one has recognised. -/
namespace Parthenope.Bootstrap
open ByteMemory CString Menu

/-- One of the first three attempts takes the image for its own. -/
def Recognised (image : Mem) (p : Word) : Prop :=
  isStandalone (imageHeaderAt image p) = true ∨ isLinuxKernel (imageHeaderAt image p) = true ∨
    Elf.checkHeader (Elf.elfHeaderAt image p) = true

def Machine.start (loader : Elf.Loader) : Machine := ⟨loader, []⟩

def Machine.Jumped (m : Machine) : Prop := ∃ buffer modules, Event.rawJump buffer modules ∈ m.trace

/-- The calls made before the last test leave the headers in the kernel buffer alone. -/
structure Outcomes.KeepsHeader (o : Outcomes) (p : Word) : Prop where
  initrd : ∀ m, SameAt (o.read .initrd m) m p 64
  dtb : ∀ m, SameAt (o.read .dtb m) m p 64
  bootm : ∀ site effect, o.bootm site = some effect → ∀ m, SameAt (effect m) m p 64

section
variable {m m' : Machine} {image image' : Mem} {p : Word} {o : Outcomes} {b : Buffers} {entry : Entry}

private theorem imageHeader_same (same : SameAt image image' p 64) :
    imageHeaderAt image p = imageHeaderAt image' p := by
  have word := load32_congr (by decide) (same.part (k := 0) (n := 4) (by decide))
  simp only [BitVec.add_zero] at word
  simp only [imageHeaderAt, word, ImageHeader.mk.injEq, true_and]
  exact ⟨same.at (k := 28) (by decide), same.at (k := 30) (by decide)⟩

private theorem elfHeader_same (same : SameAt image image' p 64) :
    Elf.checkHeader (Elf.elfHeaderAt image p) = Elf.checkHeader (Elf.elfHeaderAt image' p) := by
  have ident : (Elf.elfHeaderAt image p).ident = (Elf.elfHeaderAt image' p).ident :=
    funext fun i => same.at (by omega)
  have type : (Elf.elfHeaderAt image p).type = (Elf.elfHeaderAt image' p).type :=
    load16_congr (by decide) (same.part (k := 16) (by decide))
  have machine : (Elf.elfHeaderAt image p).machine = (Elf.elfHeaderAt image' p).machine :=
    load16_congr (by decide) (same.part (k := 18) (by decide))
  unfold Elf.checkHeader
  rw [ident, type, machine]

/-- The first byte of the magic number is not that of an ELF file. -/
theorem magic_not_elf (magic : (imageHeaderAt image p).magic = ihMagic) :
    Elf.checkHeader (Elf.elfHeaderAt image p) = false := by
  have first : image p = 0x27 := by
    have top : (load32 image p).extractLsb' 24 8 = image p := by
      ext i small
      rw [← BitVec.getLsbD_eq_getElem, ← BitVec.getLsbD_eq_getElem]
      simp only [load32]
      grind
    rw [← top, show load32 image p = ihMagic from magic]
    decide
  have ident : (Elf.elfHeaderAt image p).ident 0 = 0x27 := by
    rw [← first]
    exact congrArg image (BitVec.add_zero p)
  rw [Elf.checkHeader, if_pos]
  left
  rw [ident]
  decide

private theorem standalone_magic (mine : isStandalone (imageHeaderAt image p) = true) :
    (imageHeaderAt image p).magic = ihMagic ∧ isLinuxKernel (imageHeaderAt image p) = false := by
  simp only [isStandalone, Bool.and_eq_true, beq_iff_eq] at mine
  refine ⟨mine.1, ?_⟩
  simp [isLinuxKernel, mine.2, ihTypeStandalone, ihTypeKernel]

private theorem linux_magic (mine : isLinuxKernel (imageHeaderAt image p) = true) :
    (imageHeaderAt image p).magic = ihMagic ∧ isStandalone (imageHeaderAt image p) = false := by
  simp only [isLinuxKernel, Bool.and_eq_true, beq_iff_eq] at mine
  refine ⟨mine.1.1, ?_⟩
  simp [isStandalone, mine.1.2, ihTypeStandalone, ihTypeKernel]

private theorem not_elf_of_standalone (mine : isStandalone (imageHeaderAt image p) = true) :
    Elf.checkHeader (Elf.elfHeaderAt image p) = false := magic_not_elf (standalone_magic mine).1

private theorem not_elf_of_linux (mine : isLinuxKernel (imageHeaderAt image p) = true) :
    Elf.checkHeader (Elf.elfHeaderAt image p) = false := magic_not_elf (linux_magic mine).1

end

/-- From module `i` on, every file is read and taken by `load_elf_file`. -/
def ModulesLoad (o : Outcomes) (b : Buffers) : Nat → List EntryObject → Elf.Loader → Prop
  | _, [], _ => True
  | i, module :: rest, loader =>
    let filled := { loader with mem := o.read (.arosModule i) loader.mem }
    0 ≤ o.length (.arosModule i) ∧ (Elf.loadElfFile module.name b.file filled).1 = true ∧
      ModulesLoad o b (i + 1) rest (Elf.loadElfFile module.name b.file filled).2

/-- The AROS kernel is taken by `load_elf_file`. -/
def KernelTaken (b : Buffers) (entry : Entry) (loader : Elf.Loader) : Prop :=
  (Elf.loadElfFile (entry.kernel.getD []) b.kernel loader).1 = true

/-- The AROS kernel and all its modules load and relocate. -/
def ArosLoads (o : Outcomes) (b : Buffers) (entry : Entry) (loader : Elf.Loader) : Prop :=
  KernelTaken b entry loader ∧
    ModulesLoad o b 0 entry.modules (Elf.loadElfFile (entry.kernel.getD []) b.kernel loader).2

/-- The title is one that the buffer of 100 bytes has room for, behind `Booting `. -/
def ShortTitle (entry : Entry) : Prop := ∃ title, entry.title = some title ∧ title.length ≤ 91

/-- The entry's kernel is read at all. -/
def Attempted (o : Outcomes) (entry : Entry) : Prop :=
  entry.other = none ∧ opens o entry = true ∧ 0 ≤ o.length .kernel

/-- The attempt that takes the image for its own gives up: `bootm` returns, or
the AROS kernel or a module is missing, refused or not relocated. -/
def GivesUp (o : Outcomes) (b : Buffers) (entry : Entry) (loader : Elf.Loader) : Prop :=
  (isStandalone (imageHeaderAt loader.mem b.kernel) = true ∧ (o.bootm .standalone).isSome = true) ∨
  (isLinuxKernel (imageHeaderAt loader.mem b.kernel) = true ∧ (o.bootm .linux).isSome = true) ∨
  (Elf.checkHeader (Elf.elfHeaderAt loader.mem b.kernel) = true ∧ ¬ ArosLoads o b entry loader)

/-- The loader once the kernel is read. -/
def kernelRead (o : Outcomes) (loader : Elf.Loader) : Elf.Loader :=
  { loader with mem := o.read .kernel loader.mem }

/-- A recognised image is never jumped into, nothing is written over the end of a
buffer that would leave this open, and an attempt that gives up ends at the prompt. -/
structure Rejects (o : Outcomes) (b : Buffers) (entry : Entry) (loader : Elf.Loader) : Prop where
  unexecuted : Recognised (kernelRead o loader).mem b.kernel →
    ¬ (bootstrap o b (some entry) (.start loader)).machine.Jumped
  inside : Recognised (kernelRead o loader).mem b.kernel →
    ∀ m, bootstrap o b (some entry) (.start loader) ≠ .overflow m
  prompted : Attempted o entry → GivesUp o b entry (kernelRead o loader) →
    ∃ m, bootstrap o b (some entry) (.start loader) = .back m ∧ m.trace.getLast? = some .prompt

/-- The first three attempts. -/
def attempts (o : Outcomes) (b : Buffers) (entry : Entry) (m : Machine) : Control :=
  (testbootStandalone o b m).next fun m => (testbootLinux o b entry m).next (testbootAros o b entry)

section
variable {m m' : Machine} {c : Control} {o : Outcomes} {b : Buffers} {entry : Entry}
  {loader : Elf.Loader} {e : Event}

@[simp] theorem Control.next_back (f : Machine → Control) : (Control.back m).next f = f m := rfl

@[simp] theorem Control.next_gone (f : Machine → Control) :
    (Control.gone m).next f = .gone m := rfl

@[simp] theorem Control.next_overflow (f : Machine → Control) :
    (Control.overflow m).next f = .overflow m := rfl

private theorem Control.next_assoc (f g : Machine → Control) :
    (c.next f).next g = c.next fun m => (f m).next g := by
  cases c <;> rfl

private theorem jumped_emit (other : ∀ buffer modules, e ≠ .rawJump buffer modules) :
    (m.emit e).Jumped ↔ m.Jumped := by
  unfold Machine.Jumped Machine.emit
  constructor
  · rintro ⟨buffer, modules, inside⟩
    rcases List.mem_append.mp inside with earlier | last
    · exact ⟨buffer, modules, earlier⟩
    · exact absurd (List.mem_singleton.mp last).symm (other buffer modules)
  · rintro ⟨buffer, modules, inside⟩
    exact ⟨buffer, modules, List.mem_append_left _ inside⟩

private theorem jumped_change (f : Mem → Mem) : (m.change f).Jumped ↔ m.Jumped := Iff.rfl

private theorem jumped_loadFile (site : Load) (name : List Byte) (buffer : Word) :
    (m.loadFile o site name buffer).2.Jumped ↔ m.Jumped := by
  unfold Machine.loadFile
  rw [jumped_change]
  exact jumped_emit (by simp)

/-- What comes back from `bootm` keeps the headers. -/
theorem bootm_control (keeps : o.KeepsHeader b.kernel) (site : Bootm) (argv : List Argument) :
    ∃ m', (m'.Jumped ↔ m.Jumped) ∧ SameAt m'.mem m.mem b.kernel 64 ∧
      m.bootm o site argv = if (o.bootm site).isSome then .back m' else .gone m' := by
  have quiet : (m.emit (.bootm argv)).Jumped ↔ m.Jumped := jumped_emit (by simp)
  unfold Machine.bootm
  cases returned : o.bootm site with
  | none => exact ⟨m.emit (.bootm argv), quiet, fun _ _ => rfl, by simp⟩
  | some effect =>
    refine ⟨(m.emit (.bootm argv)).change effect, quiet, ?_, by simp⟩
    exact keeps.bootm site effect returned m.mem

/-- `testboot_standalone` does nothing to an image that is not its own. -/
theorem standalone_skips (other : isStandalone (imageHeaderAt m.mem b.kernel) = false) :
    testbootStandalone o b m = .back m := by
  unfold testbootStandalone
  simp only [other, Bool.not_false, if_true]

private theorem standalone_control (keeps : o.KeepsHeader b.kernel)
    (mine : isStandalone (imageHeaderAt m.mem b.kernel) = true) :
    ∃ m', (m'.Jumped ↔ m.Jumped) ∧ SameAt m'.mem m.mem b.kernel 64 ∧
      testbootStandalone o b m =
        if (o.bootm .standalone).isSome then .back m' else .gone m' := by
  obtain ⟨m', quiet, same, control⟩ :=
    bootm_control (m := m.emit (.setenv (chars "autostart") (chars "yes"))) keeps .standalone
      [.command, .address b.kernel]
  refine ⟨m', quiet.trans (jumped_emit (by simp)), same, ?_⟩
  unfold testbootStandalone
  simpa only [mine, Bool.not_true, Bool.false_eq_true, if_false] using control

theorem linux_skips (other : isLinuxKernel (imageHeaderAt m.mem b.kernel) = false) :
    testbootLinux o b entry m = .back m := by
  unfold testbootLinux
  simp only [other, Bool.not_false, if_true]

private theorem linux_control (entry : Entry) (keeps : o.KeepsHeader b.kernel)
    (mine : isLinuxKernel (imageHeaderAt m.mem b.kernel) = true) :
    ∃ m', (m'.Jumped ↔ m.Jumped) ∧ SameAt m'.mem m.mem b.kernel 64 ∧
      testbootLinux o b entry m = if (o.bootm .linux).isSome then .back m' else .gone m' := by
  have starts : (m.emit (.setenv (chars "bootargs") (entry.append.getD []))).Jumped ↔ m.Jumped :=
    jumped_emit (by simp)
  unfold testbootLinux
  simp only [mine, Bool.not_true, Bool.false_eq_true, if_false]
  cases entry.initrd with
  | none =>
    cases entry.dtb with
    | none =>
      obtain ⟨m', quiet, same, control⟩ := bootm_control keeps .linux _
      exact ⟨m', quiet.trans starts, same, control⟩
    | some dtb =>
      obtain ⟨m', quiet, same, control⟩ := bootm_control keeps .linux _
      refine ⟨m', (quiet.trans (jumped_loadFile .dtb dtb b.dtb)).trans starts, ?_, control⟩
      exact fun x inside => (same x inside).trans (keeps.dtb _ x inside)
  | some initrd =>
    cases entry.dtb with
    | none =>
      obtain ⟨m', quiet, same, control⟩ := bootm_control keeps .linux _
      refine ⟨m', (quiet.trans (jumped_loadFile .initrd initrd b.initrd)).trans starts, ?_, control⟩
      exact fun x inside => (same x inside).trans (keeps.initrd _ x inside)
    | some dtb =>
      obtain ⟨m', quiet, same, control⟩ := bootm_control keeps .linux _
      refine ⟨m', (quiet.trans (jumped_loadFile .dtb dtb b.dtb)).trans
        ((jumped_loadFile .initrd initrd b.initrd).trans starts), ?_, control⟩
      intro x inside
      exact (same x inside).trans ((keeps.dtb _ x inside).trans (keeps.initrd _ x inside))

private theorem arosModules_jumped (i : Nat) (modules : List EntryObject) :
    (arosModules o b i modules m).2.Jumped ↔ m.Jumped := by
  induction modules generalizing i m with
  | nil => exact Iff.rfl
  | cons module rest ih =>
    have loaded := jumped_loadFile (m := m) (o := o) (.arosModule i) module.name b.file
    unfold arosModules
    by_cases missing : o.length (.arosModule i) < 0
    · simpa only [Machine.loadFile, missing, if_true] using loaded
    · simp only [Machine.loadFile, missing, if_false]
      cases elf : Elf.loadElfFile module.name b.file
          ((m.emit (.load module.name b.file)).change (o.read (.arosModule i))).loader with
      | mk accepted after =>
        cases accepted with
        | false => exact loaded
        | true => exact (ih (i + 1)).trans loaded

private theorem arosModules_loads (i : Nat) (modules : List EntryObject) :
    (arosModules o b i modules m).1 = true ↔ ModulesLoad o b i modules m.loader := by
  induction modules generalizing i m with
  | nil => simp only [arosModules, ModulesLoad]
  | cons module rest ih =>
    unfold arosModules ModulesLoad
    by_cases missing : o.length (.arosModule i) < 0
    · have negative : ¬ 0 ≤ o.length (.arosModule i) := Int.not_le.mpr missing
      simp only [Machine.loadFile, missing, if_true, negative, false_and, Bool.false_eq_true]
    · have read : 0 ≤ o.length (.arosModule i) := Int.not_lt.mp missing
      simp only [Machine.loadFile, missing, if_false, read, true_and]
      change _ ↔ (Elf.loadElfFile module.name b.file
        ((m.emit (.load module.name b.file)).change (o.read (.arosModule i))).loader).1 = true ∧
        ModulesLoad o b (i + 1) rest (Elf.loadElfFile module.name b.file
          ((m.emit (.load module.name b.file)).change (o.read (.arosModule i))).loader).2
      cases Elf.loadElfFile module.name b.file
          ((m.emit (.load module.name b.file)).change (o.read (.arosModule i))).loader with
      | mk accepted after =>
        cases accepted with
        | false => simp only [Bool.false_eq_true, false_and]
        | true => simpa only [true_and] using ih (i + 1)

theorem titleFits_iff : titleFits entry.title = true ↔ ShortTitle entry := by
  unfold titleFits ShortTitle
  cases entry.title with
  | none => simp
  | some title =>
    have room : (chars "Booting ").length + title.length + 1 ≤ tmpbufSize ↔ title.length ≤ 91 := by
      rw [show (chars "Booting ").length = 8 from rfl, tmpbufSize]
      omega
    simp only [decide_eq_true_eq, room, Option.some.injEq, exists_eq_left']

/-- A kernel is taken by its header. -/
theorem KernelTaken.elf (taken : KernelTaken b entry loader) :
    Elf.checkHeader (Elf.elfHeaderAt loader.mem b.kernel) = true := by
  by_contra other
  unfold KernelTaken Elf.loadElfFile at taken
  rw [if_pos (Bool.eq_false_of_not_eq_true other)] at taken
  cases taken

private theorem aros_refused (refused : ¬ KernelTaken b entry m.loader) :
    ∃ m', (m'.Jumped ↔ m.Jumped) ∧ testbootAros o b entry m = .back m' := by
  unfold KernelTaken at refused
  unfold testbootAros
  cases elf : Elf.loadElfFile (entry.kernel.getD []) b.kernel m.loader with
  | mk accepted after =>
    rw [elf] at refused
    cases Bool.eq_false_of_not_eq_true refused
    exact ⟨{ m with loader := after }, Iff.rfl, rfl⟩

private theorem aros_overflows (taken : KernelTaken b entry m.loader) (long : ¬ ShortTitle entry) :
    ∃ m', testbootAros o b entry m = .overflow m' := by
  have unfit : titleFits entry.title = false := Bool.eq_false_iff.mpr (mt titleFits_iff.mp long)
  unfold KernelTaken at taken
  unfold testbootAros
  cases elf : Elf.loadElfFile (entry.kernel.getD []) b.kernel m.loader with
  | mk accepted after =>
    rw [elf] at taken
    cases taken
    exact ⟨{ m with loader := after }, by rw [unfit]; rfl⟩

/-- Once the kernel is taken, its modules decide. -/
theorem aros_taken (taken : KernelTaken b entry m.loader) (short : ShortTitle entry) :
    ∃ m', (m'.Jumped ↔ m.Jumped) ∧
      (ArosLoads o b entry m.loader → testbootAros o b entry m = .gone m') ∧
      (¬ ArosLoads o b entry m.loader → testbootAros o b entry m = .back m') := by
  have fits : titleFits entry.title = true := titleFits_iff.mpr short
  unfold ArosLoads
  unfold KernelTaken at taken ⊢
  unfold testbootAros
  cases elf : Elf.loadElfFile (entry.kernel.getD []) b.kernel m.loader with
  | mk accepted after =>
    rw [elf] at taken
    cases taken
    have loads := @arosModules_loads { m with loader := after } o b 0 entry.modules
    have quiet := @arosModules_jumped { m with loader := after } o b 0 entry.modules
    simp only [fits, Bool.not_true, Bool.false_eq_true, if_false, true_and, ← loads]
    cases result : arosModules o b 0 entry.modules { m with loader := after } with
    | mk complete last =>
      rw [result] at quiet
      cases complete with
      | false => exact ⟨last, quiet, fun started => absurd started Bool.false_ne_true, fun _ => rfl⟩
      | true => exact ⟨_, (jumped_emit (by simp)).trans quiet, fun _ => rfl, fun failed => absurd rfl failed⟩

private theorem aros_starts (loads : ArosLoads o b entry m.loader) (short : ShortTitle entry) :
    ∃ m', (m'.Jumped ↔ m.Jumped) ∧ testbootAros o b entry m = .gone m' := by
  obtain ⟨m', quiet, starts, -⟩ := aros_taken loads.1 short
  exact ⟨m', quiet, starts loads⟩

private theorem aros_gives_up (fails : ¬ ArosLoads o b entry m.loader)
    (short : KernelTaken b entry m.loader → ShortTitle entry) :
    ∃ m', (m'.Jumped ↔ m.Jumped) ∧ testbootAros o b entry m = .back m' := by
  by_cases taken : KernelTaken b entry m.loader
  · obtain ⟨m', quiet, -, ends⟩ := aros_taken taken (short taken)
    exact ⟨m', quiet, ends fails⟩
  · exact aros_refused taken

private theorem aosModules_jumped (i : Nat) (modules : List EntryObject) (list : List (List Byte × Int)) :
    (aosModules o b i modules list m).2.Jumped ↔ m.Jumped := by
  induction modules generalizing i list m with
  | nil => exact Iff.rfl
  | cons module rest ih =>
    have loaded := jumped_loadFile (m := m) (o := o) (.aosModule i) module.name b.module
    unfold aosModules
    by_cases missing : o.length (.aosModule i) < 0
    · simpa only [Machine.loadFile, missing, if_true] using loaded
    · simp only [Machine.loadFile, missing, if_false]
      exact (ih (i + 1) _).trans loaded

/-- The list is complete unless a file is missing. -/
theorem aosModules_missing (i : Nat) (modules : List EntryObject)
    (list : List (List Byte × Int)) :
    (aosModules o b i modules list m).1 = none ↔
      ∃ k, k < modules.length ∧ o.length (.aosModule (i + k)) < 0 := by
  induction modules generalizing i list m with
  | nil => simp [aosModules]
  | cons module rest ih =>
    unfold aosModules
    by_cases missing : o.length (.aosModule i) < 0
    · simp only [Machine.loadFile, missing, if_true, true_iff]
      exact ⟨0, by simp, missing⟩
    · simp only [Machine.loadFile, missing, if_false]
      rw [ih (i + 1)]
      constructor
      · rintro ⟨k, inside, failed⟩
        refine ⟨k + 1, by simpa using inside, ?_⟩
        rwa [show i + (k + 1) = i + 1 + k by omega]
      · rintro ⟨k, inside, failed⟩
        cases k with
        | zero => exact absurd failed missing
        | succ k =>
          refine ⟨k, by simpa using inside, ?_⟩
          rwa [show i + 1 + k = i + (k + 1) by omega]

private theorem aos_overflows (long : ¬ ShortTitle entry) : testbootAos o b entry m = .overflow m := by
  have unfit : titleFits entry.title = false := Bool.eq_false_iff.mpr (mt titleFits_iff.mp long)
  unfold testbootAos
  rw [unfit]
  rfl

/-- With a title that fits, `testboot_aos` comes to its loop. -/
theorem aos_writes (short : ShortTitle entry) :
    testbootAos o b entry m = (aosModules o b 0 entry.modules [] m).1.elim
      (.back (aosModules o b 0 entry.modules [] m).2) fun list =>
        let m' := (aosModules o b 0 entry.modules [] m).2.emit (.rawJump b.kernel list)
        if o.kernelReturns then .back m' else .gone m' := by
  have fits : titleFits entry.title = true := titleFits_iff.mpr short
  unfold testbootAos
  simp only [fits, Bool.not_true, Bool.false_eq_true, if_false]
  cases aosModules o b 0 entry.modules [] m with
  | mk list after => cases list <;> rfl

private theorem aos_comes_back (short : ShortTitle entry)
    (missing : ∃ k, k < entry.modules.length ∧ o.length (.aosModule k) < 0) :
    ∃ m', (m'.Jumped ↔ m.Jumped) ∧ testbootAos o b entry m = .back m' := by
  have incomplete : (aosModules o b 0 entry.modules [] m).1 = none := by
    rw [aosModules_missing]
    simpa only [Nat.zero_add] using missing
  refine ⟨(aosModules o b 0 entry.modules [] m).2, aosModules_jumped 0 entry.modules [], ?_⟩
  rw [aos_writes short, incomplete]
  rfl

private theorem jumped_rawJump (buffer : Word) (modules : List (List Byte × Int)) :
    (m.emit (.rawJump buffer modules)).Jumped :=
  ⟨buffer, modules, List.mem_append_right _ (List.mem_singleton.mpr rfl)⟩

/-- With every module file read nothing is looked at any more. -/
theorem aos_jumps (short : ShortTitle entry)
    (present : ¬ ∃ k, k < entry.modules.length ∧ o.length (.aosModule k) < 0) :
    ((testbootAos o b entry m).next exit).machine.Jumped := by
  have complete : (aosModules o b 0 entry.modules [] m).1 ≠ none := by
    rw [Ne, aosModules_missing]
    simpa only [Nat.zero_add] using present
  obtain ⟨list, handed⟩ := Option.ne_none_iff_exists'.mp complete
  rw [aos_writes short, handed]
  cases returns : o.kernelReturns with
  | false => exact jumped_rawJump b.kernel list
  | true => exact (jumped_emit (by simp)).mpr (jumped_rawJump b.kernel list)

/-- An ELF image comes to `testboot_aros` as it is. -/
theorem attempts_elf (elf : Elf.checkHeader (Elf.elfHeaderAt m.mem b.kernel) = true) :
    attempts o b entry m = testbootAros o b entry m := by
  have notStandalone : isStandalone (imageHeaderAt m.mem b.kernel) = false :=
    Bool.eq_false_iff.mpr fun magic =>
      absurd elf (Bool.eq_false_iff.mp (not_elf_of_standalone magic))
  have notLinux : isLinuxKernel (imageHeaderAt m.mem b.kernel) = false :=
    Bool.eq_false_iff.mpr fun magic => absurd elf (Bool.eq_false_iff.mp (not_elf_of_linux magic))
  rw [attempts, standalone_skips notStandalone, Control.next_back, linux_skips notLinux,
    Control.next_back]

/-- An attempt on a recognised image that gives up leads on to the last attempt. -/
theorem attempts_give_up (keeps : o.KeepsHeader b.kernel) (givesUp : GivesUp o b entry m.loader)
    (short : KernelTaken b entry m.loader → ShortTitle entry) :
    ∃ m', (m'.Jumped ↔ m.Jumped) ∧ attempts o b entry m = .back m' := by
  rcases givesUp with ⟨mine, returned⟩ | ⟨mine, returned⟩ | ⟨mine, fails⟩
  · obtain ⟨m₁, quiet, same, control⟩ := standalone_control keeps mine
    have notLinux : isLinuxKernel (imageHeaderAt m₁.mem b.kernel) = false := by
      rw [imageHeader_same same]
      exact (standalone_magic mine).2
    have notElf : Elf.checkHeader (Elf.elfHeaderAt m₁.mem b.kernel) = false := by
      rw [elfHeader_same same]
      exact not_elf_of_standalone mine
    obtain ⟨m₂, silent, last⟩ := @aros_refused m₁ o b entry
      fun taken => absurd taken.elf (Bool.eq_false_iff.mp notElf)
    refine ⟨m₂, silent.trans quiet, ?_⟩
    rw [attempts, control, if_pos returned, Control.next_back, linux_skips notLinux,
      Control.next_back, last]
  · have notStandalone := (linux_magic mine).2
    obtain ⟨m₁, quiet, same, control⟩ := linux_control entry keeps mine
    have notElf : Elf.checkHeader (Elf.elfHeaderAt m₁.mem b.kernel) = false := by
      rw [elfHeader_same same]
      exact not_elf_of_linux mine
    obtain ⟨m₂, silent, last⟩ := @aros_refused m₁ o b entry
      fun taken => absurd taken.elf (Bool.eq_false_iff.mp notElf)
    refine ⟨m₂, silent.trans quiet, ?_⟩
    rw [attempts, standalone_skips notStandalone, Control.next_back, control, if_pos returned,
      Control.next_back, last]
  · rw [attempts_elf mine]
    exact aros_gives_up fails short

/-- Otherwise the attempt on a recognised image keeps control. -/
theorem attempts_keep (keeps : o.KeepsHeader b.kernel) (recognised : Recognised m.mem b.kernel)
    (starts : ¬ GivesUp o b entry m.loader)
    (short : Elf.checkHeader (Elf.elfHeaderAt m.mem b.kernel) = true → ShortTitle entry) :
    ∃ m', (m'.Jumped ↔ m.Jumped) ∧ attempts o b entry m = .gone m' := by
  rcases recognised with standalone | linux | elf
  · obtain ⟨m', quiet, _, control⟩ := standalone_control keeps standalone
    have stays : ¬ (o.bootm .standalone).isSome = true :=
      fun returned => starts (.inl ⟨standalone, returned⟩)
    refine ⟨m', quiet, ?_⟩
    rw [attempts, control, if_neg stays, Control.next_gone]
  · obtain ⟨m', quiet, _, control⟩ := linux_control entry keeps linux
    have stays : ¬ (o.bootm .linux).isSome = true :=
      fun returned => starts (.inr (.inl ⟨linux, returned⟩))
    refine ⟨m', quiet, ?_⟩
    rw [attempts, standalone_skips (linux_magic linux).2, Control.next_back, control, if_neg stays,
      Control.next_gone]
  · have loads : ArosLoads o b entry m.loader := by
      by_contra fails
      exact starts (.inr (.inr ⟨elf, fails⟩))
    rw [attempts_elf elf]
    exact aros_starts loads (short elf)

private theorem GivesUp.recognised (givesUp : GivesUp o b entry loader) :
    Recognised loader.mem b.kernel := by
  rcases givesUp with ⟨mine, _⟩ | ⟨mine, _⟩ | ⟨mine, _⟩
  · exact .inl mine
  · exact .inr (.inl mine)
  · exact .inr (.inr mine)

/-- The machine once the kernel is read. -/
def kernelMachine (o : Outcomes) (b : Buffers) (entry : Entry) (loader : Elf.Loader) : Machine :=
  ((Machine.start loader).loadFile o .kernel (entry.kernel.getD []) b.kernel).2

private theorem kernelMachine_fresh (o : Outcomes) (b : Buffers) (entry : Entry) (loader : Elf.Loader) :
    ¬ (kernelMachine o b entry loader).Jumped := by
  unfold kernelMachine
  rw [jumped_loadFile]
  rintro ⟨buffer, modules, inside⟩
  cases inside

theorem bootstrap_attempts (attempted : Attempted o entry) :
    bootstrap o b (some entry) (.start loader) =
      (attempts o b entry (kernelMachine o b entry loader)).next fun m =>
        (testbootAos o b entry m).next exit := by
  obtain ⟨chosen, opened, read⟩ := attempted
  unfold bootstrap attempts
  simp only [chosen, opened, Bool.not_true, Bool.false_eq_true, if_false, Machine.loadFile,
    Int.not_lt.mpr read, Control.next_assoc]
  rfl

/-- Nothing is started before the kernel is read. -/
theorem bootstrap_unattempted (idle : ¬ Attempted o entry) :
    ∃ m, ¬ m.Jumped ∧ bootstrap o b (some entry) (.start loader) = .back m := by
  have start : ¬ (Machine.start loader).Jumped := by
    rintro ⟨buffer, modules, inside⟩
    cases inside
  cases chosen : entry.other with
  | some name =>
    refine ⟨(Machine.start loader).emit (.bootu name), (jumped_emit (by simp)).not.mpr start, ?_⟩
    simp only [bootstrap, chosen]
  | none =>
    cases opened : opens o entry with
    | false =>
      refine ⟨(Machine.start loader).emit .prompt, (jumped_emit (by simp)).not.mpr start, ?_⟩
      simp only [bootstrap, chosen, opened, Bool.not_false, if_true, exit]
    | true =>
      have missing : o.length .kernel < 0 := by
        by_contra read
        exact idle ⟨chosen, opened, Int.not_lt.mp read⟩
      refine ⟨kernelMachine o b entry loader, kernelMachine_fresh o b entry loader, ?_⟩
      simp only [bootstrap, chosen, opened, Bool.not_true, Bool.false_eq_true, if_false,
        Machine.loadFile, missing, if_true]
      rfl

/-- The boot attempts with a title that the line on the screen has no room for. -/
theorem bootstrap_overflows (keeps : o.KeepsHeader b.kernel) (attempted : Attempted o entry)
    (written : GivesUp o b entry (kernelRead o loader) ∨
      Elf.checkHeader (Elf.elfHeaderAt (kernelRead o loader).mem b.kernel) = true)
    (long : ¬ ShortTitle entry) :
    ∃ m, bootstrap o b (some entry) (.start loader) = .overflow m := by
  rw [bootstrap_attempts attempted]
  by_cases taken : KernelTaken b entry (kernelRead o loader)
  · obtain ⟨m', overflows⟩ :=
      @aros_overflows (kernelMachine o b entry loader) o b entry taken long
    have attempts := @attempts_elf (kernelMachine o b entry loader) o b entry taken.elf
    exact ⟨m', by rw [attempts, overflows, Control.next_overflow]⟩
  · have givesUp : GivesUp o b entry (kernelRead o loader) :=
      written.elim id fun elf => .inr (.inr ⟨elf, fun loads => taken loads.1⟩)
    obtain ⟨m', _, back⟩ := attempts_give_up (m := kernelMachine o b entry loader) keeps givesUp
      fun accepted => absurd accepted taken
    exact ⟨m', by rw [back, Control.next_back, aos_overflows long, Control.next_overflow]⟩

/-- With what the attempts need, a recognised image ends without a jump. -/
theorem bootstrap_ends (keeps : o.KeepsHeader b.kernel) (attempted : Attempted o entry)
    (recognised : Recognised (kernelRead o loader).mem b.kernel)
    (missing : GivesUp o b entry (kernelRead o loader) →
      ∃ k, k < entry.modules.length ∧ o.length (.aosModule k) < 0)
    (short : GivesUp o b entry (kernelRead o loader) ∨
      Elf.checkHeader (Elf.elfHeaderAt (kernelRead o loader).mem b.kernel) = true →
      ShortTitle entry) :
    ∃ m, ¬ m.Jumped ∧
      (GivesUp o b entry (kernelRead o loader) →
        bootstrap o b (some entry) (.start loader) = .back (m.emit .prompt)) ∧
      (¬ GivesUp o b entry (kernelRead o loader) →
        bootstrap o b (some entry) (.start loader) = .gone m) := by
  rw [bootstrap_attempts attempted]
  by_cases givesUp : GivesUp o b entry (kernelRead o loader)
  · obtain ⟨m₁, quiet, back⟩ := attempts_give_up (m := kernelMachine o b entry loader) keeps
      givesUp fun taken => short (.inr taken.elf)
    obtain ⟨m₂, silent, last⟩ :=
      aos_comes_back (m := m₁) (b := b) (short (.inl givesUp)) (missing givesUp)
    refine ⟨m₂, mt (silent.trans quiet).mp (kernelMachine_fresh o b entry loader), fun _ => ?_,
      fun keepsControl => absurd givesUp keepsControl⟩
    rw [back, Control.next_back, last, Control.next_back, exit]
  · obtain ⟨m', quiet, gone⟩ := attempts_keep (m := kernelMachine o b entry loader) keeps
      recognised givesUp fun elf => short (.inr elf)
    refine ⟨m', mt quiet.mp (kernelMachine_fresh o b entry loader),
      fun failed => absurd failed givesUp, fun _ => ?_⟩
    rw [gone, Control.next_gone]

/-- A recognised image is rejected just when every attempt that gives up on one
is followed by a module file that cannot be read, and the title is short where
an attempt writes it. -/
theorem bootstrap_rejects_iff (keeps : o.KeepsHeader b.kernel) :
    Rejects o b entry loader ↔
      (Attempted o entry →
        (GivesUp o b entry (kernelRead o loader) →
          ∃ k, k < entry.modules.length ∧ o.length (.aosModule k) < 0) ∧
        (GivesUp o b entry (kernelRead o loader) ∨
          Elf.checkHeader (Elf.elfHeaderAt (kernelRead o loader).mem b.kernel) = true →
          ShortTitle entry)) := by
  constructor
  · intro rejects attempted
    have short : GivesUp o b entry (kernelRead o loader) ∨
        Elf.checkHeader (Elf.elfHeaderAt (kernelRead o loader).mem b.kernel) = true →
        ShortTitle entry := by
      intro written
      by_contra long
      obtain ⟨m, overflows⟩ := bootstrap_overflows keeps attempted written long
      exact rejects.inside (written.elim GivesUp.recognised fun elf => .inr (.inr elf)) m overflows
    refine ⟨fun givesUp => ?_, short⟩
    by_contra present
    apply rejects.unexecuted givesUp.recognised
    obtain ⟨m', _, back⟩ := attempts_give_up (m := kernelMachine o b entry loader) keeps givesUp
      fun taken => short (.inr taken.elf)
    rw [bootstrap_attempts attempted, back]
    exact aos_jumps (short (.inl givesUp)) present
  · intro follows
    -- what is recognised ends in a machine that has not jumped, and in no overflow
    have quiet (recognised : Recognised (kernelRead o loader).mem b.kernel) :
        ¬ (bootstrap o b (some entry) (.start loader)).machine.Jumped ∧
          ∀ m, bootstrap o b (some entry) (.start loader) ≠ .overflow m := by
      by_cases attempted : Attempted o entry
      · obtain ⟨missing, short⟩ := follows attempted
        obtain ⟨m, fresh, back, gone⟩ := bootstrap_ends keeps attempted recognised missing short
        by_cases givesUp : GivesUp o b entry (kernelRead o loader)
        · rw [back givesUp]
          exact ⟨(jumped_emit (by simp)).not.mpr fresh, fun _ => Control.noConfusion⟩
        · rw [gone givesUp]
          exact ⟨fresh, fun _ => Control.noConfusion⟩
      · obtain ⟨m, fresh, last⟩ := @bootstrap_unattempted o b entry loader attempted
        rw [last]
        exact ⟨fresh, fun _ => Control.noConfusion⟩
    refine ⟨fun recognised => (quiet recognised).1, fun recognised => (quiet recognised).2,
      fun attempted givesUp => ?_⟩
    obtain ⟨missing, short⟩ := follows attempted
    obtain ⟨m, -, back, -⟩ := bootstrap_ends keeps attempted givesUp.recognised missing short
    exact ⟨m.emit .prompt, back givesUp, List.getLast?_concat⟩

end

/-- A standalone image is read, and the program in it returns to its caller. -/
def returningProgram : Outcomes where
  bootingDevice := true
  ide _ _ := false
  tftp := false
  cdrom := false
  length _ := 64
  read
    | .kernel => fun m => Function.update (store32 m 0x100000 ihMagic) 0x10001e ihTypeStandalone
    | _ => id
  bootm _ := some id
  kernelReturns := false

def someBuffers : Buffers := ⟨0x100000, 0x600000, 0x1000000, 0x1800000, 0x2a00000⟩

def programEntry : Entry := { entryAlloc with title := some [0x50], kernel := some [0x70] }

def emptyLoader : Elf.Loader := Elf.Loader.initial fun _ => 0

private theorem returningProgram_keeps : returningProgram.KeepsHeader someBuffers.kernel := by
  refine ⟨fun _ _ _ => rfl, fun _ _ _ => rfl, ?_⟩
  intro site effect returned m x inside
  cases returned
  rfl

theorem returningProgram_rejects_iff :
    Rejects returningProgram someBuffers programEntry emptyLoader ↔
      (Attempted returningProgram programEntry →
        (GivesUp returningProgram someBuffers programEntry (kernelRead returningProgram emptyLoader) →
          ∃ k, k < programEntry.modules.length ∧ returningProgram.length (.aosModule k) < 0) ∧
        (GivesUp returningProgram someBuffers programEntry (kernelRead returningProgram emptyLoader) ∨
          Elf.checkHeader (Elf.elfHeaderAt (kernelRead returningProgram emptyLoader).mem
            someBuffers.kernel) = true →
          ShortTitle programEntry)) :=
  bootstrap_rejects_iff returningProgram_keeps

/-- After the program has returned its image is entered at its first byte, the
header. -/
theorem returningProgram_jumps :
    ¬ Rejects returningProgram someBuffers programEntry emptyLoader := by
  intro rejects
  have standalone :
      isStandalone (imageHeaderAt (kernelRead returningProgram emptyLoader).mem 0x100000) =
        true := by
    decide
  apply rejects.unexecuted (.inl standalone)
  have trace : (bootstrap returningProgram someBuffers (some programEntry)
      (.start emptyLoader)).machine.trace.getLast? = some (.rawJump 0x100000 []) := by
    rfl
  exact ⟨0x100000, [], List.mem_of_getLast? trace⟩

end Parthenope.Bootstrap
