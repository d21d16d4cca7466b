import Parthenope.BootstrapJump
import Parthenope.ElfImage

/-! What `testboot_aros` hands over to. It does not look at the entry point that the kernel's
header has, but jumps to the base from which it places sections. -/
namespace Parthenope.ArosStart
open Bootstrap hiding Word Mem
open Elf ElfAlignment ElfImage ElfLayout ElfSections Menu TwoEndedBump

/-- The calls of `load_elf_file` for the modules from module `i` on. -/
def moduleCalls (o : Outcomes) (b : Buffers) : Nat → List EntryObject → Loader → List LoadCall
  | _, [], _ => []
  | i, module :: rest, loader =>
    let call : LoadCall := ⟨module.name, b.file, o.read (.arosModule i) loader.mem⟩
    call :: moduleCalls o b (i + 1) rest (loadFiles loader [call])

section
variable {o : Outcomes} {b : Buffers} {entry : Entry} {m : Machine} {modules : List EntryObject} {i shnum : Nat}
  {file : Word} {sh : SectionTable} {st : Loader}

end

def wordBuffers : Buffers := ⟨0x1000, 0x10000, 0x20000, 0x30000, 0x40000⟩

end Parthenope.ArosStart
