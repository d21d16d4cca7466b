import Parthenope.DeviceBoot
import Parthenope.DiskBoot

/-! All of `bootstrap` on a machine that is booted from its disk, from the partition table to a
kernel that is linked in memory. -/
namespace Parthenope.DiskStart
open CString DeviceBoot DiskBoot
open PartitionTable hiding Word
open Install (Block rdbLocationLimit)
open Menu (Entry Addr Book Fault Heap Volume menuPaths entryAlloc)
open Ext2 (Ext2fs Drivers Serves Phase)
open Sfs (SfsBootDev)
open Bootstrap (Buffers Machine)
open Elf (Loader)
open ElfImage ElfLayout

end Parthenope.DiskStart
