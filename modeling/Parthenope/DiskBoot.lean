import Parthenope.Ext2
import Parthenope.SfsFiles

/-! A disk with a partition table and with SFS and ext2 volumes on its partitions, from the block
of the table to the menu and the files of its entries. -/
namespace Parthenope.DiskBoot
open FileTree FileNames PartitionTable Sfs StepLoop
open CString (Byte chars)
open Buffer
open Ext2 (Ext2fs Drivers Serves Phase)
open Install (Block rdbLocationLimit)
open Menu (Devices Volume Book Heap menuPaths)

section
variable {σ : Type} {fs : Ext2fs σ} {host : Host Unit} {sectors : Word → Nat → Byte} {boot : SfsBootDev} {v : Volume}
  {path : List Byte} {paths : List (List Byte)} {content : (Nat → Byte) → List Byte}
  {table : List (Option RdbPartition)}
  {entries : (Nat → Byte) → List (List Byte × Node (Nat → Byte) (Nat → Byte))} {volume : Option Volume}
  {length : RdbPartition → Word} {ext2 : RdbPartition → Option Volume} {before : ByteMemory.Memory 32}
  {partition : RdbPartition} {i n : Nat}

end

end Parthenope.DiskBoot
