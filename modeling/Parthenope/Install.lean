import Mathlib.Logic.Function.Basic
import Mathlib.Data.BitVec
import Parthenope.StepLoop

/-! The installer `parthenope-install.c`. The device is a map from 512-byte
positions to blocks of 128 words, read and written exactly; a block number is a
machine word, and `seek` is the position the product `block * 512` leads to
once it has wrapped. What a checksum reads beyond a block's own 128 words is
the parameter `beyond`. -/
namespace Parthenope.Install
open Function

abbrev Word := BitVec 32
abbrev Block := Fin 128 → Word
abbrev Disk := Nat → Block

def rdbLocationLimit : Nat := 16

def idRigidDisk : Word := 0x5244534B
def idBadBlock : Word := 0x42414442
def idPartition : Word := 0x50415254
def idFileSysHeader : Word := 0x46534844
def idLoadSeg : Word := 0x4C534547
def idBoot : Word := 0x424f4f54
def idFree : Word := 0xffffffff

/-- The words every `AmigaBlock` starts with. -/
def amigaId : Fin 128 := 0
def amigaSummedLongs : Fin 128 := 1
def amigaChkSum : Fin 128 := 2

/-- `struct BootstrapCodeBlock`; the data is the words from `bcbLoadData` on. -/
def bcbHostId : Fin 128 := 3
def bcbNext : Fin 128 := 4
def bcbLoadData : Fin 128 := 5

/-- The words of `struct RigidDiskBlock` the installer uses. -/
def rdbBootBlockList : Fin 128 := 10
def rdbBlocksLo : Fin 128 := 32
def rdbBlocksHi : Fin 128 := 33

/-- `sizeof (struct RigidDiskBlock)` in words. -/
def rdbWords : Nat := 64

/-- `IS_FREE`. -/
def isFree (blk : Block) : Bool :=
  blk amigaId != idRigidDisk && blk amigaId != idBadBlock && blk amigaId != idPartition &&
    blk amigaId != idFileSysHeader && blk amigaId != idLoadSeg && blk amigaId != idBoot

/-- The count of words a checksum runs over, clamped in the copy it sums. -/
def summedLongs (header : Block) : Word :=
  if header amigaSummedLongs > 512 then 512 else header amigaSummedLongs

/-- The words a checksum reads: the clamped copy and then what lies behind it. -/
def summedWord (beyond : Nat → Word) (header : Block) (i : Nat) : Word :=
  if h : i < 128 then update header amigaSummedLongs (summedLongs header) ⟨i, h⟩ else beyond i

def checksum (beyond : Nat → Word) (header : Block) : Word :=
  (List.range (summedLongs header).toNat).foldl (fun sum i => sum + summedWord beyond header i) 0

def calculateChecksum (beyond : Nat → Word) (blk : Block) : Block :=
  update blk amigaChkSum (blk amigaChkSum - checksum beyond blk)

/-- The position of the device that `fseek` to `block * 512` selects. -/
def seek (block : Word) : Nat := (block * 512).toNat / 512

/-- The buffer after `read_block` and whether its checksum was zero; the buffer
is filled in either case. -/
def readBlock (beyond : Nat → Word) (dev : Disk) (block : Word) : Block × Bool :=
  (dev (seek block), checksum beyond (dev (seek block)) == 0)

def readRdb (dev : Disk) (blk : Block) (block : Word) : Block :=
  fun i => if i.val < rdbWords then dev (seek block) i else blk i

def writeBlock (dev : Disk) (blk : Block) (block : Word) : Disk := update dev (seek block) blk

/-- The block number and the buffer of the first valid RDB. -/
def findRdb (beyond : Nat → Word) (dev : Disk) : Option (Word × Block) :=
  (List.range rdbLocationLimit).findSome? fun i =>
    let block := BitVec.ofNat 32 i
    match readBlock beyond dev block with
    | (_, false) => none
    | (rdb, true) =>
      if rdb amigaId ≠ idRigidDisk then none
      else if checksum beyond rdb ≠ 0 then none
      else some (block, readRdb dev rdb block)

/-- The search of `next_free_block`. Its `continue` on a bad checksum goes to
the loop's condition, so only what was read matters. The bound is tested after
the pointer has moved. -/
def searchFree (beyond : Nat → Word) (dev : Disk) (nblocks : Word) : Nat → Word → Word
  | 0, freePointer => freePointer
  | fuel + 1, freePointer =>
    let freePointer := freePointer + 1
    if !isFree (readBlock beyond dev freePointer).1 && freePointer < nblocks then
      searchFree beyond dev nblocks fuel freePointer
    else freePointer

/-- The `int` result, `*block` and `*free_pointer`. -/
def nextFreeBlock (beyond : Nat → Word) (dev : Disk) (block freePointer nblocks : Word) :
    Int × Word × Word :=
  let freePointer := searchFree beyond dev nblocks (nblocks.toNat + 1) freePointer
  if isFree (readBlock beyond dev freePointer).1 then
    (freePointer.toInt, freePointer, freePointer)
  else (-1, block, freePointer)

/-- One turn of the loop of `erase_slb`. -/
def eraseTurn (beyond : Nat → Word) : Disk × Word → Disk ⊕ Disk × Word
  | (dev, block) =>
    if block = idFree then .inl dev
    else match readBlock beyond dev block with
      | (_, false) => .inl dev
      | (blk, true) =>
        if blk amigaId ≠ idBoot then .inl dev
        else
          let blk := calculateChecksum beyond (update blk amigaId idFree)
          .inr (writeBlock dev blk block, blk bcbNext)

def eraseSlb (beyond : Nat → Word) (dev : Disk) (rdb : Block) (fuel : Nat) : Option Disk :=
  StepLoop.run (eraseTurn beyond) fuel (dev, rdb rdbBootBlockList)

/-- The block `install_slb` writes for the words from `offset` on. The buffer
is the one of the turn before, and always takes 123 words of `slb`. -/
def fillBlock (beyond : Nat → Word) (blk : Block) (slb : Nat → Word)
    (slbSize offset nextBlock : Word) : Block :=
  let blk := update blk amigaId idBoot
  let blk := update blk amigaSummedLongs 128
  let blk := update blk bcbHostId 0
  let blk := update blk bcbNext nextBlock
  let blk := if slbSize - offset ≤ 123 then
      update (update blk amigaSummedLongs (5 + slbSize - offset)) bcbNext idFree
    else blk
  let blk : Block := fun i => if bcbLoadData ≤ i then slb (offset.toNat + (i.val - 5)) else blk i
  calculateChecksum beyond blk

/-- The locals of the loop of `install_slb`, and what it has written so far. -/
structure Progress where
  dev : Disk
  blk : Block
  block : Word
  freePointer : Word
  offset : Word
  writes : List (Word × Block)

def Progress.start (dev : Disk) (scratch : Block) (block freePointer : Word) : Progress where
  dev := dev
  blk := scratch
  block := block
  freePointer := freePointer
  offset := 0
  writes := []

/-- What `install_slb` leaves behind. `head` is the number it stored in
`rdb_BootBlockList`; `complete` says that it printed " done!" and not "Not
enough free blocks!". -/
structure Installed where
  dev : Disk
  rdb : Block
  head : Option Word
  writes : List (Word × Block)
  complete : Bool

/-- The first search has failed. -/
def Installed.noBlock (dev : Disk) (rdb : Block) : Installed where
  dev := dev
  rdb := rdb
  head := none
  writes := []
  complete := false

/-- `rdb_RDBBlocksHi - rdb_RDBBlocksLo`, the bound every search gets. -/
def nblocks (rdb : Block) : Word := rdb rdbBlocksHi - rdb rdbBlocksLo

def Progress.finish (s : Progress) (rdb : Block) (complete : Bool) : Installed where
  dev := s.dev
  rdb := rdb
  head := some (rdb rdbBootBlockList)
  writes := s.writes
  complete := complete

def installTurn (beyond : Nat → Word) (rdb : Block) (slb : Nat → Word) (slbSize : Word)
    (s : Progress) : Installed ⊕ Progress :=
  if s.offset < slbSize then
    match nextFreeBlock beyond s.dev s.block s.freePointer (nblocks rdb) with
    | (found, nextBlock, freePointer) =>
      if found < 0 then .inl (s.finish rdb false)
      else
        let blk := fillBlock beyond s.blk slb slbSize s.offset nextBlock
        .inr { dev := writeBlock s.dev blk s.block
               blk := blk
               block := nextBlock
               freePointer := freePointer
               offset := s.offset + 123
               writes := s.writes ++ [(s.block, blk)] }
  else .inl (s.finish rdb true)

/-- `install_slb` for `slbSize` words of `slb`. `scratch` is what `malloc`
returns for the buffer, `fuel` bounds the turns of its loop. -/
def installSlb (beyond : Nat → Word) (scratch : Block) (dev : Disk) (rdb : Block)
    (slb : Nat → Word) (slbSize : Word) (fuel : Nat) : Option Installed :=
  match nextFreeBlock beyond dev 0 0 (nblocks rdb) with
  | (found, block, freePointer) =>
    if found < 0 then
      some (.noBlock dev rdb)
    else
      let rdb := update rdb rdbBootBlockList block
      StepLoop.run (installTurn beyond rdb slb slbSize) fuel
        (.start dev scratch block freePointer)

/-- The bytes of `slb` as `fread` leaves them: the file, then what the buffer
and the memory behind it held. -/
def fileByte (junk : Nat → BitVec 8) (file : List (BitVec 8)) (i : Nat) : BitVec 8 :=
  file.getD i (junk i)

/-- The big-endian words of the buffer. -/
def fileWord (junk : Nat → BitVec 8) (file : List (BitVec 8)) (j : Nat) : Word :=
  fileByte junk file (4 * j) ++ fileByte junk file (4 * j + 1) ++
    fileByte junk file (4 * j + 2) ++ fileByte junk file (4 * j + 3)

/-- What the surroundings give `main`: the argument count, whether the device
opens, what `lstat` says of the name (of a link its own size), the boot file that
`fopen` opens under it, if any, and the memory nobody has written yet. -/
structure Setting where
  argc : Nat
  devOpens : Bool
  statSucceeds : Bool
  stSize : Nat
  file : Option (List (BitVec 8))
  beyond : Nat → Word
  scratch : Block
  junk : Nat → BitVec 8

/-- The words of `slb`: `fread` reads `st_size` bytes, or what the file has. -/
def Setting.slb (setting : Setting) (file : List (BitVec 8)) : Nat → Word :=
  fileWord setting.junk (file.take setting.stSize)

/-- `slb_size`. -/
def Setting.slbSize (setting : Setting) : Word := BitVec.ofNat 32 (setting.stSize / 4)

/-- The exit status of `main` and the device it leaves. -/
def main (setting : Setting) (dev : Disk) (fuel : Nat) : Option (Int × Disk) :=
  if setting.argc ≠ 2 then some (-1, dev)
  else if !setting.devOpens then some (-1, dev)
  else match findRdb setting.beyond dev with
    | none => some (-1, dev)
    | some (rdbBlock, rdb) =>
      if !setting.statSucceeds then some (-1, dev)
      else match setting.file with
        | none => some (-1, dev)
        | some file => do
          let erased ← eraseSlb setting.beyond dev rdb fuel
          let installed ← installSlb setting.beyond setting.scratch erased rdb (setting.slb file)
            setting.slbSize fuel
          let rdb := calculateChecksum setting.beyond installed.rdb
          return (0, writeBlock installed.dev rdb rdbBlock)

end Parthenope.Install
