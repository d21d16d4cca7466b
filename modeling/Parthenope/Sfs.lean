import Parthenope.Buffer
import Parthenope.ByteMemory
import Parthenope.StepLoop

/-! The Smart File System of `sfs.c`. Objects and nodes are found in the buffer of the
block they were read with, and stay there; nothing in the code bounds a walk by the
end of the buffer, so that what lies behind it is part of the state. -/
namespace Parthenope.Sfs
open CString Buffer StepLoop

/-- What the driver runs on. `loadsector` of a sector, a sector size and a count: the
disk afterwards, the result, and the bytes read; a disk may answer differently every
time. `stale` is the memory from a buffer's beginning on, where nothing is read into it. -/
structure Host (D : Type) where
  loadsector : D → Word → Word → Word → D × Bool × (Nat → Byte)
  stale : Nat → Byte

/-- `sfs_boot_dev_t`, with the members of its partition that are used. -/
structure SfsBootDev where
  start : Word
  blksz : Word
  root : Nat → Byte
  extentbnoderoot : Word
  blocksize : Word

/-- `struct SfsBlockHeader`. -/
def sbhId : Nat := 0
def sbhChecksum : Nat := 4

/-- `struct SfsRootBlock`. -/
def srbId : Word := 0x53465300
def srbBlocksize : Nat := 52
def srbRootobjectcontainer : Nat := 104
def srbExtentbnoderoot : Nat := 108

/-- `struct SfsObject`. -/
def soObjectnode : Nat := 4
def soData : Nat := 12
def soSize : Nat := 16
def soFirstdirblock : Nat := 16
def soBits : Nat := 24
def soName : Nat := 25
def soSizeof : Nat := 28

def otypeDir : Byte := 128

/-- `struct SfsObjectContainer`. -/
def socId : Word := 0x4F424A43
def socNext : Nat := 16
def socObject : Nat := 24

/-- `struct SfsBNodeContainer`. -/
def btcNodecount : Nat := 12
def btcIsleaf : Nat := 14
def btcNodesize : Nat := 15
def btcBnode : Nat := 16

/-- `struct BNode` and `struct SfsExtentBNode`. -/
def bnKey : Nat := 0
def bnData : Nat := 4
def sebnNext : Nat := 4
def sebnBlocks : Nat := 12

/-- One turn of the loop of `calcchecksum`. The field of the checksum itself has been
set to zero; the size left wraps where it is no multiple of four. -/
def checksumTurn (block : Nat → Byte) : Nat × Word × Word → Word ⊕ Nat × Word × Word
  | (data, checksum, blocksize) =>
    if 0 < blocksize then
      .inr (data + 4, checksum + (if data = sbhChecksum then 0 else be32 block data), blocksize - 4)
    else .inl (-checksum)

def calcchecksum (block : Nat → Byte) (blocksize : Word) (fuel : Nat) : Option Word :=
  run (checksumTurn block) fuel (0, 1, blocksize)

/-- The search of `sfs_nextobject` for two zero bytes. -/
def stringsTurn (block : Nat → Byte) : Nat × Nat → Nat ⊕ Nat × Nat
  | (i, p) => if 0 < i then .inr (if block p = 0 then i - 1 else i, p + 1) else .inl p

/-- `sfs_nextobject`, by the offset of an object in its block. -/
def sfsNextobject (block : Nat → Byte) (o : Nat) (fuel : Nat) : Option Nat :=
  (run (stringsTurn block) fuel (2, o + soName)).map fun p => if (p - o) % 2 = 1 then p + 1 else p

/-- What is at an offset of a block. -/
def member (block : Nat → Byte) (o : Nat) : Nat → Byte := fun i => block (o + i)

/-- Whether an object has the name, and the type if one is asked for. The comparison
ends behind the name given at latest. -/
def matchesObject (o : Nat → Byte) (dirname : List Byte) (type : Byte) : Bool :=
  strcasecmp (cstring (slice o soName (dirname.length + 1))) dirname == 0 &&
    (type == 0 || o soBits &&& type != 0)

/-- One turn of the loop over the objects of a container. -/
def objectTurn (block : Nat → Byte) (dirname : List Byte) (type : Byte) (fuel : Nat) (o : Nat) :
    Option (Option (Nat → Byte)) ⊕ Nat :=
  if 0 < be32 (member block o) soObjectnode then
    if matchesObject (member block o) dirname type then .inl (some (some (member block o)))
    else
      match sfsNextobject block o fuel with
      | some next => .inr next
      | none => .inl none
  else .inl (some none)

variable {D : Type} (host : Host D) (self : SfsBootDev)

/-- `sfs_loadsector`, with the buffer of `blocksize` bytes it leaves. -/
def sfsLoadsector (d : D) (block : Word) : D × Bool × (Nat → Byte) :=
  let count := self.blocksize / 512
  match host.loadsector d (self.start + block * count) self.blksz count with
  | (d, result, bytes) => (d, result, fun i => if i < 512 * count.toNat then bytes i else host.stale i)

/-- `sfs_create`. The root object container is read over the root block, into a buffer
that has room for 64 sectors. -/
def sfsCreate (d : D) (start blksz : Word) : D × Option SfsBootDev :=
  match host.loadsector d start blksz 64 with
  | (d, _, bytes) =>
    let buffer := fun i => if i < 64 * 512 then bytes i else host.stale i
    if be32 buffer sbhId ≠ srbId then (d, none)
    else
      let boot : SfsBootDev :=
        { start, blksz, root := host.stale, extentbnoderoot := be32 buffer srbExtentbnoderoot,
          blocksize := be32 buffer srbBlocksize }
      match sfsLoadsector { host with stale := buffer } boot d (be32 buffer srbRootobjectcontainer) with
      | (d, _, buffer) =>
        if be32 buffer sbhId ≠ socId then (d, none)
        else (d, some { boot with root := fun i => if i < soSizeof then buffer (socObject + i) else host.stale i })

/-- One turn of the loop over the containers of a directory. The result of the read is
not looked at. -/
def containerTurn (dirname : List Byte) (type : Byte) (fuel : Nat) :
    D × Word → Option (D × Option (Nat → Byte)) ⊕ D × Word
  | (d, next) =>
    if next ≠ 0 then
      match sfsLoadsector host self d next with
      | (d, _, block) =>
        match calcchecksum block self.blocksize fuel with
        | none => .inl none
        | some checksum =>
          if checksum = 0 then .inl (some (d, none))
          else if be32 block sbhId ≠ socId then .inl (some (d, none))
          else
            match nested (objectTurn block dirname type) fuel socObject with
            | none => .inl none
            | some (some o) => .inl (some (d, some o))
            | some none => .inr (d, be32 block socNext)
    else .inl (some (d, none))

def sfsFindobject (d : D) (cwd : Nat → Byte) (dirname : List Byte) (type : Byte) (fuel : Nat) :
    Option (D × Option (Nat → Byte)) :=
  nested (containerTurn host self dirname type) fuel (d, be32 cwd soFirstdirblock)

/-- The components of a path: the parts between its slashes. -/
def components : List Byte → List (List Byte)
  | [] => [[]]
  | c :: rest =>
    if c = 47 then [] :: components rest
    else
      match components rest with
      | name :: names => (c :: name) :: names
      | [] => [[c]]

/-- The loop of `sfs_find`: directories up to the last component, which may be anything. -/
def findComponents (fuel : Nat) : List (List Byte) → D → (Nat → Byte) → Option (D × Option (Nat → Byte))
  | [], d, root => some (d, some root)
  | [filename], d, root => sfsFindobject host self d root filename 0 fuel
  | directory :: rest, d, root =>
    match sfsFindobject host self d root directory otypeDir fuel with
    | some (d, some root) => findComponents fuel rest d root
    | ended => ended

/-- The components of a file name, without a slash in front. -/
def pathComponents (filename : List Byte) : List (List Byte) :=
  components (if filename.head? = some 47 then filename.tail else filename)

def sfsFind (d : D) (filename : List Byte) (fuel : Nat) : Option (D × Option (Nat → Byte)) :=
  findComponents host self fuel (pathComponents filename) d self.root

/-- One turn of the scan of a B-tree block from its last node on, by the node's number. -/
def scanTurn (block : Nat → Byte) (key : Word) (i : BitVec 16) : Word ⊕ BitVec 16 :=
  let tmp := btcBnode + i.toNat * (block btcNodesize).toNat
  if be32 (member block tmp) bnKey ≤ key then .inl (BitVec.ofNat 32 tmp) else .inr (i - 1)

/-- One turn of the descent of `get_bnode`, with `next` and the place of `bnode` in the
buffer. A scan that ends has found a node. -/
def bnodeTurn (key : Word) (fuel : Nat) :
    D × Word × Option Word → Option (D × Option (Nat → Byte)) ⊕ D × Word × Option Word
  | (d, next, bnode) =>
    match sfsLoadsector host self d next with
    | (d, false, block) => .inl (some (d, bnode.map fun tmp => member block tmp.toNat))
    | (d, true, block) =>
      match calcchecksum block self.blocksize fuel with
      | none => .inl none
      | some checksum =>
        if checksum = 0 then .inl (some (d, none))
        else
          match run (scanTurn block key) fuel (be16 block btcNodecount - 1) with
          | none => .inl none
          | some tmp =>
            if block btcIsleaf ≠ 0 then .inl (some (d, some (member block tmp.toNat)))
            else .inr (d, be32 (member block tmp.toNat) bnData, some tmp)

def getBnode (d : D) (key : Word) (fuel : Nat) : Option (D × Option (Nat → Byte)) :=
  nested (bnodeTurn host self key) fuel (d, self.extentbnoderoot, none)

/-- The disk, `readed`, and the memory from `filebuffer` on unless it is NULL. -/
abbrev Loading (D : Type) := D × Word × Option (ByteMemory.Memory 32)

/-- `tocopy`: a whole block, or what is left of the file. -/
def toCopy (size readed : Word) : Word :=
  if self.blocksize ≤ size - readed then self.blocksize else size - readed

/-- `memmove` from a buffer. -/
def copyFrom (buffer : Nat → Byte) (dest : Word) (n : Nat) (m : ByteMemory.Memory 32) :
    ByteMemory.Memory 32 :=
  fun x => if ByteMemory.Within dest n x then buffer (x - dest).toNat else m x

/-- The loop over the blocks of an extent. -/
def copyBlocks (next size : Word) : Nat → Word → Loading D → Loading D
  | 0, _, loading => loading
  | blocks + 1, i, (d, readed, filebuffer) =>
    match sfsLoadsector host self d (next + i) with
    | (d, _, buffer) =>
      let tocopy := toCopy self size readed
      copyBlocks next size blocks (i + 1)
        (d, readed + tocopy, filebuffer.map (copyFrom buffer readed tocopy.toNat))

/-- What C leaves undefined: members of a node at the null pointer. -/
inductive Fault
  | nullNode

/-- One turn of the loop over the extents of a file. -/
def extentTurn (size : Word) (fuel : Nat) :
    Word × Loading D → Option (Except Fault (Loading D)) ⊕ Word × Loading D
  | (next, d, readed, filebuffer) =>
    if next ≠ 0 ∧ readed < size then
      match getBnode host self d next fuel with
      | none => .inl none
      | some (_, none) => .inl (some (.error .nullNode))
      | some (d, some sebn) =>
        .inr (be32 sebn sebnNext,
          copyBlocks host self next size (be16 sebn sebnBlocks).toNat 0 (d, readed, filebuffer))
    else .inl (some (.ok (d, readed, filebuffer)))

/-- `sfs_loadfile`: the disk, the result and the memory at `filebuffer`. -/
def sfsLoadfile (d : D) (filename : List Byte) (filebuffer : Option (ByteMemory.Memory 32)) (fuel : Nat) :
    Option (Except Fault (D × Int × Option (ByteMemory.Memory 32))) :=
  match sfsFind host self d filename fuel with
  | none => none
  | some (d, none) => some (.ok (d, -1, filebuffer))
  | some (d, some o) =>
    (nested (extentTurn host self (be32 o soSize)) fuel (be32 o soData, d, 0, filebuffer)).map
      (·.map fun (d, readed, filebuffer) => (d, readed.toInt, filebuffer))

end Parthenope.Sfs
