import Parthenope.Buffer
import Parthenope.StepLoop

/-! The CD driver `cdrom.c`. One sector is kept in `tmpbuf`, with its number in
`sector_in_buf`; reads of whole sectors go past it. -/
namespace Parthenope.Cdrom
open CString Buffer StepLoop

abbrev Sector := Fin 2048 → Byte

/-- The byte of a sector at an offset of a run of sectors it is the last of. -/
def Sector.byte (sector : Sector) (i : Nat) : Byte := sector ⟨i % 2048, Nat.mod_lt i (by decide)⟩

/-- `block_read`: the drive afterwards, whether it could read the blocks, and what
is in the buffer. A drive may answer differently every time. -/
abbrev BlockRead (D : Type) := D → Word → Nat → D × Bool × (Nat → Sector)

/-- The drive of a `cdrom_boot_dev_t` and its one-sector cache. `filled` is history
that the code does not keep: whether the last refill of `tmpbuf` succeeded. -/
structure Cache (D : Type) where
  phys : D
  tmpbuf : Sector
  sectorInBuf : Word
  filled : Bool

/-- The arguments of `cdrom_read` as they change, and what is at `dest` so far. -/
structure Transfer where
  block : Word
  offset : Word
  length : Word
  dest : List Byte

variable {D : Type} (read : BlockRead D)

/-- The loop in front: whole sectors of the offset go to the block number. -/
def skipSectors : Nat → Word → Word → Word × Word
  | 0, block, offset => (block, offset)
  | fuel + 1, block, offset =>
    if 2048 ≤ offset then skipSectors fuel (block + 1) (offset - 2048) else (block, offset)

/-- What a read has left at `dest`. -/
def written : Except (List Byte) (List Byte) → List Byte
  | .ok dest => dest
  | .error dest => dest

/-- A sector comes to `tmpbuf` unless it is there. -/
def refill (boot : Cache D) (block : Word) : Cache D × Bool :=
  if boot.sectorInBuf ≠ block then
    match read boot.phys block 1 with
    | (phys, false, buffer) =>
      ({ boot with phys := phys, tmpbuf := buffer 0, filled := false }, false)
    | (phys, true, buffer) => (⟨phys, buffer 0, block, true⟩, true)
  else (boot, true)

/-- The end of a first sector. -/
def readHead (boot : Cache D) (t : Transfer) : Cache D × Except (List Byte) Transfer :=
  if t.offset ≠ 0 then
    match refill read boot t.block with
    | (boot, false) => (boot, .error t.dest)
    | (boot, true) =>
      let len := if t.length < 2048 - t.offset then t.length else 2048 - t.offset
      (boot, .ok ⟨t.block + 1, 0, t.length - len,
        t.dest ++ slice boot.tmpbuf.byte t.offset.toNat len.toNat⟩)
  else (boot, .ok t)

/-- Whole sectors, read where they belong. -/
def readMiddle (boot : Cache D) (t : Transfer) : Cache D × Except (List Byte) Transfer :=
  if t.length / 2048 ≠ 0 then
    let count := t.length / 2048
    match read boot.phys t.block count.toNat with
    | (phys, success, buffer) =>
      let dest := t.dest ++ slice (fun i => (buffer (i / 2048)).byte i) 0 (2048 * count).toNat
      if success then
        ({ boot with phys := phys }, .ok ⟨t.block + count, t.offset, t.length - 2048 * count, dest⟩)
      else ({ boot with phys := phys }, .error dest)
  else (boot, .ok t)

/-- The beginning of a last sector. -/
def readTail (boot : Cache D) (t : Transfer) : Cache D × Except (List Byte) Transfer :=
  if t.length ≠ 0 then
    match refill read boot t.block with
    | (boot, false) => (boot, .error t.dest)
    | (boot, true) =>
      let len := if t.length < 2048 - t.offset then t.length else 2048 - t.offset
      (boot, .ok { t with dest := t.dest ++ slice boot.tmpbuf.byte 0 len.toNat })
  else (boot, .ok t)

/-- What a part hands on to the next. -/
def andThen (next : Cache D → Transfer → Cache D × Except (List Byte) Transfer) :
    Cache D × Except (List Byte) Transfer → Cache D × Except (List Byte) Transfer
  | (boot, .error dest) => (boot, .error dest)
  | (boot, .ok t) => next boot t

/-- `cdrom_read`: what it has written, as an error where it returns -1. -/
def cdromRead (boot : Cache D) (block offset length : Word) :
    Cache D × Except (List Byte) (List Byte) :=
  match skipSectors offset.toNat block offset with
  | (block, offset) =>
    let (boot, result) := andThen (readTail read) (andThen (readMiddle read)
      (readHead read boot ⟨block, offset, length, []⟩))
    (boot, result.map Transfer.dest)

/-- What the driver runs on: the drive, a `malloc` that may fail, and what the
memory it hands out holds. -/
structure Host (D : Type) where
  read : BlockRead D
  allocates : Word → Bool
  stale : Nat → Byte

/-- The walk of `iterate_entries`: the area in memory and where `ptr` stands in it. -/
structure Walk (D : Type) where
  boot : Cache D
  sua : List Byte
  size : Word
  ptr : Nat

/-- The members of `struct iso9660_susp_entry` and `struct iso9660_susp_ce`. -/
def suspLen : Nat := 2
def suspData : Nat := 4
def ceBlk : Nat := 8
def ceOff : Nat := 16
def ceLen : Nat := 24

/-- An entry with the signature of two letters. -/
def signed (e : Nat → Byte) (sig : String) : Bool := slice e 0 2 == chars sig

section
variable (host : Host D) {α : Type}

/-- The entry at `ptr`. -/
def Walk.entry (w : Walk D) : Nat → Byte := fun i => contents host.stale w.sua (w.ptr + i)

/-- One turn of the loops of `iterate_entries`: a CE entry leads to its area, any
other to the entry behind it or to the end. The function that is called gives what
it stores where it breaks the iteration. -/
def entryTurn (iterFunc : (Nat → Byte) → Option α) (w : Walk D) : (Cache D × Option α) ⊕ Walk D :=
  let e := w.entry host
  if signed e "CE" then
    if host.allocates (be32 e ceLen) then
      match cdromRead host.read w.boot (be32 e ceBlk) (be32 e ceOff) (be32 e ceLen) with
      | (boot, .error _) => .inl (boot, none)
      | (boot, .ok sua) => .inr ⟨boot, sua, be32 e ceLen, 0⟩
    else .inl (w.boot, none)
  else if signed e "ST" then .inl (w.boot, none)
  else
    match iterFunc e with
    | some found => .inl (w.boot, some found)
    | none =>
      let ptr := w.ptr + (e suspLen).toNat
      if ptr + 1 < w.size.toNat then .inr { w with ptr := ptr } else .inl (w.boot, none)

def iterateEntries (boot : Cache D) (block offset size : Word) (iterFunc : (Nat → Byte) → Option α)
    (fuel : Nat) : Option (Cache D × Option α) :=
  if host.allocates size then
    match cdromRead host.read boot block offset size with
    | (boot, .error _) => some (boot, none)
    | (boot, .ok sua) => run (entryTurn host iterFunc) fuel ⟨boot, sua, size, 0⟩
  else some (boot, none)

/-- `my_iteration`: a copy of the entry looked for. -/
def myIteration (sig : String) (e : Nat → Byte) : Option (List Byte) :=
  if signed e sig then some (slice e 0 (e suspLen).toNat) else none

def getEntry (boot : Cache D) (block offset size : Word) (sig : String) (fuel : Nat) :
    Option (Cache D × Option (List Byte)) :=
  iterateEntries host boot block offset size (myIteration sig) fuel

end

/-- `sizeof (struct iso9660_dir)` and its members. -/
def dirSize : Nat := 33
def dirLen : Nat := 0
def dirFirstSector : Nat := 6
def dirSizeBe : Nat := 14
def dirFlags : Nat := 25
def dirNamelen : Nat := 32

/-- `sizeof (struct iso9660_primary_voldesc)` and where its root directory is. -/
def voldescSize : Nat := 189
def voldescMagic : Nat := 1
def voldescRootdir : Nat := 156

/-- `cdrom_boot_dev_t`. -/
structure CdromBootDev (D : Type) where
  boot : Cache D
  voldesc : List Byte
  rootdir : List Byte
  rr : Bool
  suspSkip : Byte

/-- What C leaves undefined: an `int` beyond 31 bits, a write behind `elements`, a
write to the null pointer. -/
inductive Fault
  | offsetOverflow
  | elementsOverflow
  | nullArea

/-- The name in an NM entry, if it has one; an error where there is no memory for it. -/
def rrName (host : Host D) (entry : List Byte) : Except Unit (Option (List Byte)) :=
  let e := contents host.stale entry
  if e suspData &&& 2 ≠ 0 then .ok (some (chars "."))
  else if e suspData &&& 4 ≠ 0 then .ok (some (chars ".."))
  else if 5 < (e suspLen).toNat then
    if host.allocates (BitVec.ofNat 32 ((e suspLen).toNat - 5 + 1)) then
      .ok (some (cstring (slice e (suspData + 1) ((e suspLen).toNat - 5))))
    else .error ()
  else .ok none

/-- The loop that ends a name at its last semicolon; it does not look at the first character. -/
def dropVersion (name : List Byte) : Nat → List Byte
  | 0 => name
  | i + 1 => if name[i + 1]? = some 59 then name.take (i + 1) else dropVersion name i

/-- The name in a record itself. -/
def isoName (name : List Byte) : List Byte :=
  if name = [0] then chars "."
  else if name = [1] then chars ".."
  else cstring (dropVersion name name.length)

section
variable (host : Host D) (dev : CdromBootDev D)

/-- Where the System Use area of a record begins in it, and how long the record lets it be. -/
def suaStart (dirent : Nat → Byte) : Nat :=
  dirSize + (dirent dirNamelen).toNat + 1 - (dirent dirNamelen).toNat % 2

def suaSize (dirent : Nat → Byte) : Word := BitVec.ofInt 32 ((dirent dirLen).toNat - suaStart dirent)

/-- The name of a record; no name where the function gives up. -/
def recordName (boot : Cache D) (block : Word) (offset : Nat) (dirent : Nat → Byte) (fuel : Nat) :
    Option (Cache D × Option (List Byte)) :=
  let rockRidge : Option (Cache D × Except Unit (Option (List Byte))) :=
    if dev.rr then
      (getEntry host boot block (BitVec.ofNat 32 (suaStart dirent + (offset + dev.suspSkip.toNat)))
        (suaSize dirent) "NM" fuel).map fun (boot, entry) => (boot, match entry with
        | some entry => rrName host entry
        | none => .ok none)
    else some (boot, .ok none)
  rockRidge.map fun
    | (boot, .error ()) => (boot, none)
    | (boot, .ok (some fname)) => (boot, some fname)
    | (boot, .ok none) =>
      match cdromRead host.read boot block (BitVec.ofNat 32 (offset + dirSize))
        ((dirent dirNamelen).setWidth 32) with
      | (boot, .error _) => (boot, none)
      | (boot, .ok name) => (boot, some (isoName name))

/-- How the search of a directory ends: with the first sector and the size of the
record found, or where `fs_cdrom_find_file` returns 0. -/
abbrev Outcome (D : Type) := Except Fault (Cache D × Option (Word × Word))

/-- One turn of the loop over the records of a directory. -/
def recordTurn (element : List Byte) (last : Bool) (block size : Word) (fuel : Nat) :
    Cache D × Nat → Option (Outcome D) ⊕ Cache D × Nat
  | (boot, offset) =>
    if (offset : Int) < size.toInt then
      match cdromRead host.read boot block (BitVec.ofNat 32 offset) (BitVec.ofNat 32 dirSize) with
      | (boot, .error _) => .inl (some (.ok (boot, none)))
      | (boot, .ok bytes) =>
        let dirent := contents host.stale bytes
        if dirent dirLen = 0 then
          let next := (offset / 2048 + 1) * 2048
          if next < 2 ^ 31 then .inr (boot, next) else .inl (some (.error .offsetOverflow))
        else
          let next := offset + (dirent dirLen).toNat
          if suaStart dirent + (offset + dev.suspSkip.toNat) < 2 ^ 31 then
            match recordName host dev boot block offset dirent fuel with
            | none => .inl none
            | some (boot, none) => .inl (some (.ok (boot, none)))
            | some (boot, some fname) =>
              let type := dirent dirFlags &&& 3
              if 2 ^ 31 ≤ next then .inl (some (.error .offsetOverflow))
              else if strcasecmp element fname = 0 ∧ (last = false ∧ type = 2 ∨ last = true ∧ type ≠ 2) then
                .inl (some (.ok (boot, some (be32 dirent dirFirstSector, be32 dirent dirSizeBe))))
              else .inr (boot, next)
          else .inl (some (.error .offsetOverflow))
    else .inl (some (.ok (boot, none)))

/-- The loop over the elements of a path. Behind an element that is not found the
offset stays at the end of its directory, so that no other is. -/
def findElements (fuel : Nat) : List (List Byte) → Cache D → Word → Word → Option (Outcome D)
  | [], boot, block, size => some (.ok (boot, some (block, size)))
  | element :: rest, boot, block, size =>
    match nested (recordTurn host dev element rest.isEmpty block size) fuel (boot, 0) with
    | some (.ok (boot, some (block, size))) => findElements fuel rest boot block size
    | ended => ended

end

/-- The elements of a path; a slash at its end stays with the last. -/
def splitElements : List Byte → List (List Byte)
  | [] => [[]]
  | [c] => [[c]]
  | c :: rest =>
    if c = 47 then [] :: splitElements rest
    else
      match splitElements rest with
      | element :: elements => (c :: element) :: elements
      | [] => [[c]]

/-- The elements of a file name, without a slash in front. -/
def pathElements (filename : List Byte) : List (List Byte) :=
  splitElements (if filename.head? = some 47 then filename.tail else filename)

def isoMaxDepth : Nat := 8

/-- The first sector and the size of the root directory. -/
def volumeRoot (host : Host D) (voldesc : List Byte) : Word :=
  be32 (contents host.stale (voldesc.drop voldescRootdir)) dirFirstSector

def volumeRootSize (host : Host D) (voldesc : List Byte) : Word :=
  be32 (contents host.stale (voldesc.drop voldescRootdir)) dirSizeBe

def fsCdromFindFile (host : Host D) (dev : CdromBootDev D) (filename : List Byte) (fuel : Nat) :
    Option (Outcome D) :=
  if isoMaxDepth + 1 < (pathElements filename).length then some (.error .elementsOverflow)
  else
    findElements host dev fuel (pathElements filename) dev.boot (volumeRoot host dev.voldesc)
      (volumeRootSize host dev.voldesc)

/-- `fs_cdrom_load_file`: the device, the result and what is in the buffer. The
result of `fs_cdrom_find_file` is the size. -/
def fsCdromLoadFile (host : Host D) (dev : CdromBootDev D) (filename : List Byte) (fuel : Nat) :
    Option (Except Fault (CdromBootDev D × Int × List Byte)) :=
  (fsCdromFindFile host dev filename fuel).map (·.map fun
    | (boot, none) => ({ dev with boot := boot }, 0, [])
    | (boot, some (block, size)) =>
      if size = 0 then ({ dev with boot := boot }, 0, [])
      else
        let (boot, result) := cdromRead host.read boot block 0 size
        ({ dev with boot := boot }, size.toInt, written result))

/-- The System Use area of the root directory's record as `cdrom_create` finds it. -/
def rootSuaStart (dirent : Nat → Byte) : Nat :=
  dirSize + (dirent dirNamelen).toNat + (dirent dirNamelen).toNat % 2 - 1

def rootSuaSize (dirent : Nat → Byte) : Word :=
  BitVec.ofInt 32 ((dirent dirLen).toNat - rootSuaStart dirent)

/-- The last part of `cdrom_create`: what the System Use area of the root directory says
of Rock Ridge. The result of the read is not looked at. -/
def rockRidge (host : Host D) (boot : Cache D) (root : Word) (rootdir : List Byte) (suspSkip : Byte)
    (fuel : Nat) : Option (Except Fault (Cache D × Bool × Byte)) :=
  let suaPos := BitVec.ofNat 32 (rootSuaStart (contents host.stale rootdir))
  let suaSize := rootSuaSize (contents host.stale rootdir)
  if host.allocates suaSize then
    let (boot, result) := cdromRead host.read boot root suaPos suaSize
    let sua := contents host.stale (written result)
    if signed sua "SP" then
      (getEntry host boot root suaPos suaSize "RR" fuel).map fun (boot, entry) =>
        .ok (boot, entry.isSome, sua (suspData + 2))
    else some (.ok (boot, false, suspSkip))
  else some (.error .nullArea)

/-- The first part: the volume descriptor and the record of the root directory. -/
def readVolume (host : Host D) (boot : Cache D) : Option (Cache D × List Byte × List Byte) :=
  match cdromRead host.read boot 16 0 (BitVec.ofNat 32 voldescSize) with
  | (_, .error _) => none
  | (boot, .ok voldesc) =>
    if slice (contents host.stale voldesc) voldescMagic 5 ≠ chars "CD001" then none
    else
      match cdromRead host.read boot (volumeRoot host voldesc) 0 (BitVec.ofNat 32 dirSize) with
      | (_, .error _) => none
      | (boot, .ok rootdir) => some (boot, voldesc, rootdir)

/-- `cdrom_create` from the drive it has found and what `malloc` returned; no device
where it fails. -/
def cdromCreate (host : Host D) (fresh : CdromBootDev D) (fuel : Nat) :
    Option (Except Fault (Option (CdromBootDev D))) :=
  match readVolume host fresh.boot with
  | none => some (.ok none)
  | some (boot, voldesc, rootdir) =>
    (rockRidge host boot (volumeRoot host voldesc) rootdir fresh.suspSkip fuel).map
      (·.map fun (boot, rr, suspSkip) => some ⟨boot, voldesc, rootdir, rr, suspSkip⟩)

section
variable {host : Host D} {α : Type} {iterFunc : (Nat → Byte) → Option α} {w u : Walk D}
  {boot : Cache D} {found : Option α}

/-- A turn that goes on has read a continuation area or passed over an entry. -/
theorem entryTurn_next (next : entryTurn host iterFunc w = .inr u) :
    (signed (w.entry host) "CE" ∧ u.ptr = 0 ∧
      cdromRead host.read w.boot (be32 (w.entry host) ceBlk) (be32 (w.entry host) ceOff) u.size =
        (u.boot, .ok u.sua)) ∨
    (signed (w.entry host) "CE" = false ∧ u.ptr = w.ptr + (w.entry host suspLen).toNat ∧
      u.ptr + 1 < w.size.toNat ∧ u = { w with ptr := u.ptr }) := by
  unfold entryTurn at next
  dsimp only at next
  split at next
  · rename_i continued
    split at next
    · split at next
      · cases next
      · rename_i boot sua answer
        cases next
        exact .inl ⟨continued, rfl, answer⟩
    · cases next
  · rename_i plain
    split at next
    · cases next
    · split at next
      · cases next
      · split at next
        · rename_i inside
          cases next
          exact .inr ⟨Bool.eq_false_iff.mpr plain, rfl, inside, rfl⟩
        · cases next

/-- A CE entry that can be followed leads to the beginning of its area. -/
theorem entryTurn_continues {block offset size : Word} {sua : List Byte}
    (continued : signed (w.entry host) "CE" = true) (allocated : host.allocates size = true)
    (fields : be32 (w.entry host) ceBlk = block ∧ be32 (w.entry host) ceOff = offset ∧
      be32 (w.entry host) ceLen = size)
    (answer : cdromRead host.read w.boot block offset size = (boot, .ok sua)) :
    entryTurn host iterFunc w = .inr ⟨boot, sua, size, 0⟩ := by
  obtain ⟨rfl, rfl, rfl⟩ := fields
  unfold entryTurn
  dsimp only
  rw [if_pos continued, if_pos allocated, answer]

theorem entryTurn_denied (continued : signed (w.entry host) "CE" = true)
    (denied : host.allocates (be32 (w.entry host) ceLen) = false) :
    entryTurn host iterFunc w = .inl (w.boot, none) := by
  unfold entryTurn
  dsimp only
  rw [if_pos continued, if_neg (Bool.eq_false_iff.mp denied)]

theorem entryTurn_fails {dest : List Byte} (continued : signed (w.entry host) "CE" = true)
    (allocated : host.allocates (be32 (w.entry host) ceLen) = true)
    (answer : cdromRead host.read w.boot (be32 (w.entry host) ceBlk) (be32 (w.entry host) ceOff)
      (be32 (w.entry host) ceLen) = (boot, .error dest)) :
    entryTurn host iterFunc w = .inl (boot, none) := by
  unfold entryTurn
  dsimp only
  rw [if_pos continued, if_pos allocated, answer]

theorem entryTurn_stops (plain : signed (w.entry host) "CE" = false)
    (stops : signed (w.entry host) "ST" = true) : entryTurn host iterFunc w = .inl (w.boot, none) := by
  unfold entryTurn
  dsimp only
  rw [if_neg (Bool.eq_false_iff.mp plain), if_pos stops]

theorem entryTurn_finds {a : α} (plain : signed (w.entry host) "CE" = false)
    (goes : signed (w.entry host) "ST" = false) (finds : iterFunc (w.entry host) = some a) :
    entryTurn host iterFunc w = .inl (w.boot, some a) := by
  unfold entryTurn
  dsimp only
  rw [if_neg (Bool.eq_false_iff.mp plain), if_neg (Bool.eq_false_iff.mp goes), finds]

/-- Behind an entry that is not the one looked for there is another or the end. -/
theorem entryTurn_passes (plain : signed (w.entry host) "CE" = false)
    (goes : signed (w.entry host) "ST" = false) (passes : iterFunc (w.entry host) = none) :
    entryTurn host iterFunc w =
      if w.ptr + (w.entry host suspLen).toNat + 1 < w.size.toNat then
        .inr { w with ptr := w.ptr + (w.entry host suspLen).toNat }
      else .inl (w.boot, none) := by
  unfold entryTurn
  dsimp only
  rw [if_neg (Bool.eq_false_iff.mp plain), if_neg (Bool.eq_false_iff.mp goes), passes]

end

end Parthenope.Cdrom
