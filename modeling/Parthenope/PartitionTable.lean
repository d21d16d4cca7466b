import Parthenope.Install
import Parthenope.LoopReturn
import Parthenope.MenuScan

/-! The partition table of `rdb.c`. Each slot walks the list of partition blocks
from its head again and counts down; where the walk ends is in one variable, found
or not. The blocks and their checksum are those of the installer. -/
namespace Parthenope.PartitionTable
open CString Install StepLoop

abbrev Word := Install.Word

/-- A block device: what `block_read` of one block returns and leaves in the buffer. -/
abbrev BlockDevice := Word → Word × Block

/-- A word of a block by its number. -/
def word (blk : Block) (i : Nat) : Word := if below : i < 128 then blk ⟨i, below⟩ else 0

/-- The words of `struct RigidDiskBlock` read here. -/
def rdbBlockBytes : Nat := 4
def rdbPartitionList : Nat := 7

/-- `struct PartitionBlock`; its environment is an `AmigaPartitionGeometry`. -/
def pbNext : Nat := 4
def pbDriveName : Nat := 9

def apgSurfaces : Nat := 35
def apgBlockPerTrack : Nat := 37
def apgLowCyl : Nat := 41
def apgHighCyl : Nat := 42
def apgDosType : Nat := 48

/-- The bytes in `name` of a `disk_partition_t`. -/
def nameSize : Nat := 32

/-- `disk_partition_t`. Its name and the NUL behind that are in their array. -/
@[ext]
structure DiskPartition where
  start : Word
  size : Word
  blksz : Word
  name : List Byte
  type : List Byte
  fits : name.length < nameSize

/-- `struct RdbPartition`. Its name is the one in `info` from the second byte on. -/
@[ext]
structure RdbPartition where
  disk : Byte
  partition : Byte
  info : DiskPartition

/-- `strcpy` writes a drive name on behind the array for it. -/
inductive NameOverrun
  | driveName

/-- The bytes of a block from a word on. -/
def bytesFrom (blk : Block) (first : Nat) : List Byte :=
  ((List.finRange 128).drop first).flatMap fun i =>
    [(blk i >>> 24).setWidth 8, (blk i >>> 16).setWidth 8, (blk i >>> 8).setWidth 8, (blk i).setWidth 8]

/-- `pb_DriveName` as a string, with what follows in the block where it has no NUL. -/
def driveName (p : Block) : List Byte := cstring (bytesFrom p pbDriveName)

/-- `get_rdb`. -/
def getRdb (beyond : Nat → Word) (dev : BlockDevice) : Option Block :=
  (List.range rdbLocationLimit).findSome? fun i =>
    match dev (BitVec.ofNat 32 i) with
    | (res, rdb) =>
      if res = 1 ∧ rdb amigaId = idRigidDisk ∧ checksum beyond rdb = 0 then some rdb else none

/-- One turn of the loop of `get_partition_info`, with `block`, `part` and `p`. A
block with a bad checksum is read again, and `p` stays set. -/
def infoTurn (beyond : Nat → Word) (dev : BlockDevice) :
    Word × Int × Option Block → Option Block ⊕ Word × Int × Option Block
  | (block, part, p) =>
    if block = idFree then .inl p
    else
      match dev block with
      | (res, blk) =>
        if res = 0 then .inr (idFree, part, p)
        else if blk amigaId ≠ idPartition then .inr (idFree, part, none)
        else if checksum beyond blk ≠ 0 then .inr (block, part, some blk)
        else if part = 0 then .inl (some blk)
        else .inr (word blk pbNext, part - 1, none)

/-- What `get_partition_info` makes of the block it has found. -/
def diskPartition (rdb p : Block) : Except NameOverrun DiskPartition :=
  if fits : (driveName p).length < nameSize then
    .ok {
      start := word p apgLowCyl * word p apgBlockPerTrack * word p apgSurfaces
      size := (word p apgHighCyl - word p apgLowCyl + 1) * word p apgBlockPerTrack * word p apgSurfaces - 1
      blksz := word rdb rdbBlockBytes
      name := driveName p
      type := [(word p apgDosType >>> 24).setWidth 8, (word p apgDosType >>> 16).setWidth 8,
        (word p apgDosType >>> 8).setWidth 8, 92, (word p apgDosType).setWidth 8 + 48]
      fits
    }
  else .error .driveName

/-- The record for what the walk has ended with. -/
def partitionInfo (rdb : Block) (p : Option Block) : Except NameOverrun (Option DiskPartition) :=
  p.elim (.ok none) fun p => (diskPartition rdb p).map some

def getPartitionInfo (beyond : Nat → Word) (dev : BlockDevice) (rdb : Block) (part : Nat) (fuel : Nat) :
    Option (Except NameOverrun (Option DiskPartition)) :=
  (run (infoTurn beyond dev) fuel (word rdb rdbPartitionList, part, none)).map (partitionInfo rdb)

/-- The slot of the table for a partition, or an empty one. -/
def slot (i : Nat) (info : Except NameOverrun (Option DiskPartition)) : Except NameOverrun (Option RdbPartition) :=
  info.map (·.map fun info => ⟨0, BitVec.ofNat 8 i, info⟩)

/-- `RdbPartitionTable_init`: the slots of the table in order. No table is left by an overrun,
which does not bear on the walks. -/
def rdbPartitionTableInit (beyond : Nat → Word) (dev : Option BlockDevice) (fuel : Nat) :
    Option (Except NameOverrun (List (Option RdbPartition))) :=
  match dev.bind fun dev => (getRdb beyond dev).map (dev, ·) with
  | none => some (.ok (List.replicate rdbLocationLimit none))
  | some (dev, rdb) =>
    ((List.range rdbLocationLimit).mapM fun i =>
      (getPartitionInfo beyond dev rdb i fuel).map (slot i)).map (·.mapM id)

/-- The partition a slot of the table has. -/
def entry (table : List (Option RdbPartition)) (i : Nat) : Option RdbPartition := (table[i]?).join

/-- The partition blocks the list leads to, by their number: each is readable and
has the ID. -/
inductive Meets (dev : BlockDevice) : Word → Nat → Block → Prop
  | here {block : Word} : block ≠ idFree → (dev block).1 ≠ 0 → (dev block).2 amigaId = idPartition →
      Meets dev block 0 (dev block).2
  | later {block : Word} {k : Nat} {p : Block} : block ≠ idFree → (dev block).1 ≠ 0 →
      (dev block).2 amigaId = idPartition → Meets dev (word (dev block).2 pbNext) k p →
      Meets dev block (k + 1) p

/-- Every partition block the list leads to has a checksum of zero over no more
words than it has. -/
def Sound (beyond : Nat → Word) (dev : BlockDevice) (block : Word) : Prop :=
  ∀ k p, Meets dev block k p → p amigaSummedLongs ≤ 128 ∧ checksum beyond p = 0

/-- No block that the list leads to, up to a number, has a bad checksum. -/
def ValidTo (beyond : Nat → Word) (dev : BlockDevice) (block : Word) (k : Nat) : Prop :=
  ∀ j ≤ k, ∀ p, Meets dev block j p → checksum beyond p = 0

/-- The drive names of the blocks that a table has room for fit into their arrays. -/
def ShortNames (dev : BlockDevice) (block : Word) : Prop :=
  ∀ i < rdbLocationLimit, ∀ p, Meets dev block i p → (driveName p).length < nameSize

/-- What a slot of the table is to have of a partition block. -/
structure Describes (rdb p : Block) (i : Nat) (e : RdbPartition) : Prop where
  disk : e.disk = 0
  partition : e.partition = BitVec.ofNat 8 i
  start : e.info.start = word p apgLowCyl * word p apgBlockPerTrack * word p apgSurfaces
  size : e.info.size =
    (word p apgHighCyl - word p apgLowCyl + 1) * word p apgBlockPerTrack * word p apgSurfaces - 1
  blksz : e.info.blksz = word rdb rdbBlockBytes
  name : e.info.name = driveName p
  type : e.info.type = [(word p apgDosType >>> 24).setWidth 8, (word p apgDosType >>> 16).setWidth 8,
    (word p apgDosType >>> 8).setWidth 8, 92, (word p apgDosType).setWidth 8 + 48]

/-- The table has the blocks of the partition list under their numbers, without a gap, and a
scan of it misses none of them. -/
structure Follows (dev : BlockDevice) (rdb : Block) (table : List (Option RdbPartition)) : Prop where
  length : table.length = rdbLocationLimit
  present : ∀ i < rdbLocationLimit,
    (entry table i).isSome ↔ ∃ p, Meets dev (word rdb rdbPartitionList) i p
  entries : ∀ i < rdbLocationLimit, ∀ e, entry table i = some e ↔
    ∃ p, Meets dev (word rdb rdbPartitionList) i p ∧ Describes rdb p i e
  gapless : ∀ i j, j ≤ i → (entry table i).isSome → (entry table j).isSome
  scanned : ∀ (Device : Type) (s : Menu.Devices Device RdbPartition), s.table = entry table →
    ∀ i partition d, entry table i = some partition → s.create partition = some d →
      (some i, d) ∈ s.sources none

/-- The table of a disk is made, and follows its partition list. -/
def FollowsList (beyond : Nat → Word) (dev : BlockDevice) (rdb : Block) : Prop :=
  ∃ fuel table, rdbPartitionTableInit beyond (some dev) fuel = some (.ok table) ∧ Follows dev rdb table

section
variable {beyond : Nat → Word} {dev : BlockDevice} {block : Word} {k i j : Nat} {p p' : Block}

theorem Meets.unique (meets : Meets dev block k p) (meets' : Meets dev block k p') : p = p' := by
  induction meets with
  | here => cases meets'; rfl
  | later _ _ _ _ ih =>
    cases meets' with
    | later _ _ _ rest => exact ih rest

/-- Where the list has a block, it has the blocks before it. -/
theorem Meets.earlier (meets : Meets dev block k p) (before : j ≤ k) : ∃ p, Meets dev block j p := by
  induction meets generalizing j with
  | here listed readable partition =>
    cases Nat.le_zero.mp before
    exact ⟨_, .here listed readable partition⟩
  | later listed readable partition _ ih =>
    cases j with
    | zero => exact ⟨_, .here listed readable partition⟩
    | succ j =>
      obtain ⟨p, meets⟩ := ih (Nat.le_of_succ_le_succ before)
      exact ⟨p, .later listed readable partition meets⟩

/-- A list that ends here, or is not readable, leads to no block. -/
theorem info_missing {part : Int} (ends : block = idFree ∨ (dev block).1 = 0 ∨
    (dev block).2 amigaId ≠ idPartition) :
    ∃ n, run (infoTurn beyond dev) n (block, part, none) = some none := by
  have last : run (infoTurn beyond dev) 1 (idFree, part, none) = some none :=
    run_ends (by rw [infoTurn, if_pos rfl])
  by_cases listed : block = idFree
  · exact ⟨1, listed ▸ last⟩
  · refine ⟨2, (run_turns ?_).trans last⟩
    rw [infoTurn, if_neg listed]
    dsimp only
    by_cases unreadable : (dev block).1 = 0
    · rw [if_pos unreadable]
    · rw [if_neg unreadable, if_pos]
      exact (ends.resolve_left listed).resolve_left unreadable

/-- A list that does not end here leads from here to its next block. -/
theorem info_next {part : Int} (valid : checksum beyond (dev block).2 = 0) (listed : block ≠ idFree)
    (readable : (dev block).1 ≠ 0) (partition : (dev block).2 amigaId = idPartition) :
    infoTurn beyond dev (block, part, none) =
      if part = 0 then .inl (some (dev block).2) else .inr (word (dev block).2 pbNext, part - 1, none) := by
  rw [infoTurn, if_neg listed]
  dsimp only
  rw [if_neg readable, if_neg (not_not_intro partition), if_neg (not_not_intro valid)]

theorem ValidTo.next (valid : ValidTo beyond dev block (k + 1)) (listed : block ≠ idFree)
    (readable : (dev block).1 ≠ 0) (partition : (dev block).2 amigaId = idPartition) :
    ValidTo beyond dev (word (dev block).2 pbNext) k :=
  fun j before p meets => valid (j + 1) (Nat.succ_le_succ before) p (.later listed readable partition meets)

/-- The walk ends at the block with the number it counts down from, or without one. -/
theorem info_walk (valid : ValidTo beyond dev block k) :
    ∃ n r, run (infoTurn beyond dev) n (block, (k : Int), none) = some r ∧
      ∀ p, r = some p ↔ Meets dev block k p := by
  induction k generalizing block with
  | zero =>
    by_cases found : block ≠ idFree ∧ (dev block).1 ≠ 0 ∧ (dev block).2 amigaId = idPartition
    · obtain ⟨listed, readable, partition⟩ := found
      have meets := Meets.here listed readable partition
      refine ⟨1, some (dev block).2, run_ends ?_, fun p => ⟨?_, ?_⟩⟩
      · rw [info_next (valid 0 (Nat.zero_le _) _ meets) listed readable partition]
        exact if_pos rfl
      · rintro ⟨⟩
        exact meets
      · exact fun other => congrArg some (meets.unique other)
    · have ends : block = idFree ∨ (dev block).1 = 0 ∨ (dev block).2 amigaId ≠ idPartition := by tauto
      obtain ⟨n, missing⟩ := info_missing ends
      refine ⟨n, none, missing, fun p => ⟨fun none => (nomatch none), ?_⟩⟩
      rintro ⟨listed, readable, partition⟩
      exact absurd ⟨listed, readable, partition⟩ found
  | succ k ih =>
    by_cases found : block ≠ idFree ∧ (dev block).1 ≠ 0 ∧ (dev block).2 amigaId = idPartition
    · obtain ⟨listed, readable, partition⟩ := found
      have first := valid 0 (Nat.zero_le _) _ (.here listed readable partition)
      obtain ⟨n, r, walks, exact⟩ := ih (valid.next listed readable partition)
      refine ⟨n + 1, r, (run_turns ?_).trans walks, fun p => ?_⟩
      · rw [info_next first listed readable partition, if_neg (by omega)]
        simp
      · rw [exact]
        constructor
        · exact .later listed readable partition
        · rintro (_ | ⟨-, -, -, rest⟩)
          exact rest
    · have ends : block = idFree ∨ (dev block).1 = 0 ∨ (dev block).2 amigaId ≠ idPartition := by tauto
      obtain ⟨n, missing⟩ := info_missing ends
      refine ⟨n, none, missing, fun p => ⟨fun none => (nomatch none), ?_⟩⟩
      intro meets
      obtain ⟨_, listed, readable, partition⟩ := meets.earlier (Nat.zero_le _)
      exact absurd ⟨listed, readable, partition⟩ found

/-- A block with a bad checksum is read again and again. -/
theorem info_stuck {part : Int} (invalid : checksum beyond (dev block).2 ≠ 0) (listed : block ≠ idFree)
    (readable : (dev block).1 ≠ 0) (partition : (dev block).2 amigaId = idPartition) (n : Nat) :
    run (infoTurn beyond dev) n (block, part, none) = none := by
  have turns (p : Option Block) :
      infoTurn beyond dev (block, part, p) = .inr (block, part, some (dev block).2) := by
    rw [infoTurn, if_neg listed]
    dsimp only
    rw [if_neg readable, if_neg (not_not_intro partition), if_pos invalid]
  exact run_stuck ((Reaches.start _).turn (turns none)) (turns (some (dev block).2))

/-- A walk that meets a bad checksum on its way does not end. -/
theorem info_endless (meets : Meets dev block j p) (before : j ≤ k) (invalid : checksum beyond p ≠ 0) (n : Nat) :
    run (infoTurn beyond dev) n (block, (k : Int), none) = none := by
  induction meets generalizing k n with
  | here listed readable partition => exact info_stuck invalid listed readable partition n
  | @later block j p listed readable partition _ ih =>
    by_cases valid : checksum beyond (dev block).2 = 0
    · obtain ⟨k, rfl⟩ : ∃ i, k = i + 1 := ⟨k - 1, by omega⟩
      cases n with
      | zero => rfl
      | succ n =>
        rw [run_turns (info_next valid listed readable partition |>.trans (if_neg (by omega)))]
        have rest := ih (Nat.le_of_succ_le_succ before) invalid n
        simpa using rest
    · exact info_stuck valid listed readable partition n

/-- The walk to a number ends if and only if no block up to there has a bad checksum. -/
theorem info_ends_iff :
    (∃ n r, run (infoTurn beyond dev) n (block, (k : Int), none) = some r) ↔ ValidTo beyond dev block k := by
  constructor
  · rintro ⟨n, r, ended⟩ j before p meets
    by_contra invalid
    rw [info_endless meets before invalid n] at ended
    cases ended
  · intro valid
    obtain ⟨n, r, walked, -⟩ := info_walk valid
    exact ⟨n, r, walked⟩

/-- What a walk to a number ends with is the block that the list has there. -/
theorem walk_exact {n : Nat} {r : Option Block} (valid : ValidTo beyond dev block k)
    (walked : run (infoTurn beyond dev) n (block, (k : Int), none) = some r) (p : Block) :
    r = some p ↔ Meets dev block k p := by
  obtain ⟨m, r', walks, exact⟩ := info_walk valid
  rw [run_unique walked walks]
  exact exact p

/-- With fuel for all of them, each walk ends. -/
theorem walks_end (n : Nat) (valid : ∀ i < n, ValidTo beyond dev block i) :
    ∃ fuel, ∀ i < n, ∃ r, run (infoTurn beyond dev) fuel (block, (i : Int), none) = some r := by
  induction n with
  | zero => exact ⟨0, fun i below => absurd below (Nat.not_lt_zero i)⟩
  | succ n ih =>
    obtain ⟨fuel, ends⟩ := ih fun i below => valid i (Nat.lt_succ_of_lt below)
    obtain ⟨fuel', r, last, -⟩ := info_walk (valid n (Nat.lt_succ_self n))
    refine ⟨max fuel fuel', fun i below => ?_⟩
    rcases Nat.lt_succ_iff_lt_or_eq.mp below with earlier | rfl
    · obtain ⟨r, walks⟩ := ends i earlier
      exact ⟨r, run_mono walks (le_max_left fuel fuel')⟩
    · exact ⟨r, run_mono last (le_max_right fuel fuel')⟩

private theorem mapM_eq_some {α β : Type} {f : α → Option β} {l : List α} {r : List β} :
    l.mapM f = some r ↔ l.map f = r.map some := by
  induction l generalizing r with
  | nil => cases r <;> simp
  | cons a rest ih =>
    rw [List.mapM_cons, List.map_cons]
    cases first : f a with
    | none => cases r <;> simp
    | some b =>
      cases further : rest.mapM f with
      | none =>
        have never (r : List β) : rest.map f ≠ r.map some := fun same => by simp [ih.mpr same] at further
        cases r <;> simp [never]
      | some bs =>
        rw [ih.mp further]
        cases r <;> simp [(List.map_injective_iff.mpr (Option.some_injective β)).eq_iff]

private theorem mapM_eq_ok {α β ε : Type} {f : α → Except ε β} {l : List α} {r : List β} :
    l.mapM f = .ok r ↔ l.map f = r.map .ok := by
  induction l generalizing r with
  | nil => cases r <;> simp [pure, Except.pure]
  | cons a rest ih =>
    rw [List.mapM_cons, List.map_cons]
    cases first : f a with
    | error fault => cases r <;> simp [bind, Except.bind]
    | ok b =>
      cases further : rest.mapM f with
      | error fault =>
        have never (r : List β) : rest.map f ≠ r.map .ok := fun same => by simp [ih.mpr same] at further
        cases r <;> simp [bind, Except.bind, never]
      | ok bs =>
        rw [ih.mp further]
        have one : Function.Injective (Except.ok (ε := ε) (α := β)) := fun _ _ => Except.ok.inj
        cases r <;> simp [bind, Except.bind, pure, Except.pure, (List.map_injective_iff.mpr one).eq_iff]

end

section
variable {beyond : Nat → Word} {dev : BlockDevice} {block : Word} {rdb p : Block} {i fuel : Nat}
  {r : Nat → Option Block} {e e' : RdbPartition} {table : List (Option RdbPartition)}

/-- A record is made if and only if the drive name fits into its array, and then has what it is to have. -/
theorem diskPartition_ok (fits : (driveName p).length < nameSize) :
    ∃ info, diskPartition rdb p = .ok info ∧ Describes rdb p i ⟨0, BitVec.ofNat 8 i, info⟩ :=
  ⟨_, dif_pos fits, rfl, rfl, rfl, rfl, rfl, rfl, rfl⟩

theorem Describes.unique (describes : Describes rdb p i e) (describes' : Describes rdb p i e') : e = e' := by
  refine RdbPartition.ext ?_ ?_ (DiskPartition.ext ?_ ?_ ?_ ?_ ?_)
  · rw [describes.disk, describes'.disk]
  · rw [describes.partition, describes'.partition]
  · rw [describes.start, describes'.start]
  · rw [describes.size, describes'.size]
  · rw [describes.blksz, describes'.blksz]
  · rw [describes.name, describes'.name]
  · rw [describes.type, describes'.type]

/-- The slot for a block is filled with what it is to have, if its name fits. -/
theorem slot_found (fits : (driveName p).length < nameSize) :
    ∃ e, slot i (partitionInfo rdb (some p)) = .ok (some e) ∧ Describes rdb p i e := by
  obtain ⟨info, made, describes⟩ := @diskPartition_ok rdb p i fits
  refine ⟨_, ?_, describes⟩
  rw [partitionInfo, Option.elim_some, made]
  rfl

private theorem slot_overrun (overrun : ¬(driveName p).length < nameSize) :
    slot i (partitionInfo rdb (some p)) = .error .driveName := by
  rw [partitionInfo, Option.elim_some, diskPartition, dif_neg overrun]
  rfl

/-- When the table is made, all its walks have ended. -/
theorem init_walks {result : Except NameOverrun (List (Option RdbPartition))} (found : getRdb beyond dev = some rdb)
    (made : rdbPartitionTableInit beyond (some dev) fuel = some result) :
    ∃ r : Nat → Option Block, ∀ i < rdbLocationLimit,
      run (infoTurn beyond dev) fuel (word rdb rdbPartitionList, (i : Int), none) = some (r i) := by
  rw [rdbPartitionTableInit, Option.bind_some, found, Option.map_some] at made
  obtain ⟨slots, each, -⟩ := Option.map_eq_some_iff.mp made
  have walks (i : Nat) (below : i < rdbLocationLimit) :
      ∃ r, run (infoTurn beyond dev) fuel (word rdb rdbPartitionList, (i : Int), none) = some r := by
    have here := congrArg (·[i]?) (mapM_eq_some.mp each)
    simp only [List.getElem?_map, List.getElem?_range below, Option.map_some] at here
    obtain ⟨filled, -, same⟩ := Option.map_eq_some_iff.mp here.symm
    obtain ⟨info, known, -⟩ := Option.map_eq_some_iff.mp same.symm
    obtain ⟨r, walked, -⟩ := Option.map_eq_some_iff.mp known
    exact ⟨r, walked⟩
  choose! r walked using walks
  exact ⟨r, walked⟩

/-- The table of a device with walks that end. -/
theorem init_walked (found : getRdb beyond dev = some rdb)
    (walks : ∀ i < rdbLocationLimit,
      run (infoTurn beyond dev) fuel (word rdb rdbPartitionList, (i : Int), none) = some (r i)) :
    rdbPartitionTableInit beyond (some dev) fuel =
      some (((List.range rdbLocationLimit).map fun i => slot i (partitionInfo rdb (r i))).mapM id) := by
  rw [rdbPartitionTableInit, Option.bind_some, found, Option.map_some]
  dsimp only
  rw [mapM_eq_some.mpr, Option.map_some]
  rw [List.map_map]
  refine List.map_congr_left fun i listed => ?_
  rw [getPartitionInfo, walks i (List.mem_range.mp listed)]
  rfl

/-- A table that is made has in each slot what the walk for it has found. -/
theorem entry_made
    (made : (List.range rdbLocationLimit).map (fun i => slot i (partitionInfo rdb (r i))) = table.map .ok)
    (below : i < rdbLocationLimit) : slot i (partitionInfo rdb (r i)) = .ok (entry table i) := by
  have here := congrArg (·[i]?) made
  simp only [List.getElem?_map, List.getElem?_range below, Option.map_some] at here
  obtain ⟨e, inside, same⟩ := Option.map_eq_some_iff.mp here.symm
  rw [entry, inside, Option.join_some, same]

/-- A table whose slots are filled from walks along the list has the blocks of the list in them. -/
theorem entry_exact
    (exact : ∀ i < rdbLocationLimit, ∀ p, r i = some p ↔ Meets dev (word rdb rdbPartitionList) i p)
    (made : (List.range rdbLocationLimit).map (fun i => slot i (partitionInfo rdb (r i))) = table.map .ok)
    (below : i < rdbLocationLimit) :
    ((entry table i).isSome ↔ ∃ p, Meets dev (word rdb rdbPartitionList) i p) ∧
      ∀ e, entry table i = some e ↔ ∃ p, Meets dev (word rdb rdbPartitionList) i p ∧ Describes rdb p i e := by
  have filled := entry_made made below
  cases walked : r i with
  | none =>
    have missing : ¬∃ p, Meets dev (word rdb rdbPartitionList) i p := by
      rintro ⟨p, meets⟩
      cases walked.symm.trans ((exact i below p).mpr meets)
    rw [walked] at filled
    have empty : none = entry table i := Except.ok.inj filled
    rw [← empty]
    exact ⟨iff_of_false Bool.false_ne_true missing, fun e =>
      iff_of_false (Option.some_ne_none e).symm fun there => missing (there.imp fun _ => And.left)⟩
  | some p =>
    have meets := (exact i below p).mp walked
    rw [walked] at filled
    have fits : (driveName p).length < nameSize := by
      by_contra overrun
      cases (slot_overrun overrun).symm.trans filled
    obtain ⟨e, found, describes⟩ := @slot_found rdb p i fits
    have here : entry table i = some e := Except.ok.inj (filled.symm.trans found)
    rw [here]
    refine ⟨iff_of_true rfl ⟨p, meets⟩, fun e' => ⟨?_, ?_⟩⟩
    · rintro ⟨⟩
      exact ⟨p, meets, describes⟩
    · rintro ⟨p', meets', describes'⟩
      cases meets.unique meets'
      exact congrArg some (describes.unique describes')

end

section
variable {Device Partition : Type} {s : Menu.Devices Device Partition} {partition : Partition}
  {dev : Device} {i : Nat} {l : List Nat}

/-- A scan comes to a partition when none before it is absent. -/
theorem scanned_reaches (ordered : l.Pairwise (· < ·)) (below : ∀ j ∈ l, j < rdbLocationLimit)
    (listed : i ∈ l) (present : ∀ j ≤ i, (s.table j).isSome) (known : s.table i = some partition)
    (made : s.create partition = some dev) : (some i, dev) ∈ s.scanned l := by
  have get : ∀ j ∈ l, s.rdbPartitionTableGet (BitVec.ofNat 8 j) = s.table j := by
    intro j inside
    have small : (BitVec.ofNat 8 j).toNat = j := by
      have := below j inside
      rw [rdbLocationLimit] at this
      rw [BitVec.toNat_ofNat]
      omega
    rw [Menu.Devices.rdbPartitionTableGet, small]
    exact if_neg (Nat.not_le.mpr (below j inside))
  induction l with
  | nil => exact absurd listed List.not_mem_nil
  | cons j rest ih =>
    obtain ⟨smaller, ordered⟩ := List.pairwise_cons.mp ordered
    rw [Menu.Devices.scanned, get j List.mem_cons_self]
    rcases List.mem_cons.mp listed with rfl | later
    · rw [known]
      dsimp only
      rw [made]
      exact List.mem_cons_self
    · obtain ⟨partition', first⟩ := Option.isSome_iff_exists.mp (present j (smaller i later).le)
      have further := ih ordered (fun k inside => below k (List.mem_cons_of_mem j inside)) later
        (fun k inside => get k (List.mem_cons_of_mem j inside))
      rw [first]
      dsimp only
      cases s.create partition' with
      | none => exact further
      | some dev' => exact List.mem_cons_of_mem _ further

end

section
variable {beyond : Nat → Word} {dev : BlockDevice} {rdb : Block} {r : Nat → Option Block}
  {table : List (Option RdbPartition)}

private theorem follows_of_made
    (exact : ∀ i < rdbLocationLimit, ∀ p, r i = some p ↔ Meets dev (word rdb rdbPartitionList) i p)
    (made : (List.range rdbLocationLimit).map (fun i => slot i (partitionInfo rdb (r i))) = table.map .ok) :
    Follows dev rdb table := by
  have entries {i : Nat} (inside : i < rdbLocationLimit) := entry_exact exact made inside
  have length : table.length = rdbLocationLimit := by
    have same := congrArg List.length made
    rw [List.length_map, List.length_range, List.length_map] at same
    exact same.symm
  have below {i : Nat} (present : (entry table i).isSome) : i < rdbLocationLimit := by
    by_contra beyond
    rw [entry, List.getElem?_eq_none (by omega)] at present
    cases present
  have gapless (i j : Nat) (before : j ≤ i) (present : (entry table i).isSome) : (entry table j).isSome := by
    have inside := below present
    obtain ⟨p, meets⟩ := (entries inside).1.mp present
    exact (entries (before.trans_lt inside)).1.mpr (meets.earlier before)
  refine ⟨length, fun i inside => (entries inside).1, fun i inside => (entries inside).2, gapless, ?_⟩
  intro Device s known i partition d present created
  have here : (entry table i).isSome := Option.isSome_iff_exists.mpr ⟨partition, present⟩
  refine scanned_reaches List.pairwise_lt_range (fun j inside => List.mem_range.mp inside)
    (List.mem_range.mpr (below here)) (fun j before => ?_) ?_ created
  · rw [known]
    exact gapless i j before here
  · rw [known]
    exact present

/-- With names that fit, the table is made and follows the list. -/
theorem table_follows (found : getRdb beyond dev = some rdb)
    (valid : ∀ i < rdbLocationLimit, ValidTo beyond dev (word rdb rdbPartitionList) i)
    (short : ShortNames dev (word rdb rdbPartitionList)) : FollowsList beyond dev rdb := by
  obtain ⟨fuel, ends⟩ := walks_end rdbLocationLimit valid
  choose! r walks using ends
  have exact (i : Nat) (below : i < rdbLocationLimit) := walk_exact (valid i below) (walks i below)
  have slots (i : Nat) (below : i < rdbLocationLimit) : ∃ e, slot i (partitionInfo rdb (r i)) = .ok e := by
    cases walked : r i with
    | none => exact ⟨none, rfl⟩
    | some p =>
      obtain ⟨e, filled, -⟩ := @slot_found rdb p i (short i below p ((exact i below p).mp walked))
      exact ⟨some e, filled⟩
  choose! e filled using slots
  have made : (List.range rdbLocationLimit).map (fun i => slot i (partitionInfo rdb (r i))) =
      ((List.range rdbLocationLimit).map e).map .ok := by
    rw [List.map_map]
    exact List.map_congr_left fun i listed => filled i (List.mem_range.mp listed)
  refine ⟨fuel, _, ?_, follows_of_made exact made⟩
  rw [init_walked found walks, mapM_eq_ok.mpr]
  rw [List.map_id, made]

/-- Where a table is made, the names fit. -/
theorem short_of_made {fuel : Nat} (found : getRdb beyond dev = some rdb)
    (valid : ∀ i < rdbLocationLimit, ValidTo beyond dev (word rdb rdbPartitionList) i)
    (made : rdbPartitionTableInit beyond (some dev) fuel = some (.ok table)) :
    ShortNames dev (word rdb rdbPartitionList) := by
  intro i below p meets
  obtain ⟨r, walks⟩ := init_walks found made
  rw [init_walked found walks] at made
  have slots := mapM_eq_ok.mp (Option.some.inj made)
  rw [List.map_id] at slots
  have filled := entry_made slots below
  rw [(walk_exact (valid i below) (walks i below) p).mpr meets] at filled
  by_contra overrun
  cases (slot_overrun overrun).symm.trans filled

theorem Sound.valid (sound : Sound beyond dev (word rdb rdbPartitionList)) (i : Nat) (_ : i < rdbLocationLimit) :
    ValidTo beyond dev (word rdb rdbPartitionList) i :=
  fun j _ p meets => (sound j p meets).2

/-- The table of a disk follows its partition list if and only if the drive names of the blocks
that it has room for fit into their arrays. -/
theorem table_follows_iff (found : getRdb beyond dev = some rdb)
    (sound : Sound beyond dev (word rdb rdbPartitionList)) :
    FollowsList beyond dev rdb ↔ ShortNames dev (word rdb rdbPartitionList) := by
  constructor
  · rintro ⟨fuel, table, made, -⟩
    exact short_of_made found sound.valid made
  · exact table_follows found sound.valid

end

/-- A disk whose partition list turns back to its own block. -/
def ringWords (block : Word) : List (Nat × Word) :=
  if block = 0 then [(0, 0x5244534B), (1, 64), (2, 0xADBBAA74), (4, 512), (7, 1)]
  else [(0, 0x50415254), (1, 64), (2, 0x682B122C), (4, 1), (9, 0x03444830), (35, 2), (37, 3), (41, 4), (42, 5),
    (48, 0x444F5301)]

def ring : BlockDevice := fun block => (1, fun i => ((ringWords block).lookup i.val).getD 0)

private theorem ring_meets (i : Nat) : Meets ring 1 i (ring 1).2 := by
  induction i with
  | zero => exact .here (by decide) (by decide) (by decide)
  | succ i ih => exact .later (by decide) (by decide) (by decide) ih

/-- A ring of partition blocks fills every slot. -/
theorem ring_fills : ∃ fuel table,
    rdbPartitionTableInit (fun _ => 0) (some ring) fuel = some (.ok table) ∧
      ∀ i < rdbLocationLimit, ∃ e, entry table i = some e ∧ e.info.start = 24 ∧ e.info.size = 11 ∧
        e.info.blksz = 512 ∧ e.info.type = chars "DOS\\1" := by
  have found : getRdb (fun _ => 0) ring = some (ring 0).2 := by decide +kernel
  have listed : word (ring 0).2 rdbPartitionList = 1 := by decide
  have only {k : Nat} {p : Block} (meets : Meets ring (word (ring 0).2 rdbPartitionList) k p) : (ring 1).2 = p :=
    (ring_meets k).unique (listed ▸ meets)
  have sound : Sound (fun _ => 0) ring (word (ring 0).2 rdbPartitionList) := by
    intro k p meets
    rw [← only meets]
    exact ⟨by decide, by decide +kernel⟩
  have short : ShortNames ring (word (ring 0).2 rdbPartitionList) := by
    intro i _ p meets
    rw [← only meets]
    decide +kernel
  obtain ⟨fuel, table, made, follows⟩ := (table_follows_iff found sound).mpr short
  refine ⟨fuel, table, made, fun i below => ?_⟩
  have meets : Meets ring (word (ring 0).2 rdbPartitionList) i (ring 1).2 := listed ▸ ring_meets i
  obtain ⟨e, here⟩ := Option.isSome_iff_exists.mp ((follows.present i below).mpr ⟨_, meets⟩)
  obtain ⟨p, met, describes⟩ := (follows.entries i below e).mp here
  rw [← only met] at describes
  refine ⟨e, here, ?_, ?_, ?_, ?_⟩
  · exact describes.start.trans (by decide)
  · exact describes.size.trans (by decide)
  · exact describes.blksz.trans (by decide)
  · exact describes.type.trans (by decide)

/-- A disk with one partition, whose name goes on to the end of `pb_Reserved2`. -/
def longNamed : BlockDevice := fun block =>
  (1, fun i =>
    if block = 1 ∧ pbDriveName ≤ i.val ∧ i.val < 32 then 0x41414141
    else
      ((if block = 0 then [(0, 0x5244534B), (1, 64), (2, 0xADBBAA74), (4, 512), (7, 1)]
        else [(0, 0x50415254), (1, 64), (2, 0x8E927D87), (4, 0xFFFFFFFF), (35, 2), (37, 3), (41, 4), (42, 5),
          (48, 0x444F5301)] : List (Nat × Word)).lookup i.val).getD 0)

/-- No table is made of that disk: its name does not fit into the array. -/
theorem longNamed_overruns :
    getRdb (fun _ => 0) longNamed = some (longNamed 0).2 ∧
      Sound (fun _ => 0) longNamed (word (longNamed 0).2 rdbPartitionList) ∧
      ¬FollowsList (fun _ => 0) longNamed (longNamed 0).2 := by
  have found : getRdb (fun _ => 0) longNamed = some (longNamed 0).2 := by decide +kernel
  have listed : word (longNamed 0).2 rdbPartitionList = 1 := by decide
  have sound : Sound (fun _ => 0) longNamed (word (longNamed 0).2 rdbPartitionList) := by
    intro k p meets
    rw [listed] at meets
    cases meets with
    | here => exact ⟨by decide, by decide +kernel⟩
    | later _ _ _ further =>
      have last : word (longNamed 1).2 pbNext = idFree := by decide
      rw [last] at further
      cases further with
      | here open' => exact absurd rfl open'
      | later open' => exact absurd rfl open'
  have meets : Meets longNamed (word (longNamed 0).2 rdbPartitionList) 0 (longNamed 1).2 := by
    rw [listed]
    exact .here (by decide) (by decide) (by decide)
  have overrun : ¬(driveName (longNamed 1).2).length < nameSize := by decide +kernel
  refine ⟨found, sound, fun follows => ?_⟩
  obtain ⟨fuel, table, made, -⟩ := follows
  exact overrun (short_of_made found sound.valid made 0 (by decide) _ meets)

/-- The table is made if and only if the first blocks of the partition list have good
checksums, whatever else is on the disk. -/
theorem init_ends_iff (beyond : Nat → Word) (dev : Option BlockDevice) :
    (∃ fuel table, rdbPartitionTableInit beyond dev fuel = some table) ↔
      ∀ disk rdb, dev = some disk → getRdb beyond disk = some rdb → ∀ k < rdbLocationLimit, ∀ p,
        Meets disk (word rdb rdbPartitionList) k p → checksum beyond p = 0 := by
  constructor
  · rintro ⟨fuel, table, made⟩ disk rdb rfl found k below p meets
    obtain ⟨r, walks⟩ := init_walks found made
    exact info_ends_iff.mp ⟨fuel, r k, walks k below⟩ k le_rfl p meets
  · intro valid
    rcases dev with _ | disk
    · exact ⟨0, _, rfl⟩
    · cases found : getRdb beyond disk with
      | none =>
        refine ⟨0, .ok (List.replicate rdbLocationLimit none), ?_⟩
        rw [rdbPartitionTableInit, Option.bind_some, found, Option.map_none]
      | some rdb =>
        obtain ⟨fuel, ends⟩ := walks_end rdbLocationLimit fun i below j before =>
          valid disk rdb rfl found j (Nat.lt_of_le_of_lt before below)
        choose! r walks using ends
        exact ⟨fuel, _, init_walked found walks⟩

/-- A disk with a partition block whose checksum is wrong. -/
def corrupt : BlockDevice := fun block =>
  (1, fun i =>
    if i = amigaId then if block = 0 then idRigidDisk else idPartition
    else if i = amigaSummedLongs then if block = 0 then 0 else 128
    else if i.val = rdbPartitionList then 1 else 0)

/-- The table of that disk is never made. -/
theorem corrupt_never_ends :
    ¬∃ fuel table, rdbPartitionTableInit (fun _ => 0) (some corrupt) fuel = some table := by
  rintro ⟨fuel, table, made⟩
  have found : getRdb (fun _ => 0) corrupt = some (corrupt 0).2 := rfl
  have invalid : checksum (fun _ => 0) (corrupt 1).2 ≠ 0 := by decide +kernel
  obtain ⟨r, walks⟩ := init_walks found made
  have meets : Meets corrupt 1 0 (corrupt 1).2 := .here (by decide) (by decide) (by decide)
  have endless := info_endless (k := 0) meets le_rfl invalid fuel
  exact Option.some_ne_none _ ((walks 0 (by decide)).symm.trans endless)

end Parthenope.PartitionTable
