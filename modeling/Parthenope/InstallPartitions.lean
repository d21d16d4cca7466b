import Parthenope.BlockChecksum
import Parthenope.InstallMain

/-! What the installer leaves of a disk that others use. It frees BOOT blocks, writes blocks
that are free, and changes the head of the boot code and the checksum in the RDB. So the
boot loader makes the same partition table of the disk, whatever has been installed on it,
however that ended, and wherever it was cut off. -/
namespace Parthenope.Install
open Function PartitionTable StepLoop WriteLog

/-- The disks that a run of the installer leaves when it is cut off between two of its
writes, and the one that it leaves when it returns. -/
inductive Passes (setting : Setting) (dev : Disk) : Disk → Prop
  | untouched : Passes setting dev dev
  | erasing {rdbBlock block : Word} {rdb : Block} {mid : Disk} :
      findRdb setting.beyond dev = some (rdbBlock, rdb) →
        Reaches (eraseTurn setting.beyond) (dev, rdb rdbBootBlockList) (mid, block) →
          Passes setting dev mid
  | installing {rdbBlock block freePointer : Word} {rdb : Block} {erased : Disk} {fuel : Nat} {found : Int}
      {file : List (BitVec 8)} {s : Progress} :
      findRdb setting.beyond dev = some (rdbBlock, rdb) →
        eraseSlb setting.beyond dev rdb fuel = some erased →
          nextFreeBlock setting.beyond erased 0 0 (nblocks rdb) = (found, block, freePointer) → 0 ≤ found →
            Reaches (installTurn setting.beyond (update rdb rdbBootBlockList block)
              (setting.slb file) setting.slbSize)
              (.start erased setting.scratch block freePointer) s →
                Passes setting dev s.dev
  | returned {fuel : Nat} {status : Int} {after : Disk} :
      main setting dev fuel = some (status, after) → Passes setting dev after

/-- A disk on which the installer has run any number of times, each to some point. -/
inductive Worked (dev : Disk) : Disk → Prop
  | untouched : Worked dev dev
  | more {between after : Disk} {setting : Setting} :
      Worked dev between → Passes setting between after → Worked dev after

/-- A block that the installer may take: a free one, or one of boot code. -/
def Own (blk : Block) : Prop := isFree blk = true ∨ blk amigaId = idBoot

/-- What the head of the boot code adds to the checksum of an RDB. -/
def headSummed (rdb : Block) : Word :=
  if rdbBootBlockList.val < (summedLongs rdb).toNat then rdb rdbBootBlockList else 0

/-- An RDB with another head of the boot code, which the checksum makes up for. -/
structure Reheaded (rdb rdb' : Block) : Prop where
  others : ∀ i, i ≠ rdbBootBlockList → i ≠ amigaChkSum → rdb' i = rdb i
  balanced : rdb' amigaChkSum + headSummed rdb' = rdb amigaChkSum + headSummed rdb

/-- What may become of a block. -/
inductive Reworked (old new : Block) : Prop
  | same : new = old → Reworked old new
  | own : Own old → Own new → Reworked old new
  | rdb : old amigaId = idRigidDisk → Reheaded old new → Reworked old new

/-- A disk as the boot loader reads it; each block has a result of its own. -/
def seen (res : Word → Word) (dev : Disk) : BlockDevice := fun block => (res block, dev block.toNat)

section
variable {beyond : Nat → Word} {old new newest rdb rdb' : Block} {head : Word} {dev after : Disk}

theorem Own.other (own : Own old) : old amigaId ≠ idRigidDisk ∧ old amigaId ≠ idPartition := by
  rcases own with free | boot
  · simp only [isFree, Bool.and_eq_true, bne_iff_ne] at free
    exact ⟨free.1.1.1.1.1, free.1.1.1.2⟩
  · rw [boot]
    decide

private theorem summedLongs_congr (same : rdb' amigaSummedLongs = rdb amigaSummedLongs) :
    summedLongs rdb' = summedLongs rdb := by
  rw [summedLongs, summedLongs, same]

theorem Reheaded.summed (reheaded : Reheaded rdb rdb') : summedLongs rdb' = summedLongs rdb :=
  summedLongs_congr (reheaded.others _ (by decide) (by decide))

theorem Reheaded.id (reheaded : Reheaded rdb rdb') : rdb' amigaId = rdb amigaId :=
  reheaded.others _ (by decide) (by decide)

theorem Reheaded.refl (rdb : Block) : Reheaded rdb rdb := ⟨fun _ _ _ => rfl, rfl⟩

theorem Reheaded.trans (first : Reheaded old new) (second : Reheaded new newest) : Reheaded old newest :=
  ⟨fun i head sum => (second.others i head sum).trans (first.others i head sum),
    second.balanced.trans first.balanced⟩

/-- The checksum is the same, whatever is summed behind the block. -/
theorem Reheaded.checksum_eq (reheaded : Reheaded rdb rdb') (beyond : Nat → Word) :
    checksum beyond rdb' = checksum beyond rdb := by
  have count : summedLongs (update rdb rdbBootBlockList (rdb' rdbBootBlockList)) = summedLongs rdb :=
    summedLongs_congr (update_of_ne (by decide) ..)
  have whole : rdb' =
      update (update rdb rdbBootBlockList (rdb' rdbBootBlockList)) amigaChkSum (rdb' amigaChkSum) := by
    funext i
    rcases eq_or_ne i amigaChkSum with rfl | sum
    · rw [update_self]
    · rw [update_of_ne sum]
      rcases eq_or_ne i rdbBootBlockList with rfl | head
      · rw [update_self]
      · rw [update_of_ne head, reheaded.others i head sum]
  have balanced := reheaded.balanced
  rw [headSummed, headSummed, reheaded.summed] at balanced
  rw [whole, checksum_update, checksum_word beyond rdb _ (by decide), count,
    update_of_ne (show amigaChkSum ≠ rdbBootBlockList by decide)]
  by_cases many : rdbBootBlockList.val < (summedLongs rdb).toNat
  · have some : 2 < (summedLongs rdb).toNat := Nat.lt_trans (by decide) many
    rw [if_pos many, if_pos many] at balanced
    rw [if_pos many, if_pos some, add_assoc]
    have moved : rdb' amigaChkSum - rdb amigaChkSum = rdb rdbBootBlockList - rdb' rdbBootBlockList := by
      rw [sub_eq_sub_iff_add_eq_add, balanced, add_comm]
    rw [moved, sub_add_sub_cancel, sub_self, add_zero]
  · rw [if_neg many, if_neg many, add_zero, add_zero] at balanced
    rw [if_neg many, balanced, sub_self, ite_self, add_zero, add_zero]

/-- An RDB with a head written to it and its checksum calculated. -/
theorem Reheaded.calculated (valid : checksum beyond rdb = 0) (head : Word) :
    Reheaded rdb (calculateChecksum beyond (rdbWithHead rdb head)) := by
  have count : summedLongs (calculateChecksum beyond (rdbWithHead rdb head)) = summedLongs rdb := by
    refine summedLongs_congr ?_
    rw [calculateChecksum_apply (by decide), rdbWithHead, update_of_ne (by decide)]
  constructor
  · intro i other sum
    rw [calculateChecksum_apply sum, rdbWithHead, update_of_ne other]
  · have written : calculateChecksum beyond (rdbWithHead rdb head) rdbBootBlockList = head := by
      rw [calculateChecksum_apply (by decide), rdbWithHead, update_self]
    have sum : calculateChecksum beyond (rdbWithHead rdb head) amigaChkSum =
        rdb amigaChkSum - checksum beyond (rdbWithHead rdb head) := by
      rw [calculateChecksum, update_self, rdbWithHead, update_of_ne (by decide)]
    rw [headSummed, headSummed, count, written, sum, rdbWithHead, checksum_word beyond rdb head (by decide), valid]
    split
    · ring
    · ring

theorem Reworked.trans (first : Reworked old new) (second : Reworked new newest) : Reworked old newest := by
  cases first with
  | same same => exact same ▸ second
  | own before between =>
    cases second with
    | same same => exact .own before (same ▸ between)
    | own _ after => exact .own before after
    | rdb id _ => exact absurd id between.other.1
  | rdb id first =>
    cases second with
    | same same => exact .rdb id (same ▸ first)
    | own between _ => exact absurd (first.id.trans id) between.other.1
    | rdb _ second => exact .rdb id (first.trans second)

/-- What `install_slb` writes is boot code. -/
theorem installSlb_boot {scratch : Block} {slb : Nat → Word} {slbSize : Word} {fuel : Nat} {out : Installed}
    (runs : installSlb beyond scratch dev rdb slb slbSize fuel = some out) :
    ∀ w ∈ out.writes, w.2 amigaId = idBoot := by
  rcases installSlb_final runs with ⟨rfl, -⟩ | ⟨first, s, final⟩
  · exact fun _ none => absurd none List.not_mem_nil
  · rw [final.result]
    exact final.allocating.boot

/-- The blocks of a disk to which boot code has been written where it was free. -/
theorem reworked_of_writes {writes : List (Word × Block)} (free : ∀ w ∈ writes, dev.free w.1.toNat = true)
    (boot : ∀ w ∈ writes, w.2 amigaId = idBoot) (position : Nat) :
    Reworked (dev position) (replay seek writes dev position) := by
  by_cases named : ∃ w ∈ writes, seek w.1 = position
  · obtain ⟨w, member, names, holds⟩ := replay_named dev named
    have before := free w member
    rw [← free_seek, names] at before
    exact .own (.inl before) (.inr (holds ▸ boot w member))
  · exact .same (replay_other fun w member names => named ⟨w, member, names⟩)

theorem Reworked.erased (boot : old amigaId = idBoot) : Reworked old (erasedBlock beyond old) := by
  refine .own (.inr boot) (.inl ?_)
  simp [isFree, idFree, idRigidDisk, idBadBlock, idPartition, idFileSysHeader, idLoadSeg, idBoot]

theorem Erasing.reworked {freedAt : Nat → Prop} {s : Disk × Word} (inv : Erasing beyond dev head freedAt s)
    (position : Nat) : Reworked (dev position) (s.1 position) := by
  by_cases gone : freedAt position
  · obtain ⟨block, old, rfl⟩ := inv.inside position gone
    rw [inv.changed _ gone]
    exact .erased old.bootable.boot
  · exact .same (inv.kept position gone)

private theorem reworked_of_freed (head : Word) (position : Nat) :
    Reworked (dev position) (freed beyond dev head position) := by
  by_cases old : ∃ block, OldChain beyond dev head block ∧ seek block = position
  · obtain ⟨block, chained, rfl⟩ := old
    rw [freed, if_pos ⟨block, chained, rfl⟩]
    exact .erased chained.bootable.boot
  · exact .same (if_neg old)

/-- `main` leaves the disk alone, or comes to its work. -/
theorem main_cases {setting : Setting} {fuel : Nat} {status : Int}
    (runs : main setting dev fuel = some (status, after)) :
    status = -1 ∧ after = dev ∨
      ∃ file rdbBlock rdb, setting.Ready file ∧ findRdb setting.beyond dev = some (rdbBlock, rdb) := by
  have stopped (ends : some ((-1 : Int), dev) = some (status, after)) : status = -1 ∧ after = dev := by
    cases ends
    exact ⟨rfl, rfl⟩
  unfold main at runs
  split at runs
  · exact .inl (stopped runs)
  rename_i argc
  split at runs
  · exact .inl (stopped runs)
  rename_i devOpens
  split at runs
  · exact .inl (stopped runs)
  rename_i rdbBlock rdb found
  split at runs
  · exact .inl (stopped runs)
  rename_i statSucceeds
  split at runs
  · exact .inl (stopped runs)
  rename_i file opened
  exact .inr ⟨file, rdbBlock, rdb, ⟨not_not.mp argc, by simpa using devOpens,
    by simpa using statSucceeds, opened⟩, found⟩

theorem main_reworked {setting : Setting} {fuel : Nat} {status : Int}
    (runs : main setting dev fuel = some (status, after)) (position : Nat) :
    Reworked (dev position) (after position) := by
  rcases main_cases runs with ⟨-, rfl⟩ | ⟨file, rdbBlock, rdb, ready, found⟩
  · exact .same rfl
  obtain ⟨-, installed, installs, rfl⟩ := main_runs ready found runs
  have main := rewriting_of_main found rfl installs
  obtain ⟨here, id, valid⟩ := findRdb_found found
  rcases eq_or_ne position (seek rdbBlock) with rfl | elsewhere
  · rw [main.rdbThere, here]
    refine .rdb id ?_
    rcases installSlb_final installs with ⟨rfl, -⟩ | ⟨first, s, final⟩
    · have same := Reheaded.calculated valid (rdb rdbBootBlockList)
      rwa [rdbWithHead, update_eq_self] at same
    · rw [final.result]
      exact .calculated valid first
  · rw [main.elsewhere position elsewhere, main.writes.replayed]
    exact (reworked_of_freed _ position).trans
      (reworked_of_writes main.writes.free (installSlb_boot installs) position)

/-- What the loop of `install_slb` has allocated, wherever it is cut off. -/
theorem reserved_reaches {scratch : Block} {slb : Nat → Word} {slbSize block freePointer : Word} {found : Int}
    {s : Progress} (reserves : nextFreeBlock beyond dev 0 0 (nblocks rdb) = (found, block, freePointer))
    (succeeded : 0 ≤ found)
    (reached : Reaches (installTurn beyond (update rdb rdbBootBlockList block) slb slbSize)
      (.start dev scratch block freePointer) s) : Allocating dev (nblocks rdb).toNat s := by
  obtain ⟨x, first, ⟨failed, -⟩ | ⟨-, free, small, reported⟩⟩ :=
    nextFreeBlock_cases beyond dev 0 (nblocks rdb) (show (0 : Word).toNat + 1 < 2 ^ 32 by decide)
  · rw [reserves] at failed
    exact absurd succeeded (Int.not_le.mpr failed)
  · rw [reserves] at reported
    cases reported
    have start := allocating_start scratch first free small
    rw [← nblocks_rdbWithHead rdb (BitVec.ofNat 32 x)] at start ⊢
    exact allocating_reaches start reached

private theorem passes_reworked {setting : Setting} (passes : Passes setting dev after) (position : Nat) :
    Reworked (dev position) (after position) := by
  cases passes with
  | untouched => exact .same rfl
  | @erasing _ block rdb _ found reached =>
    obtain ⟨freedAt, inv⟩ := reached.invariant
      (fun s => ∃ freedAt, Erasing setting.beyond dev (rdb rdbBootBlockList) freedAt s)
      (fun _ _ inv turns => inv.elim fun _ inv => ⟨_, inv.turn turns⟩) ⟨_, erasing_start _⟩
    exact inv.reworked position
  | @installing _ block freePointer rdb erased _ _ file s found erases reserves succeeded reached =>
    rw [eraseSlb_freed erases] at reserves reached
    have inv := reserved_reaches reserves succeeded reached
    rw [inv.replayed]
    exact (reworked_of_freed _ position).trans (reworked_of_writes inv.freeWrites.free inv.boot position)
  | returned runs => exact main_reworked runs position

/-- Every block of a disk that the installer has worked on is as it was, but for those that
it may take and the head in the RDB. -/
theorem worked_reworked (worked : Worked dev after) (position : Nat) : Reworked (dev position) (after position) := by
  induction worked with
  | untouched => exact .same rfl
  | more _ passes ih => exact ih.trans (passes_reworked passes position)

variable {res : Word → Word}

/-- A turn of `get_partition_info` tells no block from what it was before, unless it is a
partition. -/
theorem infoTurn_reworked (reworked : ∀ position, Reworked (dev position) (after position))
    (s : Word × Int × Option Block) :
    infoTurn beyond (seen res after) s = infoTurn beyond (seen res dev) s := by
  obtain ⟨block, part, p⟩ := s
  have other (before : dev block.toNat amigaId ≠ idPartition) (now : after block.toNat amigaId ≠ idPartition) :
      infoTurn beyond (seen res after) (block, part, p) = infoTurn beyond (seen res dev) (block, part, p) := by
    dsimp only [infoTurn, seen]
    rw [if_pos before, if_pos now]
  cases reworked block.toNat with
  | same same =>
    have device : seen res after block = seen res dev block := by rw [seen, seen, same]
    unfold infoTurn
    dsimp only
    rw [device]
  | own before now => exact other before.other.2 now.other.2
  | rdb id reheaded =>
    have partition : idRigidDisk ≠ idPartition := by decide
    exact other (id ▸ partition) (reheaded.id.trans id ▸ partition)

/-- The RDB that `get_rdb` finds has another head at most. -/
theorem getRdb_reworked (reworked : ∀ position, Reworked (dev position) (after position)) :
    (getRdb beyond (seen res after) = none ∧ getRdb beyond (seen res dev) = none) ∨
      ∃ rdb rdb', getRdb beyond (seen res dev) = some rdb ∧ getRdb beyond (seen res after) = some rdb' ∧
        Reheaded rdb rdb' := by
  unfold getRdb
  induction List.range rdbLocationLimit with
  | nil => exact .inl ⟨rfl, rfl⟩
  | cons i numbers ih =>
    rw [List.findSome?_cons, List.findSome?_cons]
    dsimp only [seen]
    cases reworked (BitVec.ofNat 32 i).toNat with
    | same same =>
      rw [same]
      split
      · exact .inr ⟨_, _, rfl, rfl, .refl _⟩
      · exact ih
    | own before now =>
      rw [if_neg fun all => now.other.1 all.2.1, if_neg fun all => before.other.1 all.2.1]
      exact ih
    | rdb id reheaded =>
      rw [reheaded.id, reheaded.checksum_eq]
      by_cases accepted : res (BitVec.ofNat 32 i) = 1 ∧ dev (BitVec.ofNat 32 i).toNat amigaId = idRigidDisk ∧
          checksum beyond (dev (BitVec.ofNat 32 i).toNat) = 0
      · rw [if_pos accepted, if_pos accepted]
        exact .inr ⟨_, _, rfl, rfl, reheaded⟩
      · rw [if_neg accepted, if_neg accepted]
        exact ih

/-- The partition table is made of words that no run of the installer changes. -/
theorem table_reworked (reworked : ∀ position, Reworked (dev position) (after position)) (fuel : Nat) :
    rdbPartitionTableInit beyond (some (seen res after)) fuel =
      rdbPartitionTableInit beyond (some (seen res dev)) fuel := by
  have turns : infoTurn beyond (seen res after) = infoTurn beyond (seen res dev) :=
    funext (infoTurn_reworked reworked)
  unfold rdbPartitionTableInit
  rw [Option.bind_some, Option.bind_some]
  rcases @getRdb_reworked beyond dev after res reworked with ⟨now, before⟩ | ⟨rdb, rdb', before, now, reheaded⟩
  · rw [now, before]
    rfl
  · rw [now, before, Option.map_some, Option.map_some]
    have list : word rdb' rdbPartitionList = word rdb rdbPartitionList :=
      reheaded.others ⟨7, by decide⟩ (by decide) (by decide)
    have bytes : word rdb' rdbBlockBytes = word rdb rdbBlockBytes :=
      reheaded.others ⟨4, by decide⟩ (by decide) (by decide)
    have partition : diskPartition rdb' = diskPartition rdb := by
      funext p
      rw [diskPartition, diskPartition, bytes]
    have info : partitionInfo rdb' = partitionInfo rdb := by
      funext p
      rw [partitionInfo, partitionInfo, partition]
    dsimp only [getPartitionInfo]
    rw [turns, list, info]

end

/-- The boot loader makes the same partition table of a disk however often the installer has
been run on it, whatever for, and wherever it was cut off. -/
theorem worked_keeps_table {dev after : Disk} (worked : Worked dev after) (beyond : Nat → Word) (res : Word → Word)
    (fuel : Nat) : rdbPartitionTableInit beyond (some (seen res after)) fuel =
      rdbPartitionTableInit beyond (some (seen res dev)) fuel :=
  table_reworked (worked_reworked worked) fuel

theorem oneWord_keeps_table :
    rdbPartitionTableInit (fun _ => 0) (some (seen (fun _ => 1) oneWordResult.2)) 3 =
      rdbPartitionTableInit (fun _ => 0) (some (seen (fun _ => 1) smallDisk)) 3 :=
  worked_keeps_table (.more .untouched (.returned oneWord_runs)) _ _ _

end Parthenope.Install
