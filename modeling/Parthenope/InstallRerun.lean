import Parthenope.InstallPartitions

/-! The installer run again. It frees just the blocks that it wrote the time before, so it
finds the room that it found then, and what it leaves does not depend on what has been
installed on the disk before. -/
namespace Parthenope.Install
open Function PartitionTable WriteLog

/-- The blocks that say they are an RDB or boot code sum no more words than they have. -/
def Short (dev : Disk) : Prop :=
  ∀ position, dev position amigaId = idRigidDisk ∨ dev position amigaId = idBoot →
    dev position amigaSummedLongs ≤ 128

/-- A disk on which the installer has been run to its end any number of times. -/
inductive Installs (dev : Disk) : Disk → Prop
  | none : Installs dev dev
  | more {between after : Disk} {setting : Setting} {fuel : Nat} {status : Int} :
      Installs dev between → main setting between fuel = some (status, after) → Installs dev after

/-- Two disks with the same free blocks that are the same in all others. -/
def SameInUse (dev dev' : Disk) : Prop :=
  ∀ position, isFree (dev' position) = isFree (dev position) ∧
    (isFree (dev position) = false → dev' position = dev position)

/-- As `SameInUse`, but one position may hold two blocks that are not free. -/
def SameBut (rdb : Nat) (dev dev' : Disk) : Prop :=
  ∀ position, isFree (dev' position) = isFree (dev position) ∧
    (isFree (dev position) = false → position ≠ rdb → dev' position = dev position)

/-- The disk without the boot code that the RDB in a block names. -/
noncomputable def emptied (beyond : Nat → Word) (dev : Disk) (rdbBlock : Word) : Disk :=
  freed beyond dev (dev (seek rdbBlock) rdbBootBlockList)

/-- A run of `main` that comes to its work. -/
structure Ran (setting : Setting) (file : List (BitVec 8)) (dev : Disk) (rdbBlock : Word)
    (installed : Installed) (after : Disk) : Prop where
  found : findRdb setting.beyond dev = some (rdbBlock, dev (seek rdbBlock))
  rewriting : Rewriting setting.beyond (emptied setting.beyond dev rdbBlock) rdbBlock (dev (seek rdbBlock))
    installed after
  reworked : ∀ position, Reworked (dev position) (after position)
  /-- It has found no free block, or reserved one. -/
  ended : (installed = .noBlock (emptied setting.beyond dev rdbBlock) (dev (seek rdbBlock)) ∧
      ∀ v, ¬Candidate (emptied setting.beyond dev rdbBlock) (nblocks (dev (seek rdbBlock))).toNat v) ∨
    ∃ first s, Final (emptied setting.beyond dev rdbBlock) (dev (seek rdbBlock)) setting.beyond
      (setting.slb file) setting.slbSize.toNat installed first s

section
variable {beyond beyond' : Nat → Word} {dev dev' after : Disk} {head block rdbBlock : Word} {rdb rdb' : Block}
  {setting : Setting} {file : List (BitVec 8)} {installed : Installed} {fuel : Nat} {status : Int}

theorem SameBut.refl (at_ : Nat) (dev : Disk) : SameBut at_ dev dev := fun _ => ⟨rfl, fun _ _ => rfl⟩

theorem SameBut.trans {at_ : Nat} {dev'' : Disk} (first : SameBut at_ dev dev') (second : SameBut at_ dev' dev'') :
    SameBut at_ dev dev'' := by
  intro position
  obtain ⟨free, same⟩ := first position
  obtain ⟨free', same'⟩ := second position
  refine ⟨free'.trans free, fun used elsewhere => ?_⟩
  rw [same' (free.trans used) elsewhere, same used elsewhere]

/-- The search for free blocks cannot tell the two disks. -/
theorem SameBut.free {at_ : Nat} (same : SameBut at_ dev dev') : dev'.free = dev.free :=
  funext fun x => (same (x % 2 ^ 23)).1

private theorem main_ran (ready : setting.Ready file) (found : findRdb setting.beyond dev = some (rdbBlock, rdb))
    (runs : main setting dev fuel = some (status, after)) :
    status = 0 ∧ ∃ installed, Ran setting file dev rdbBlock installed after := by
  obtain ⟨succeeded, installed, installs, written⟩ := main_runs ready found runs
  obtain ⟨rfl, -, -⟩ := findRdb_found found
  subst written
  refine ⟨succeeded, installed, found, rewriting_of_main found rfl installs, main_reworked runs, ?_⟩
  rcases installSlb_final installs with ⟨result, x, above, late, taken⟩ | final
  · exact .inl ⟨result, no_candidate above late taken⟩
  · exact .inr final

/-! ### What a run writes is what the next one frees -/

theorem OldChain.begins (old : OldChain beyond dev head block) : Bootable beyond dev head := by
  induction old with
  | first bootable => exact bootable
  | next _ _ ih => exact ih

section
variable {erased : Disk} {slb : Nat → Word} {n k : Nat} {first number : Word} {s : Progress}

theorem Final.writes (final : Final erased rdb beyond slb n installed first s) : installed.writes = s.writes := by
  rw [final.result]
  rfl

private theorem Final.rdb_eq (final : Final erased rdb beyond slb n installed first s) :
    installed.rdb = rdbWithHead rdb first := by
  rw [final.result]
  rfl

private theorem Progress.reserved_after (s : Progress) {w : Word × Block} (place : s.writes[k]? = some w) :
    ∃ next, s.reserved[k + 1]? = some next := by
  have inside := (List.getElem?_eq_some_iff.mp place).1
  exact ⟨_, List.getElem?_eq_getElem (by rw [s.reserved_length]; omega)⟩

/-- A reserved number leads to a valid BOOT block only where one has been written. -/
theorem Final.bootable_written (main : Rewriting beyond erased rdbBlock rdb installed after)
    (final : Final erased rdb beyond slb n installed first s) (place : s.reserved[k]? = some number)
    (bootable : Bootable beyond after number) : ∃ w ∈ installed.writes, seek w.1 = seek number := by
  by_contra unwritten
  simp only [not_exists, not_and] at unwritten
  have same : installed.rdb amigaId = rdb amigaId := by rw [final.rdb_eq, rdbWithHead, update_of_ne (by decide)]
  have boot := bootable.boot
  rw [main.unwritten unwritten (main.boot_elsewhere same boot)] at boot
  have inv := final.allocating
  rcases List.mem_append.mp (List.mem_of_getElem? place) with old | last
  · obtain ⟨w, member, rfl⟩ := List.mem_map.mp old
    exact unwritten w (final.writes ▸ member) rfl
  rw [List.mem_singleton] at last
  subst last
  rcases inv.reserved with ⟨-, free⟩ | ⟨g, old, round, -⟩
  -- it is still free
  · rw [← free_seek, boot_not_free boot] at free
    cases free
  -- it is a block written, one lap on
  · obtain ⟨w, member, rfl⟩ := List.mem_map.mp old
    refine unwritten w (final.writes ▸ member) ?_
    rw [seek_eq, seek_eq, round]
    omega

/-- The chain that is found afterwards goes through blocks that have been written. -/
theorem Final.old_written (main : Rewriting beyond erased rdbBlock rdb installed after)
    (final : Final erased rdb beyond slb n installed first s) (old : OldChain beyond after first block) :
    ∃ w ∈ installed.writes, seek w.1 = seek block := by
  induction old with
  | first bootable => exact final.bootable_written main final.head bootable
  | @next block old bootable ih =>
    obtain ⟨w, member, same⟩ := ih
    obtain ⟨k, place⟩ := List.getElem?_of_mem (final.writes ▸ member)
    obtain ⟨next, reserved⟩ := s.reserved_after place
    have chunk := final.filling.chunks k w next place reserved
    have link := chunk.link
    rw [← main.written member, same] at link
    split at link
    · exact absurd link bootable.used
    · rw [link] at bootable ⊢
      exact final.bootable_written main reserved bootable

private theorem Final.written_bootable (main : Rewriting beyond erased rdbBlock rdb installed after)
    (final : Final erased rdb beyond slb n installed first s) {w : Word × Block} (place : s.writes[k]? = some w) :
    Bootable beyond after w.1 := by
  have member : w ∈ installed.writes := final.writes ▸ List.mem_of_getElem? place
  obtain ⟨next, reserved⟩ := s.reserved_after place
  have chunk := final.filling.chunks k w next place reserved
  refine ⟨final.reserved_used (List.mem_of_getElem? (Progress.reserved_write place)), ?_, ?_⟩
  · rw [main.written member]
    exact chunk.id
  · rw [main.written member]
    exact chunk.valid

/-- And it goes through all of them. -/
theorem Final.written_old (main : Rewriting beyond erased rdbBlock rdb installed after)
    (final : Final erased rdb beyond slb n installed first s) {w : Word × Block} (place : s.writes[k]? = some w) :
    OldChain beyond after first w.1 := by
  have bootable := final.written_bootable main place
  induction k generalizing w with
  | zero =>
    have same : w.1 = first := Option.some.inj ((Progress.reserved_write place).symm.trans final.head)
    rw [same] at bootable ⊢
    exact .first bootable
  | succ k ih =>
    have inside := (List.getElem?_eq_some_iff.mp place).1
    have before : s.writes[k]? = some s.writes[k] := List.getElem?_eq_getElem (by omega)
    have member : s.writes[k] ∈ installed.writes := by
      rw [final.writes]
      exact List.getElem_mem _
    have needed := final.filling.needed (k + 1) inside
    have link := (final.filling.chunks k _ w.1 before (Progress.reserved_write place)).link
    rw [if_neg (by omega), ← main.written member] at link
    rw [← link] at bootable ⊢
    exact .next (ih before (final.written_bootable main before)) bootable

end

private theorem rdb_used (id : rdb amigaId = idRigidDisk) : isFree rdb = false := by
  rw [isFree, id]
  decide

/-- The RDB has another head at most. -/
theorem Ran.reheaded (ran : Ran setting file dev rdbBlock installed after) :
    Reheaded (dev (seek rdbBlock)) (after (seek rdbBlock)) := by
  cases ran.reworked (seek rdbBlock) with
  | same same => exact same ▸ .refl _
  | own before _ => exact absurd ran.rewriting.id before.other.1
  | rdb _ reheaded => exact reheaded

/-- The chain that is found after a run goes through the blocks that the run has written. -/
theorem Ran.old_iff (ran : Ran setting file dev rdbBlock installed after) (position : Nat) :
    (∃ block, OldChain setting.beyond after (after (seek rdbBlock) rdbBootBlockList) block ∧ seek block = position) ↔
      ∃ w ∈ installed.writes, seek w.1 = position := by
  have main := ran.rewriting
  rw [main.rdb_head]
  rcases ran.ended with ⟨rfl, -⟩ | ⟨first, s, final⟩
  · constructor
    · rintro ⟨block, old, -⟩
      obtain ⟨used, boot, valid⟩ := old.begins
      have elsewhere := main.boot_elsewhere rfl boot
      rw [main.elsewhere _ elsewhere] at boot valid
      exact absurd ⟨used, boot, valid⟩ freed_not_bootable
    · rintro ⟨w, none, -⟩
      exact absurd none List.not_mem_nil
  · rw [final.rdb_eq, rdbWithHead, update_self]
    constructor
    · rintro ⟨block, old, rfl⟩
      exact final.old_written main old
    · rintro ⟨w, member, rfl⟩
      rw [final.writes] at member
      obtain ⟨k, place⟩ := List.getElem?_of_mem member
      exact ⟨w.1, final.written_old main place, rfl⟩

/-- The disk without boot code is the same before and after a run, but for the RDB. -/
theorem Ran.emptied_same (ran : Ran setting file dev rdbBlock installed after) :
    SameBut (seek rdbBlock) (emptied setting.beyond dev rdbBlock) (emptied setting.beyond after rdbBlock) := by
  have main := ran.rewriting
  intro position
  by_cases written : ∃ w ∈ installed.writes, seek w.1 = position
  · obtain ⟨block, old, same⟩ := (ran.old_iff position).mpr written
    obtain ⟨w, member, rfl⟩ := written
    have free := main.writes.free w member
    rw [← free_seek] at free
    have again : isFree (emptied setting.beyond after rdbBlock (seek w.1)) = true := by
      rw [emptied, ← same, isFree, freed_old old]
      rfl
    exact ⟨again.trans free.symm, fun used => absurd (free.symm.trans used) (by decide)⟩
  · have kept : emptied setting.beyond after rdbBlock position = after position :=
      if_neg fun old => written ((ran.old_iff position).mp old)
    rw [kept]
    rcases eq_or_ne position (seek rdbBlock) with rfl | elsewhere
    · refine ⟨?_, fun _ here => absurd rfl here⟩
      rw [main.rdbHere, rdb_used main.id, rdb_used (ran.reheaded.id.trans main.id)]
    · rw [main.unwritten (fun w member same => written ⟨w, member, same⟩) elsewhere]
      exact ⟨rfl, fun _ _ => rfl⟩

/-! ### What a run finds decides on what it writes -/

theorem accepted_reworked {old new : Block} (reworked : Reworked old new) :
    Accepted beyond new ↔ Accepted beyond old := by
  cases reworked with
  | same same => rw [same]
  | own before now => exact ⟨fun new => absurd new.1 now.other.1, fun old => absurd old.1 before.other.1⟩
  | rdb _ reheaded => rw [Accepted, Accepted, reheaded.id, reheaded.checksum_eq]

/-- The RDB is found where it was. -/
theorem findRdb_reworked (reworked : ∀ position, Reworked (dev position) (after position))
    (found : findRdb beyond dev = some (rdbBlock, dev (seek rdbBlock))) :
    findRdb beyond after = some (rdbBlock, after (seek rdbBlock)) := by
  have number : rdbNumber beyond after = rdbNumber beyond dev := by
    simp only [rdbNumber, accepted_reworked (reworked _)]
  rw [findRdb_number, Option.map_eq_some_iff] at found
  obtain ⟨i, rigid, here⟩ := found
  obtain ⟨rfl, -⟩ := Prod.mk.inj here
  rw [findRdb_number, number, rigid, seek_number (rdbNumber_some.mp rigid).2.1]
  rfl

private theorem candidate_congr {bound v : Nat} (same : dev'.free = dev.free) :
    Candidate dev' bound v ↔ Candidate dev bound v := by
  constructor
  · rintro ⟨positive, firstLap, free, opened⟩
    exact ⟨positive, firstLap, same ▸ free, same ▸ opened⟩
  · rintro ⟨positive, firstLap, free, opened⟩
    exact ⟨positive, firstLap, same ▸ free, same ▸ opened⟩

private theorem reserved_congr {bound k v : Nat} (same : dev'.free = dev.free) :
    Reserved dev' bound k v ↔ Reserved dev bound k v := by
  simp only [Reserved, candidate_congr same, freeBelow, same]

theorem Final.candidate {slb : Nat → Word} {n : Nat} {first : Word} {s : Progress}
    (final : Final dev rdb beyond slb n installed first s) : ∃ v, Candidate dev (nblocks rdb).toNat v := by
  have place : (reservedNumbers s)[0]? = some first.toNat := by
    rw [reservedNumbers_eq, List.getElem?_map, final.head]
    rfl
  rcases final.allocating.reserved_at place with ⟨candidate, -⟩ | ⟨g, -, impossible, -⟩
  · exact ⟨_, candidate⟩
  · omega

/-- The blocks that a run writes depend only on which blocks are free, and on the file. -/
theorem Final.writes_same {slb : Nat → Word} {n : Nat} {installed' : Installed} {first first' : Word}
    {s s' : Progress} (final : Final dev rdb beyond slb n installed first s)
    (final' : Final dev' rdb' beyond slb n installed' first' s')
    (free : dev'.free = dev.free) (bound : nblocks rdb' = nblocks rdb) :
    installed'.writes = installed.writes ∧ first' = first := by
  have count : s.writes.length ≤ chunks n := by
    rcases final.ended with ⟨-, count⟩ | ⟨-, count, -⟩ <;> omega
  have count' : s'.writes.length ≤ chunks n := by
    rcases final'.ended with ⟨-, count⟩ | ⟨-, count, -⟩ <;> omega
  have numbers : reservedNumbers s' = reservedNumbers s := by
    refine List.ext_getElem? fun k => ?_
    rcases Nat.lt_or_ge (chunks n) k with past | needed
    · rw [List.getElem?_eq_none, List.getElem?_eq_none]
      · rw [reservedNumbers_eq, List.length_map, s.reserved_length]
        omega
      · rw [reservedNumbers_eq, List.length_map, s'.reserved_length]
        omega
    · refine Option.ext fun v => ?_
      rw [final.reserved_iff needed, final'.reserved_iff needed, bound, reserved_congr free]
  have reserved : s'.reserved = s.reserved := by
    rw [reservedNumbers_eq, reservedNumbers_eq] at numbers
    exact List.map_injective_iff.mpr (fun _ _ => BitVec.eq_of_toNat_eq) numbers
  have length : s'.writes.length = s.writes.length := by
    have := congrArg List.length reserved
    rw [s.reserved_length, s'.reserved_length] at this
    omega
  rw [final.writes, final'.writes]
  constructor
  · refine List.ext_getElem length fun k inside' inside => ?_
    have place := List.getElem?_eq_getElem inside
    have place' := List.getElem?_eq_getElem inside'
    obtain ⟨next, after⟩ := s.reserved_after place
    have mine := Progress.reserved_write place
    have mine' := Progress.reserved_write place'
    rw [reserved, mine, Option.some.injEq] at mine'
    have chunk := final.filling.chunks k _ next place after
    have chunk' := final'.filling.chunks k _ next place' (reserved ▸ after)
    exact Prod.ext mine'.symm (chunk'.unique chunk)
  · have head := final.head
    rw [← reserved, final'.head] at head
    exact Option.some.inj head

private theorem Reheaded.nblocks_eq (reheaded : Reheaded rdb rdb') : nblocks rdb' = nblocks rdb := by
  rw [nblocks, nblocks, reheaded.others _ (by decide) (by decide), reheaded.others _ (by decide) (by decide)]

/-- The checksum makes up for the head, so the head decides on the whole RDB. -/
theorem Reheaded.eq_of_head (reheaded : Reheaded rdb rdb') (same : rdb' rdbBootBlockList = rdb rdbBootBlockList) :
    rdb' = rdb := by
  have balanced := reheaded.balanced
  rw [headSummed, headSummed, reheaded.summed, same, add_left_inj] at balanced
  funext i
  rcases eq_or_ne i rdbBootBlockList with rfl | head
  · exact same
  rcases eq_or_ne i amigaChkSum with rfl | sum
  · exact balanced
  · exact reheaded.others i head sum

theorem Reheaded.symm (reheaded : Reheaded rdb rdb') : Reheaded rdb' rdb :=
  ⟨fun i head sum => (reheaded.others i head sum).symm, reheaded.balanced.symm⟩

/-- Two runs for one file that find the same free blocks write the same blocks, and leave
the same RDB if it was the same or they have found a block. -/
theorem Ran.alike {installed' : Installed} {after' : Disk} (ran : Ran setting file dev rdbBlock installed after)
    (ran' : Ran setting file dev' rdbBlock installed' after')
    (same : SameBut (seek rdbBlock) (emptied setting.beyond dev rdbBlock) (emptied setting.beyond dev' rdbBlock))
    (reheaded : Reheaded (dev (seek rdbBlock)) (dev' (seek rdbBlock)))
    (head : dev' (seek rdbBlock) rdbBootBlockList = dev (seek rdbBlock) rdbBootBlockList ∨
      ∃ v, Candidate (emptied setting.beyond dev rdbBlock) (nblocks (dev (seek rdbBlock))).toNat v) :
    installed'.writes = installed.writes ∧ after' (seek rdbBlock) = after (seek rdbBlock) := by
  have free := same.free
  have bound := reheaded.nblocks_eq
  have heads : after' (seek rdbBlock) rdbBootBlockList = after (seek rdbBlock) rdbBootBlockList →
      after' (seek rdbBlock) = after (seek rdbBlock) :=
    ((ran.reheaded.symm.trans reheaded).trans ran'.reheaded).eq_of_head
  rw [ran.rewriting.rdb_head, ran'.rewriting.rdb_head] at heads
  rcases ran.ended with ⟨rfl, none⟩ | ⟨first, s, final⟩
  · rcases ran'.ended with ⟨rfl, -⟩ | ⟨first', s', final'⟩
    · exact ⟨rfl, heads (head.resolve_right fun some => some.elim none)⟩
    · obtain ⟨v, candidate⟩ := final'.candidate
      rw [candidate_congr free, bound] at candidate
      exact absurd candidate (none v)
  · rcases ran'.ended with ⟨rfl, none⟩ | ⟨first', s', final'⟩
    · obtain ⟨v, candidate⟩ := final.candidate
      rw [← bound, ← candidate_congr free] at candidate
      exact absurd candidate (none v)
    · obtain ⟨writes, firsts⟩ := final.writes_same final' free bound
      refine ⟨writes, heads ?_⟩
      rw [final.rdb_eq, final'.rdb_eq, firsts, rdbWithHead, rdbWithHead, update_self, update_self]

/-- What two such runs leave is the same but for what free blocks hold. -/
theorem Ran.same_after {installed' : Installed} {after' : Disk} (ran : Ran setting file dev rdbBlock installed after)
    (ran' : Ran setting file dev' rdbBlock installed' after')
    (same : SameBut (seek rdbBlock) (emptied setting.beyond dev rdbBlock) (emptied setting.beyond dev' rdbBlock))
    (writes : installed'.writes = installed.writes) (rdb : after' (seek rdbBlock) = after (seek rdbBlock)) :
    SameInUse after after' := by
  intro position
  rcases eq_or_ne position (seek rdbBlock) with rfl | elsewhere
  · rw [rdb]
    exact ⟨rfl, fun _ => rfl⟩
  by_cases written : ∃ w ∈ installed.writes, seek w.1 = position
  · obtain ⟨w, member, rfl⟩ := written
    rw [ran.rewriting.written member, ran'.rewriting.written (writes ▸ member)]
    exact ⟨rfl, fun _ => rfl⟩
  · have kept : ∀ w ∈ installed.writes, seek w.1 ≠ position := fun w member here => written ⟨w, member, here⟩
    rw [ran.rewriting.unwritten kept elsewhere, ran'.rewriting.unwritten (writes ▸ kept) elsewhere]
    exact ⟨(same position).1, fun used => (same position).2 used elsewhere⟩

/-! ### Many runs -/

theorem bootable_short (short : Short dev) (bootable : Bootable beyond dev block) : Bootable beyond' dev block := by
  have own := short _ (.inr bootable.boot)
  refine ⟨bootable.used, bootable.boot, ?_⟩
  rw [checksum_short own, ← @checksum_short beyond _ own]
  exact bootable.valid

private theorem oldChain_short (short : Short dev) (old : OldChain beyond dev head block) :
    OldChain beyond' dev head block := by
  induction old with
  | first bootable => exact .first (bootable_short short bootable)
  | next _ bootable ih => exact .next ih (bootable_short short bootable)

/-- What is freed does not depend on the memory behind the blocks. -/
theorem emptied_short (short : Short dev) : emptied beyond dev rdbBlock = emptied beyond' dev rdbBlock := by
  funext position
  by_cases old : ∃ block, OldChain beyond dev (dev (seek rdbBlock) rdbBootBlockList) block ∧ seek block = position
  · obtain ⟨block, chained, rfl⟩ := old
    have own : update (dev (seek block)) amigaId idFree amigaSummedLongs ≤ 128 := by
      rw [update_of_ne (by decide)]
      exact short _ (.inr chained.bootable.boot)
    rw [emptied, emptied, freed, freed, if_pos ⟨block, chained, rfl⟩,
      if_pos ⟨block, oldChain_short short chained, rfl⟩, erasedBlock, erasedBlock, calculateChecksum,
        calculateChecksum, checksum_short own, checksum_short own]
  · rw [emptied, emptied, freed, freed, if_neg old, if_neg]
    rintro ⟨block, chained, here⟩
    exact old ⟨block, oldChain_short short chained, here⟩

private theorem findRdb_short (short : Short dev) : findRdb beyond dev = findRdb beyond' dev := by
  have decided : Decided dev := fun i _ rigid long => absurd (short i (.inl rigid)) (BitVec.not_le.mpr long)
  have number : rdbNumber beyond dev = rdbNumber beyond' dev :=
    Option.ext fun i => ⟨rdbNumber_decided decided, rdbNumber_decided decided⟩
  rw [findRdb_number, findRdb_number, number]

theorem Chunk.short {slb : Nat → Word} {n k : Nat} {next : Word} {blk : Block}
    (chunk : Chunk beyond slb n k next blk) : blk amigaSummedLongs ≤ 128 := by
  have most : 5 + min 123 (n - 123 * k) ≤ 128 := by omega
  rw [BitVec.le_def, chunk.summed]
  exact most

theorem Ran.short (ran : Ran setting file dev rdbBlock installed after) (short : Short dev) : Short after := by
  have main := ran.rewriting
  intro position named
  rcases eq_or_ne position (seek rdbBlock) with rfl | elsewhere
  · rw [ran.reheaded.others _ (by decide) (by decide)]
    exact short _ (.inl main.id)
  by_cases written : ∃ w ∈ installed.writes, seek w.1 = position
  · obtain ⟨w, member, rfl⟩ := written
    rw [main.written member]
    rcases ran.ended with ⟨rfl, -⟩ | ⟨first, s, final⟩
    · cases member
    · rw [final.writes] at member
      obtain ⟨k, place⟩ := List.getElem?_of_mem member
      obtain ⟨next, reserved⟩ := s.reserved_after place
      exact (final.filling.chunks k w next place reserved).short
  · rw [main.unwritten (fun w member here => written ⟨w, member, here⟩) elsewhere] at named ⊢
    by_cases old : ∃ block, OldChain setting.beyond dev (dev (seek rdbBlock) rdbBootBlockList) block ∧
        seek block = position
    · obtain ⟨block, chained, rfl⟩ := old
      rw [emptied, freed_old chained] at named
      exact absurd named (by decide)
    · have kept : emptied setting.beyond dev rdbBlock position = dev position := if_neg old
      rw [kept] at named ⊢
      exact short position named

/-- What many runs keep of a disk. -/
structure Kept (beyond : Nat → Word) (dev between : Disk) (rdbBlock : Word) : Prop where
  short : Short between
  found : findRdb beyond between = some (rdbBlock, between (seek rdbBlock))
  reheaded : Reheaded (dev (seek rdbBlock)) (between (seek rdbBlock))
  same : SameBut (seek rdbBlock) (emptied beyond dev rdbBlock) (emptied beyond between rdbBlock)
  head : between (seek rdbBlock) rdbBootBlockList = dev (seek rdbBlock) rdbBootBlockList ∨
    ∃ v, Candidate (emptied beyond dev rdbBlock) (nblocks (dev (seek rdbBlock))).toNat v

theorem Kept.turn {between : Disk} (kept : Kept beyond dev between rdbBlock)
    (runs : main setting between fuel = some (status, after)) : Kept beyond dev after rdbBlock := by
  rcases main_cases runs with ⟨-, rfl⟩ | ⟨file, rdbBlock', rdb, ready, found⟩
  · exact kept
  have here := found.symm.trans ((findRdb_short kept.short).trans kept.found)
  obtain ⟨rfl, rfl⟩ := Prod.mk.inj (Option.some.inj here)
  obtain ⟨-, installed, ran⟩ := main_ran ready found runs
  have short := ran.short kept.short
  have same := ran.emptied_same
  rw [emptied_short kept.short, emptied_short short] at same
  refine ⟨short, findRdb_reworked ran.reworked kept.found, kept.reheaded.trans ran.reheaded, kept.same.trans same, ?_⟩
  rcases ran.ended with ⟨rfl, -⟩ | ⟨first, s, final⟩
  · rw [ran.rewriting.rdb_head]
    exact kept.head
  · obtain ⟨v, candidate⟩ := final.candidate
    rw [emptied_short kept.short, candidate_congr kept.same.free, kept.reheaded.nblocks_eq] at candidate
    exact .inr ⟨v, candidate⟩

private theorem kept_of_installs {between : Disk} (short : Short dev)
    (found : findRdb beyond dev = some (rdbBlock, dev (seek rdbBlock))) (worked : Installs dev between) :
    Kept beyond dev between rdbBlock := by
  induction worked with
  | none => exact ⟨short, found, .refl _, .refl _ _, .inl rfl⟩
  | more _ runs ih => exact ih.turn runs

private theorem main_ready (runs : main setting dev fuel = some (0, after)) :
    ∃ file rdbBlock installed, setting.Ready file ∧ Ran setting file dev rdbBlock installed after := by
  rcases main_cases runs with ⟨stopped, -⟩ | ⟨file, rdbBlock, rdb, ready, found⟩
  · exact absurd stopped (by decide)
  · obtain ⟨-, installed, ran⟩ := main_ran ready found runs
    exact ⟨file, rdbBlock, installed, ready, ran⟩

end

/-- An RDB whose reserved blocks are 0 to 3, without boot code. -/
def roomyRdb : Block :=
  calculateChecksum (fun _ => 0) fun i =>
    if i = amigaId then idRigidDisk else if i = amigaSummedLongs then 64
    else if i = rdbBootBlockList then idFree else if i = rdbBlocksHi then 3 else 0

def roomyDisk : Disk := fun position => if position = 0 then roomyRdb else fun _ => 0

def wordSetting (word : BitVec 8) : Setting := { oneWordSetting with file := some [word, word, word, word] }

/-- The disk after a run for a file of one word. -/
def wordRun (word : BitVec 8) (dev : Disk) : Disk := ((main (wordSetting word) dev 3).map Prod.snd).getD dev

private theorem wordRun_runs {word : BitVec 8} {dev : Disk}
    (ends : (main (wordSetting word) dev 3).map Prod.fst = some 0) :
    main (wordSetting word) dev 3 = some (0, wordRun word dev) := by
  obtain ⟨result, runs, succeeded⟩ := Option.map_eq_some_iff.mp ends
  rw [wordRun, runs, ← succeeded]
  rfl

/-- Run again for the same file, with the same memory behind its buffers, the installer leaves
the disk as it is, with the file installed or not. -/
theorem reinstall_same {setting : Setting} {dev after after' : Disk} {fuel fuel' : Nat} {status : Int}
    {scratch : Block} (first : main setting dev fuel = some (0, after))
    (again : main { setting with scratch := scratch } after fuel' = some (status, after')) :
    status = 0 ∧ after' = after := by
  obtain ⟨file, rdbBlock, installed, ready, ran⟩ := main_ready first
  have ready' : ({ setting with scratch := scratch } : Setting).Ready file :=
    ⟨ready.argc, ready.devOpens, ready.statSucceeds, ready.file⟩
  obtain ⟨succeeded, installed', other⟩ := main_ran ready' (findRdb_reworked ran.reworked ran.found) again
  -- what `malloc` gives for a block does not get to the disk
  have ran' : Ran setting file after rdbBlock installed' after' :=
    ⟨other.found, other.rewriting, other.reworked, other.ended⟩
  have head : after (seek rdbBlock) rdbBootBlockList = dev (seek rdbBlock) rdbBootBlockList ∨
      ∃ v, Candidate (emptied setting.beyond dev rdbBlock) (nblocks (dev (seek rdbBlock))).toNat v := by
    rcases ran.ended with ⟨rfl, -⟩ | ⟨first, s, final⟩
    · exact .inl ran.rewriting.rdb_head
    · exact .inr final.candidate
  obtain ⟨writes, rdb⟩ := ran.alike ran' ran.emptied_same ran.reheaded head
  refine ⟨succeeded, funext fun position => ?_⟩
  rcases eq_or_ne position (seek rdbBlock) with rfl | elsewhere
  · exact rdb
  by_cases written : ∃ w ∈ installed.writes, seek w.1 = position
  · obtain ⟨w, member, rfl⟩ := written
    rw [ran.rewriting.written member, ran'.rewriting.written (writes ▸ member)]
  · rw [ran'.rewriting.unwritten (fun w member here => written ⟨w, writes ▸ member, here⟩) elsewhere]
    exact if_neg fun old => written ((ran.old_iff position).mp old)

theorem word_reinstalled : (0 : Int) = 0 ∧ wordRun 1 (wordRun 1 roomyDisk) = wordRun 1 roomyDisk :=
  @reinstall_same (wordSetting 1) roomyDisk (wordRun 1 roomyDisk) (wordRun 1 (wordRun 1 roomyDisk)) 3 3 0 (fun _ => 0)
    (wordRun_runs (by decide +kernel)) (wordRun_runs (by decide +kernel))

/-- What the installer leaves for a file does not depend on what has been installed on the
disk before, and how often, but for the content of free blocks. -/
theorem installs_forget {setting : Setting} {dev between after after' : Disk} {fuel fuel' : Nat} {status : Int}
    (short : Short dev) (worked : Installs dev between) (first : main setting dev fuel = some (0, after))
    (again : main setting between fuel' = some (status, after')) : status = 0 ∧ SameInUse after after' := by
  obtain ⟨file, rdbBlock, installed, ready, ran⟩ := main_ready first
  have kept := kept_of_installs short ran.found worked
  obtain ⟨succeeded, installed', ran'⟩ := main_ran ready kept.found again
  obtain ⟨writes, rdb⟩ := ran.alike ran' kept.same kept.reheaded kept.head
  exact ⟨succeeded, ran.same_after ran' kept.same writes rdb⟩

theorem word_forgotten : (0 : Int) = 0 ∧ SameInUse (wordRun 2 roomyDisk) (wordRun 2 (wordRun 1 roomyDisk)) := by
  refine installs_forget (fun position _ => ?_) (.more .none (@wordRun_runs 1 _ (by decide +kernel)))
    (wordRun_runs (by decide +kernel)) (wordRun_runs (by decide +kernel))
  rw [roomyDisk]
  split <;> decide

end Parthenope.Install
