import Parthenope.InstallErase
import Parthenope.InstallRange

/-! `main` of the installer: erase, install and rewrite the RDB, whatever
became of the step before. -/
namespace Parthenope.Install
open Function WriteLog

/-- The bytes of a word as they stand on the disk. -/
def wordBytes (w : Word) : List (BitVec 8) :=
  [w.extractLsb' 24 8, w.extractLsb' 16 8, w.extractLsb' 8 8, w.extractLsb' 0 8]

/-- The bytes the boot words of a chain spell. -/
def chainBytes (dev : Disk) (blocks : List Word) : List (BitVec 8) :=
  blocks.flatMap fun block => (bootWords (dev (seek block))).flatMap wordBytes

/-- `main` exits with 0 and the RDB points to a chain with every byte of the file. -/
structure InstallsFile (beyond : Nat → Word) (file : List (BitVec 8)) (rdbBlock : Word)
    (status : Int) (after : Disk) : Prop where
  status : status = 0
  id : after (seek rdbBlock) amigaId = idRigidDisk
  valid : checksum beyond (after (seek rdbBlock)) = 0
  chain : ∃ blocks, Chain beyond after (after (seek rdbBlock) rdbBootBlockList) blocks ∧
    file <+: chainBytes after blocks

/-- The reserved area has not enough free blocks, and the RDB and the old chain
are as they were. -/
structure LeavesChain (beyond : Nat → Word) (dev : Disk) (file : List (BitVec 8)) (rdbBlock : Word)
    (rdb : Block) (after : Disk) : Prop where
  few : freeCount dev (rdb rdbBlocksLo).toNat (rdb rdbBlocksHi).toNat < (file.length + 491) / 492
  rdbKept : after (seek rdbBlock) = dev (seek rdbBlock)
  chainKept : ∀ block, OldChain beyond dev (rdb rdbBootBlockList) block →
    after (seek block) = dev (seek block)

/-- What `main` is expected to do with a disk and a boot file. -/
def InstallsOrLeaves (beyond : Nat → Word) (dev : Disk) (file : List (BitVec 8)) (status : Int)
    (after : Disk) : Prop :=
  ∃ rdbBlock rdb, findRdb beyond dev = some (rdbBlock, rdb) ∧
    (InstallsFile beyond file rdbBlock status after ∨
      LeavesChain beyond dev file rdbBlock rdb after)

/-- A block that already holds what the run writes there: the chunk of the
number the search yields for it. -/
def Rewritten (beyond slb : Nat → Word) (n : Nat) (dev erased : Disk) (bound : Nat)
    (block : Word) : Prop :=
  ∃ k number next, k < chunks n ∧ Reserved erased bound k number ∧
    Reserved erased bound (k + 1) next ∧ number % 2 ^ 23 = seek block ∧
    Chunk beyond slb n k (BitVec.ofNat 32 next) (dev (seek block))

/-- The disks and files `main` treats as expected. The disk has an RDB, and
- the words that `st_size` comes to, at least one, have room for the whole file, and the
  search yields blocks for all chunks and one more, or
- the file is empty, and so are the old chain and what the search yields, or
- the reserved area is too small, the first block the search yields, if any, is
  the one the RDB names, and the run writes back every block of the old chain. -/
def MainSucceeds (setting : Setting) (dev : Disk) (file : List (BitVec 8)) : Prop :=
  ∃ rdbBlock rdb, findRdb setting.beyond dev = some (rdbBlock, rdb) ∧
    ((0 < setting.slbSize.toNat ∧ file.length ≤ 4 * setting.slbSize.toNat ∧
        ∃ v, Reserved (freed setting.beyond dev (rdb rdbBootBlockList)) (nblocks rdb).toNat
          (chunks setting.slbSize.toNat) v) ∨
      (file.length = 0 ∧ rdb rdbBootBlockList = idFree ∧
        ∀ v, ¬ Candidate (freed setting.beyond dev (rdb rdbBootBlockList)) (nblocks rdb).toNat v) ∨
      (freeCount dev (rdb rdbBlocksLo).toNat (rdb rdbBlocksHi).toNat < (file.length + 491) / 492 ∧
        (∀ v, Reserved (freed setting.beyond dev (rdb rdbBootBlockList)) (nblocks rdb).toNat 0 v →
          v = (rdb rdbBootBlockList).toNat) ∧
        ∀ block, OldChain setting.beyond dev (rdb rdbBootBlockList) block →
          Rewritten setting.beyond (setting.slb file) setting.slbSize.toNat dev
            (freed setting.beyond dev (rdb rdbBootBlockList)) (nblocks rdb).toNat block))

/-- A block that names itself and checks sums at least its checksum field. -/
theorem valid_summed {beyond : Nat → Word} {blk : Block} (id : blk amigaId = idRigidDisk)
    (valid : checksum beyond blk = 0) :
    blk amigaSummedLongs = 0 ∨ 2 < (blk amigaSummedLongs).toNat := by
  by_contra other
  rw [not_or] at other
  have small : blk amigaSummedLongs = 1 ∨ blk amigaSummedLongs = 2 := by
    have positive : (blk amigaSummedLongs).toNat ≠ 0 := fun zero =>
      other.1 (BitVec.eq_of_toNat_eq zero)
    rcases (by omega : (blk amigaSummedLongs).toNat = 1 ∨ (blk amigaSummedLongs).toNat = 2) with
      one | two
    · exact .inl (BitVec.eq_of_toNat_eq one)
    · exact .inr (BitVec.eq_of_toNat_eq two)
  have first : ∀ beyond, summedWord beyond blk 0 = idRigidDisk := fun _ => id
  rcases small with one | two
  · have count : summedLongs blk = 1 := by rw [summedLongs, one]; rfl
    rw [checksum, count] at valid
    simp [List.range_succ, first] at valid
    exact absurd valid (by decide)
  · have count : summedLongs blk = 2 := by rw [summedLongs, two]; rfl
    have second : ∀ beyond, summedWord beyond blk 1 = 2 := fun _ => count
    rw [checksum, count] at valid
    simp [List.range_succ, first, second] at valid
    exact absurd valid (by decide)

/-- The RDB found is the block of its number, and checks. -/
theorem findRdb_found {beyond : Nat → Word} {dev : Disk} {rdbBlock : Word} {rdb : Block}
    (found : findRdb beyond dev = some (rdbBlock, rdb)) :
    dev (seek rdbBlock) = rdb ∧ rdb amigaId = idRigidDisk ∧ checksum beyond rdb = 0 := by
  obtain ⟨i, -, found⟩ := List.exists_of_findSome?_eq_some found
  simp only [readBlock] at found
  split at found
  · cases found
  rename_i blk valid
  obtain ⟨rfl, -⟩ := Prod.mk.inj valid
  split at found
  · cases found
  rename_i id
  split at found
  · cases found
  rename_i sum
  obtain ⟨rfl, rfl⟩ := Prod.mk.inj (Option.some.inj found)
  have whole : readRdb dev (dev (seek (BitVec.ofNat 32 i))) (BitVec.ofNat 32 i) =
      dev (seek (BitVec.ofNat 32 i)) := by
    funext j
    simp only [readRdb, ite_self]
  rw [whole]
  exact ⟨rfl, not_not.mp id, not_not.mp sum⟩

/-- The surroundings let `main` come to its work. -/
structure Setting.Ready (setting : Setting) (file : List (BitVec 8)) : Prop where
  argc : setting.argc = 2
  devOpens : setting.devOpens = true
  statSucceeds : setting.statSucceeds = true
  file : setting.file = some file

/-- `main` on a disk with an RDB: the old chain is freed, the file installed
there, and the RDB written whatever the outcome. -/
theorem main_runs {setting : Setting} {file : List (BitVec 8)} {dev after : Disk}
    {rdbBlock : Word} {rdb : Block} {fuel : Nat} {status : Int} (ready : setting.Ready file)
    (found : findRdb setting.beyond dev = some (rdbBlock, rdb))
    (runs : main setting dev fuel = some (status, after)) :
    status = 0 ∧ ∃ installed,
      installSlb setting.beyond setting.scratch
        (freed setting.beyond dev (rdb rdbBootBlockList)) rdb (setting.slb file) setting.slbSize
        fuel = some installed ∧
      after = writeBlock installed.dev (calculateChecksum setting.beyond installed.rdb) rdbBlock := by
  simp only [main, ready.argc, ready.devOpens, ready.statSucceeds, ready.file, found, ne_eq,
    not_true_eq_false, if_false, Bool.not_true, Bool.false_eq_true, Option.bind_eq_bind,
    Option.bind_eq_some_iff, Option.pure_def, Option.some.injEq, Prod.mk.injEq] at runs
  obtain ⟨erased, erases, installed, installs, rfl, rfl⟩ := runs
  rw [eraseSlb_freed erases] at installs
  exact ⟨rfl, installed, installs, rfl⟩

/-- `main` returns on every disk. -/
theorem main_returns {setting : Setting} {file : List (BitVec 8)} (ready : setting.Ready file)
    (dev : Disk) : ∃ fuel result, main setting dev fuel = some result := by
  cases found : findRdb setting.beyond dev with
  | none =>
    exact ⟨0, (-1, dev), by
      simp [main, ready.argc, ready.devOpens, found]⟩
  | some pair =>
    obtain ⟨erasing, erased, erases⟩ := eraseSlb_returns setting.beyond dev pair.2
    obtain ⟨installing, installed, installs⟩ := installSlb_returns setting.beyond setting.scratch
      erased pair.2 (setting.slb file) setting.slbSize
    refine ⟨max erasing installing,
      (0, writeBlock installed.dev (calculateChecksum setting.beyond installed.rdb) pair.1), ?_⟩
    have erases := StepLoop.run_mono erases (le_max_left erasing installing)
    have installs := installSlb_mono installs (le_max_right erasing installing)
    simp only [main, ready.argc, ready.devOpens, ready.statSucceeds, ready.file, found, ne_eq,
      not_true_eq_false, if_false, Bool.not_true, Bool.false_eq_true, Option.bind_eq_bind]
    rw [show eraseSlb setting.beyond dev pair.2 (max erasing installing) = some erased from erases,
      Option.bind_some, installs, Option.bind_some]
    rfl

/-- What `main` has made of the disk: blocks of the freed disk that were free
are written, and then the RDB. -/
structure Rewriting (beyond : Nat → Word) (erased : Disk) (rdbBlock : Word) (rdb : Block)
    (installed : Installed) (after : Disk) : Prop where
  rdbHere : erased (seek rdbBlock) = rdb
  id : rdb amigaId = idRigidDisk
  valid : checksum beyond rdb = 0
  writes : FreeWrites erased installed.writes installed.dev
  rdbThere : after (seek rdbBlock) = calculateChecksum beyond installed.rdb
  elsewhere : ∀ position, position ≠ seek rdbBlock → after position = installed.dev position

section
variable {beyond slb : Nat → Word} {n : Nat} {erased after : Disk} {rdbBlock : Word} {rdb : Block}
  {installed : Installed} {first : Word} {s : Progress}

private theorem Rewriting.free_elsewhere (main : Rewriting beyond erased rdbBlock rdb installed after)
    {position : Nat} (free : isFree (erased position) = true) : position ≠ seek rdbBlock := by
  rintro rfl
  rw [main.rdbHere, isFree, main.id] at free
  exact absurd free (by decide)

/-- The old chain does not run through the RDB. -/
theorem Rewriting.old_elsewhere (main : Rewriting beyond erased rdbBlock rdb installed after) {dev : Disk}
    {head block : Word} (here : dev (seek rdbBlock) = rdb) (old : OldChain beyond dev head block) :
    seek block ≠ seek rdbBlock := by
  intro same
  have boot := old.bootable.boot
  rw [same, here, main.id] at boot
  exact absurd boot (by decide)

theorem Rewriting.boot_elsewhere (main : Rewriting beyond erased rdbBlock rdb installed after)
    (kept : installed.rdb amigaId = rdb amigaId) {position : Nat}
    (boot : after position amigaId = idBoot) : position ≠ seek rdbBlock := by
  rintro rfl
  rw [main.rdbThere, calculateChecksum_apply (by decide), kept, main.id] at boot
  exact absurd boot (by decide)

theorem Rewriting.written (main : Rewriting beyond erased rdbBlock rdb installed after)
    {w : Word × Block} (member : w ∈ installed.writes) : after (seek w.1) = w.2 := by
  have free := main.writes.free w member
  rw [← free_seek] at free
  rw [main.elsewhere _ (main.free_elsewhere free), main.writes.replayed,
    replay_written main.writes.positions member]

theorem Rewriting.unwritten (main : Rewriting beyond erased rdbBlock rdb installed after)
    {position : Nat} (other : ∀ w ∈ installed.writes, seek w.1 ≠ position)
    (elsewhere : position ≠ seek rdbBlock) : after position = erased position := by
  rw [main.elsewhere _ elsewhere, main.writes.replayed, replay_other other]

/-- A chain visits BOOT blocks only, and a disk has one chain from a number. -/
theorem Chain.boot {disk : Disk} {blocks : List Word} {head block : Word}
    (chain : Chain beyond disk head blocks) (member : block ∈ blocks) :
    disk (seek block) amigaId = idBoot := by
  induction blocks generalizing head with
  | nil => cases member
  | cons next rest ih =>
    obtain ⟨rfl, -, boot, -, tail⟩ := chain
    rcases List.mem_cons.mp member with rfl | later
    · exact boot
    · exact ih tail later

theorem Chain.unique {disk : Disk} {blocks blocks' : List Word} {head : Word}
    (left : Chain beyond disk head blocks) (right : Chain beyond disk head blocks') :
    blocks = blocks' := by
  induction blocks generalizing head blocks' with
  | nil =>
    cases blocks' with
    | nil => rfl
    | cons next rest => exact absurd (right.1.symm.trans left) right.2.1
  | cons next rest ih =>
    cases blocks' with
    | nil => exact absurd (left.1.symm.trans right) left.2.1
    | cons next' rest' =>
      obtain ⟨rfl, -, -, -, tail⟩ := left
      obtain ⟨rfl, -, -, -, tail'⟩ := right
      rw [ih tail tail']

private theorem Chain.transfer {disk disk' : Disk} {blocks : List Word} {head : Word}
    (chain : Chain beyond disk head blocks)
    (same : ∀ block ∈ blocks, disk' (seek block) = disk (seek block)) :
    Chain beyond disk' head blocks := by
  induction blocks generalizing head with
  | nil => exact chain
  | cons next rest ih =>
    obtain ⟨start, used, boot, valid, tail⟩ := chain
    rw [Chain, same next List.mem_cons_self]
    exact ⟨start, used, boot, valid,
      ih tail fun block member => same block (List.mem_cons_of_mem _ member)⟩

/-- A chain does not come back to a block that links to itself. -/
theorem Chain.no_loop {disk : Disk} {blocks : List Word} {block : Word}
    (loops : disk (seek block) bcbNext = block) (used : block ≠ idFree) :
    ¬ Chain beyond disk block blocks := by
  induction blocks with
  | nil => exact used
  | cons next rest ih =>
    rintro ⟨rfl, -, -, -, tail⟩
    rw [loops] at tail
    exact ih tail

/-- The numbers reserved are real block numbers. -/
theorem Final.reserved_used {dev : Disk} (final : Final dev rdb beyond slb n installed first s)
    {number : Word} (member : number ∈ s.reserved) : number ≠ idFree := by
  have inside : number.toNat ∈ reservedNumbers s := by
    rw [reservedNumbers_eq]
    exact List.mem_map_of_mem member
  have top : number.toNat < 2 ^ 31 := by
    have := final.allocating.small
    rcases List.mem_append.mp inside with old | last
    · have := final.allocating.below old
      omega
    · rw [List.mem_singleton] at last
      omega
  rintro rfl
  exact absurd top (by decide)

/-- A run that stops early leaves no chain behind. -/
theorem Final.broken (main : Rewriting beyond erased rdbBlock rdb installed after)
    (final : Final erased rdb beyond slb n installed first s)
    (short : s.writes.length < max 1 (chunks n)) (blocks : List Word) :
    ¬ Chain beyond after first blocks := by
  intro chain
  have inv := final.allocating
  have writes : installed.writes = s.writes := by rw [final.result]; rfl
  -- the links lead to the number reserved last
  have follows : ∀ (k : Nat) (number : Word), s.reserved[k]? = some number →
      ∃ blocks, Chain beyond after number blocks := by
    intro k
    induction k with
    | zero =>
      intro number place
      obtain rfl := Option.some.inj (place.symm.trans final.head)
      exact ⟨blocks, chain⟩
    | succ k ih =>
      intro number place
      have written := Progress.reserved_before place
      have member : s.writes[k] ∈ installed.writes := by
        rw [writes]
        exact List.getElem_mem written
      have before := Progress.reserved_write (List.getElem?_eq_getElem written)
      obtain ⟨blocks, chain⟩ := ih _ before
      cases blocks with
      | nil => exact absurd chain (final.reserved_used (List.mem_of_getElem? before))
      | cons next rest =>
        obtain ⟨rfl, -, -, -, tail⟩ := chain
        have chunk := final.filling.chunks k _ number (List.getElem?_eq_getElem written) place
        rw [main.written member, chunk.link, if_neg (by rw [chunks] at short; omega)] at tail
        exact ⟨rest, tail⟩
  have last : s.reserved[s.writes.length]? = some s.block := by
    simp [Progress.reserved]
  obtain ⟨blocks, chain⟩ := follows _ _ last
  have used := final.reserved_used (List.mem_of_getElem? last)
  rcases inv.reserved with ⟨early, free⟩ | ⟨g, old, round, -, greatest⟩
  -- it is still free
  · cases blocks with
    | nil => exact used chain
    | cons next rest =>
      obtain ⟨rfl, -, boot, -, -⟩ := chain
      have still : isFree (erased (seek s.block)) = true := by rw [free_seek]; exact free
      rw [main.unwritten _ (main.free_elsewhere still)] at boot
      · rw [isFree, boot] at still
        exact absurd still (by decide)
      · intro w member same
        have := inv.freeWrites.first w (writes ▸ member)
        have := inv.below (List.mem_map_of_mem (f := fun w : Word × Block => w.1.toNat)
          (writes ▸ member))
        rw [seek_eq, seek_eq] at same
        omega
  -- it is the block written last, which links to itself
  · obtain ⟨k, place⟩ := List.getElem?_of_mem old
    have end_ := inv.greatest_place greatest place
    rw [numbers, List.getElem?_map, Option.map_eq_some_iff] at place
    obtain ⟨w, place, rfl⟩ := place
    have member := List.mem_of_getElem? place
    have chunk := final.filling.chunks k w s.block place (by rw [end_]; exact last)
    have same : seek s.block = seek w.1 := by
      rw [seek_eq, seek_eq]
      omega
    refine Chain.no_loop ?_ used chain
    rw [same, main.written (writes ▸ member), chunk.link, if_neg (by rw [chunks] at short; omega)]

/-- The RDB written back checks, whatever head it got. -/
theorem Rewriting.rdb_valid (main : Rewriting beyond erased rdbBlock rdb installed after)
    (kept : ∀ i, i ≠ rdbBootBlockList → installed.rdb i = rdb i) :
    after (seek rdbBlock) amigaId = idRigidDisk ∧ checksum beyond (after (seek rdbBlock)) = 0 := by
  rw [main.rdbThere]
  constructor
  · rw [calculateChecksum_apply (by decide), kept _ (by decide), main.id]
  · refine checksum_calculated ?_
    rw [kept _ (by decide)]
    exact valid_summed main.id main.valid

theorem Rewriting.rdb_head (main : Rewriting beyond erased rdbBlock rdb installed after) :
    after (seek rdbBlock) rdbBootBlockList = installed.rdb rdbBootBlockList := by
  rw [main.rdbThere, calculateChecksum_apply (by decide)]

private theorem Rewriting.rdb_calculated (main : Rewriting beyond erased rdbBlock rdb installed after) :
    calculateChecksum beyond rdb = rdb := by
  rw [calculateChecksum, main.valid, sub_zero, update_eq_self]

/-- The RDB is as it was exactly where its head is. -/
theorem Rewriting.rdb_same_iff (main : Rewriting beyond erased rdbBlock rdb installed after)
    {head : Word} (result : installed.rdb = rdbWithHead rdb head) :
    after (seek rdbBlock) = rdb ↔ head = rdb rdbBootBlockList := by
  constructor
  · intro same
    have stored := main.rdb_head
    rw [same, result, rdbWithHead, update_self] at stored
    exact stored.symm
  · rintro rfl
    rw [main.rdbThere, result, rdbWithHead, update_eq_self, main.rdb_calculated]

private theorem wordBytes_append (a b c d : BitVec 8) : wordBytes (a ++ b ++ c ++ d) = [a, b, c, d] := by
  simp only [wordBytes, List.cons.injEq, and_true]
  refine ⟨?_, ?_, ?_, ?_⟩ <;> ext i small <;> rw [← BitVec.getLsbD_eq_getElem] <;>
    grind

/-- The words of the buffer spell its bytes. -/
theorem fileWord_bytes (junk : Nat → BitVec 8) (file : List (BitVec 8)) (n : Nat) :
    ((List.range n).map (fileWord junk file)).flatMap wordBytes =
      (List.range (4 * n)).map (fileByte junk file) := by
  induction n with
  | zero => rfl
  | succ n ih =>
    rw [List.range_succ, List.map_append, List.flatMap_append, ih, Nat.mul_succ]
    simp [fileWord, wordBytes_append, List.range_succ]

/-- So much of a buffer has the whole file if it is no less. -/
theorem prefix_fileBytes_iff {junk : Nat → BitVec 8} {file : List (BitVec 8)} {size k : Nat} (most : k ≤ size) :
    file <+: (List.range k).map (fileByte junk (file.take size)) ↔ file.length ≤ k := by
  constructor
  · intro spells
    simpa using spells.length_le
  · intro covers
    rw [List.prefix_iff_eq_take]
    refine List.ext_getElem (by simpa using covers) fun i inside _ => ?_
    simp [fileByte, List.getElem?_take_of_lt (show i < size by omega), inside]

end

section
variable {setting : Setting} {file : List (BitVec 8)} {dev after : Disk} {rdbBlock : Word}
  {rdb : Block} {installed : Installed} {fuel : Nat} {first : Word} {s : Progress}

/-- There are no more words than `st_size` has room for. -/
theorem slbSize_le (setting : Setting) : 4 * setting.slbSize.toNat ≤ setting.stSize := by
  have most := Nat.mod_le (setting.stSize / 4) (2 ^ 32)
  rw [Setting.slbSize, BitVec.toNat_ofNat]
  omega

/-- A run that reserved a block installs the file exactly where the words that it is told of
have the whole file, and the search yields a number after the last chunk. -/
theorem Final.installs_iff {erased : Disk} {scratch : Block}
    (main : Rewriting setting.beyond erased rdbBlock rdb installed after)
    (final : Final erased rdb setting.beyond (setting.slb file) setting.slbSize.toNat installed first s)
    (runs : installSlb setting.beyond scratch erased rdb (setting.slb file) setting.slbSize fuel =
      some installed) :
    InstallsFile setting.beyond file rdbBlock 0 after ↔
      0 < setting.slbSize.toNat ∧ file.length ≤ 4 * setting.slbSize.toNat ∧
        ∃ v, Reserved erased (nblocks rdb).toNat (chunks setting.slbSize.toNat) v := by
  have result : installed.rdb = rdbWithHead rdb first := by rw [final.result]; rfl
  have head : after (seek rdbBlock) rdbBootBlockList = first := by
    rw [main.rdb_head, result, rdbWithHead, update_self]
  -- a complete run leaves the chain of what it wrote
  have spelled : installed.complete = true → 0 < setting.slbSize.toNat →
      Chain setting.beyond after first (installed.writes.map (·.1)) ∧
        (file <+: chainBytes after (installed.writes.map (·.1)) ↔
          file.length ≤ 4 * setting.slbSize.toNat) := by
    intro complete some
    obtain ⟨-, chain, words⟩ := installed_chain (BitVec.lt_def.mpr some) runs complete
    have same : ∀ w ∈ installed.writes, after (seek w.1) = installed.dev (seek w.1) := by
      intro w member
      have free := main.writes.free w member
      rw [← free_seek] at free
      exact main.elsewhere _ (main.free_elsewhere free)
    have bytes : chainBytes after (installed.writes.map (·.1)) =
        ((List.range setting.slbSize.toNat).map (setting.slb file)).flatMap wordBytes := by
      rw [← words, chainBytes, List.flatMap_map, List.flatMap_assoc]
      exact List.flatMap_congr fun w member => by rw [same w member]
    rw [result, rdbWithHead, update_self] at chain
    refine ⟨chain.transfer fun block member => ?_, ?_⟩
    · obtain ⟨w, written, rfl⟩ := List.mem_map.mp member
      exact same w written
    · rw [bytes, Setting.slb, fileWord_bytes]
      exact prefix_fileBytes_iff (slbSize_le setting)
  constructor
  · rintro ⟨-, -, -, blocks, chain, spells⟩
    rw [head] at chain
    have enough : max 1 (chunks setting.slbSize.toNat) ≤ s.writes.length :=
      Nat.le_of_not_lt fun short => final.broken main short blocks chain
    have complete : installed.complete = true := by
      rcases final.ended with ⟨complete, -⟩ | ⟨-, short, -⟩
      · exact complete
      · omega
    have some : 0 < setting.slbSize.toNat := by
      rcases final.ended with ⟨-, all⟩ | ⟨-, short, -⟩
      · rw [chunks] at all
        omega
      · omega
    obtain ⟨written, covers⟩ := spelled complete some
    rw [chain.unique written, covers] at spells
    exact ⟨some, spells, final.complete_iff.mp complete⟩
  · rintro ⟨some, covers, reserved⟩
    have complete := final.complete_iff.mpr reserved
    obtain ⟨written, spells⟩ := spelled complete some
    obtain ⟨id, valid⟩ := main.rdb_valid fun i other => by rw [result, rdbWithHead, update_of_ne other]
    exact ⟨rfl, id, valid, _, head ▸ written, spells.mpr covers⟩

/-- A run that reserved a block leaves the RDB and the old chain alone exactly
where the head is the one before and every old block is written back. -/
theorem Final.leaves_iff
    (main : Rewriting setting.beyond (freed setting.beyond dev (rdb rdbBootBlockList)) rdbBlock rdb
      installed after)
    (here : dev (seek rdbBlock) = rdb) {slb : Nat → Word} {n : Nat}
    (final : Final (freed setting.beyond dev (rdb rdbBootBlockList)) rdb setting.beyond slb n
      installed first s) :
    LeavesChain setting.beyond dev file rdbBlock rdb after ↔
      freeCount dev (rdb rdbBlocksLo).toNat (rdb rdbBlocksHi).toNat < (file.length + 491) / 492 ∧
        first = rdb rdbBootBlockList ∧
        ∀ block, OldChain setting.beyond dev (rdb rdbBootBlockList) block →
          Rewritten setting.beyond slb n dev (freed setting.beyond dev (rdb rdbBootBlockList))
            (nblocks rdb).toNat block := by
  have result : installed.rdb = rdbWithHead rdb first := by rw [final.result]; rfl
  have writes : installed.writes = s.writes := by rw [final.result]; rfl
  have count : s.writes.length ≤ chunks n := by
    rcases final.ended with ⟨-, count⟩ | ⟨-, count, -⟩ <;> omega
  have numbered : ∀ {k : Nat} {number : Word}, s.reserved[k]? = some number →
      (reservedNumbers s)[k]? = some number.toNat := by
    intro k number place
    rw [reservedNumbers_eq, List.getElem?_map, place]
    rfl
  constructor
  · rintro ⟨few, rdbKept, chainKept⟩
    refine ⟨few, (main.rdb_same_iff result).mp (rdbKept.trans here), fun block old => ?_⟩
    have boot := old.bootable.boot
    have elsewhere := main.old_elsewhere here old
    -- an old block that is not written again stays freed
    have written : ∃ w ∈ installed.writes, seek w.1 = seek block := by
      by_contra other
      have freed := main.unwritten (fun w member same => other ⟨w, member, same⟩) elsewhere
      rw [chainKept block old] at freed
      rw [freed, freed_old old] at boot
      exact absurd boot (by decide)
    obtain ⟨w, member, same⟩ := written
    obtain ⟨k, place⟩ := List.getElem?_of_mem (writes ▸ member)
    have inside := (List.getElem?_eq_some_iff.mp place).1
    have mine := Progress.reserved_write place
    obtain ⟨next, after'⟩ : ∃ next, s.reserved[k + 1]? = some next :=
      ⟨_, List.getElem?_eq_getElem (by rw [s.reserved_length]; omega)⟩
    have chunk := final.filling.chunks k w next place after'
    refine ⟨k, w.1.toNat, next.toNat, by omega, final.allocating.reserved_at (numbered mine),
      final.allocating.reserved_at (numbered after'), by rw [← seek_eq, same], ?_⟩
    rw [BitVec.ofNat_toNat, BitVec.setWidth_eq, ← chainKept block old, ← same, main.written member]
    exact chunk
  · rintro ⟨few, same, back⟩
    refine ⟨few, ((main.rdb_same_iff result).mpr same).trans here.symm, fun block old => ?_⟩
    obtain ⟨k, number, next, small, mine, follows, place, holds⟩ := back block old
    have reservedMine := (final.reserved_iff (by omega)).mpr mine
    have reservedNext := (final.reserved_iff (by omega)).mpr follows
    have inside : k < s.writes.length := by
      have := (List.getElem?_eq_some_iff.mp reservedNext).1
      simp only [reservedNumbers, numbers, List.length_append, List.length_map,
        List.length_singleton] at this
      omega
    rw [reservedNumbers_eq, List.getElem?_map, Option.map_eq_some_iff] at reservedMine reservedNext
    obtain ⟨mineWord, atMine, rfl⟩ := reservedMine
    obtain ⟨nextWord, atNext, rfl⟩ := reservedNext
    rw [BitVec.ofNat_toNat, BitVec.setWidth_eq] at holds
    have chunk := final.filling.chunks k _ nextWord (List.getElem?_eq_getElem inside) atNext
    have member : s.writes[k] ∈ installed.writes := by
      rw [writes]
      exact List.getElem_mem inside
    have number : s.writes[k].1 = mineWord := Option.some.inj
      ((Progress.reserved_write (List.getElem?_eq_getElem inside)).symm.trans atMine)
    have position : seek block = seek s.writes[k].1 := by rw [← place, number, seek_eq]
    calc
      after (seek block) = s.writes[k].2 := by rw [position, main.written member]
      _ = dev (seek block) := chunk.unique holds

/-- A run that finds no block installs the empty file, where there is no old chain. -/
theorem none_installs_iff
    (main : Rewriting setting.beyond (freed setting.beyond dev (rdb rdbBootBlockList)) rdbBlock rdb
      installed after)
    (result : installed = .noBlock (freed setting.beyond dev (rdb rdbBootBlockList)) rdb) :
    InstallsFile setting.beyond file rdbBlock 0 after ↔
      file.length = 0 ∧ rdb rdbBootBlockList = idFree := by
  subst result
  have head : after (seek rdbBlock) rdbBootBlockList = rdb rdbBootBlockList := main.rdb_head
  constructor
  · rintro ⟨-, -, -, blocks, chain, spells⟩
    rw [head] at chain
    cases blocks with
    | nil => exact ⟨Nat.le_zero.mp spells.length_le, chain⟩
    | cons next rest =>
      obtain ⟨rfl, used, boot, valid, -⟩ := chain
      have elsewhere := main.boot_elsewhere rfl boot
      rw [main.elsewhere _ elsewhere] at boot valid
      exact absurd ⟨used, boot, valid⟩ freed_not_bootable
  · rintro ⟨empty, free⟩
    obtain ⟨id, valid⟩ := main.rdb_valid fun _ _ => rfl
    rw [List.length_eq_zero_iff] at empty
    exact ⟨rfl, id, valid, [], head.trans free, by rw [empty]; exact List.nil_prefix⟩

private theorem none_leaves_iff
    (main : Rewriting setting.beyond (freed setting.beyond dev (rdb rdbBootBlockList)) rdbBlock rdb
      installed after)
    (here : dev (seek rdbBlock) = rdb)
    (result : installed = .noBlock (freed setting.beyond dev (rdb rdbBootBlockList)) rdb) :
    LeavesChain setting.beyond dev file rdbBlock rdb after ↔
      freeCount dev (rdb rdbBlocksLo).toNat (rdb rdbBlocksHi).toNat < (file.length + 491) / 492 ∧
        ∀ block, ¬ OldChain setting.beyond dev (rdb rdbBootBlockList) block := by
  subst result
  constructor
  · rintro ⟨few, -, chainKept⟩
    refine ⟨few, fun block old => ?_⟩
    have boot := old.bootable.boot
    have elsewhere := main.old_elsewhere here old
    rw [← chainKept block old, main.elsewhere _ elsewhere] at boot
    exact absurd (boot.symm.trans (freed_old old)) (by decide)
  · rintro ⟨few, none⟩
    refine ⟨few, ?_, fun block old => absurd old (none block)⟩
    exact main.rdbThere.trans (main.rdb_calculated.trans here.symm)

/-- The parts of a run of `main` on a disk with an RDB. -/
theorem rewriting_of_main {erased : Disk} {scratch : Block} {slb : Nat → Word} {slbSize : Word}
    (found : findRdb setting.beyond dev = some (rdbBlock, rdb))
    (erases : erased = freed setting.beyond dev (rdb rdbBootBlockList))
    (runs : installSlb setting.beyond scratch erased rdb slb slbSize fuel = some installed) :
    Rewriting setting.beyond erased rdbBlock rdb installed
      (writeBlock installed.dev (calculateChecksum setting.beyond installed.rdb) rdbBlock) := by
  obtain ⟨here, id, valid⟩ := findRdb_found found
  refine ⟨?_, id, valid, installSlb_freeWrites runs, update_self .., fun position other =>
    update_of_ne other ..⟩
  rw [erases, freed_other, here]
  rw [here, id]
  decide

end

/-- `main` returns, and on a disk with an RDB it either installs the whole file, or
leaves the RDB and the old chain alone because the reserved area is too small,
exactly in the three cases of `MainSucceeds`. -/
theorem main_installs_or_leaves_iff {setting : Setting} {file : List (BitVec 8)} (ready : setting.Ready file)
    (dev : Disk) :
    (∃ fuel result, main setting dev fuel = some result) ∧
      ∀ fuel status after, main setting dev fuel = some (status, after) →
        (InstallsOrLeaves setting.beyond dev file status after ↔ MainSucceeds setting dev file) := by
  refine ⟨main_returns ready dev, fun fuel status after runs => ?_⟩
  rw [InstallsOrLeaves, MainSucceeds]
  refine exists_congr fun rdbBlock => exists_congr fun rdb => and_congr_right fun found => ?_
  obtain ⟨rfl, installed, installs, rfl⟩ := main_runs ready found runs
  have main := rewriting_of_main found rfl installs
  have here := (findRdb_found found).1
  rcases installSlb_final installs with ⟨result, x, above, late, taken⟩ | ⟨first, s, final⟩
  · have none := no_candidate above late taken
    have unreserved : ∀ k v, ¬ Reserved (freed setting.beyond dev (rdb rdbBootBlockList))
        (nblocks rdb).toNat k v := by
      rintro k v (⟨candidate, -⟩ | ⟨g, candidate, -⟩)
      · exact none v candidate
      · exact none g candidate
    rw [none_installs_iff main result, none_leaves_iff main here result]
    simp only [unreserved, exists_false, and_false, false_or, none, not_false_eq_true,
      implies_true, and_true, false_imp_iff, true_and, Rewritten, false_and, imp_false]
  · have reserved := final.allocating.reserved_at (k := 0) (v := first.toNat) (by
      rw [reservedNumbers_eq, List.getElem?_map, final.head]
      rfl)
    have candidate : ∃ v, Candidate (freed setting.beyond dev (rdb rdbBootBlockList))
        (nblocks rdb).toNat v := by
      rcases reserved with ⟨candidate, -⟩ | ⟨g, -, impossible, -⟩
      · exact ⟨_, candidate⟩
      · omega
    have only : (∀ v, Reserved (freed setting.beyond dev (rdb rdbBootBlockList))
        (nblocks rdb).toNat 0 v → v = (rdb rdbBootBlockList).toNat) ↔
        first = rdb rdbBootBlockList := by
      constructor
      · intro all
        exact BitVec.eq_of_toNat_eq (all _ reserved)
      · rintro rfl v again
        have place := (final.reserved_iff (Nat.zero_le _)).mpr again
        have mine := (final.reserved_iff (Nat.zero_le _)).mpr reserved
        exact Option.some.inj (place.symm.trans mine)
    rw [final.installs_iff main installs, final.leaves_iff main here, only]
    have some : ¬ ∀ v, ¬ Candidate (freed setting.beyond dev (rdb rdbBootBlockList))
        (nblocks rdb).toNat v := fun none => candidate.elim none
    simp only [some, and_false, false_or]

/-- An RDB whose reserved blocks are 0 and 1, with the boot code in block 1. -/
def smallRdb : Block :=
  calculateChecksum (fun _ => 0) fun i =>
    if i = amigaId then idRigidDisk else if i = amigaSummedLongs then 64
    else if i = rdbBootBlockList then 1 else if i = rdbBlocksHi then 1 else 0

/-- A BOOT block of one word, the last of its chain. -/
def smallBoot : Block :=
  calculateChecksum (fun _ => 0) fun i =>
    if i = amigaId then idBoot else if i = amigaSummedLongs then 6
    else if i = bcbNext then idFree else 0

def smallDisk : Disk := fun position =>
  if position = 0 then smallRdb else if position = 1 then smallBoot else fun _ => idPartition

def oneWordSetting : Setting where
  argc := 2
  devOpens := true
  statSucceeds := true
  stSize := 4
  file := some [0, 0, 0, 0]
  beyond _ := 0
  scratch _ := 0
  junk _ := 0

private theorem oneWord_returns : (main oneWordSetting smallDisk 2).isSome := by decide +kernel

def oneWordResult : Int × Disk := (main oneWordSetting smallDisk 2).get oneWord_returns

theorem oneWord_runs :
    main oneWordSetting smallDisk 2 = some (oneWordResult.1, oneWordResult.2) := by
  rw [Prod.mk.eta, oneWordResult, Option.some_get]

theorem oneWord_installs_or_leaves_iff :
    InstallsOrLeaves oneWordSetting.beyond smallDisk [0, 0, 0, 0] oneWordResult.1 oneWordResult.2 ↔
      MainSucceeds oneWordSetting smallDisk [0, 0, 0, 0] :=
  (main_installs_or_leaves_iff ⟨rfl, rfl, rfl, rfl⟩ smallDisk).2 _ _ _ oneWord_runs

/-- The old chain is erased before the second search fails, and the RDB goes on
pointing to the block that was freed. -/
theorem oneWord_loses_chain :
    ¬ InstallsOrLeaves oneWordSetting.beyond smallDisk [0, 0, 0, 0] oneWordResult.1 oneWordResult.2 := by
  rintro ⟨rdbBlock, rdb, found, outcome⟩
  have first : (findRdb oneWordSetting.beyond smallDisk).map (·.1) = some 0 := by decide +kernel
  have block : rdbBlock = 0 := by
    rw [found] at first
    exact Option.some.inj first
  subst block
  have gone : oneWordResult.2 (seek 1) amigaId ≠ idBoot := by decide +kernel
  rcases outcome with ⟨-, -, -, blocks, chain, -⟩ | ⟨-, -, kept⟩
  · have head : oneWordResult.2 (seek 0) rdbBootBlockList = 1 := by decide +kernel
    rw [head] at chain
    cases blocks with
    | nil => exact absurd (show (1 : Word) = idFree from chain) (by decide)
    | cons next rest =>
      obtain ⟨rfl, -, boot, -⟩ := chain
      exact gone boot
  · have head : rdb rdbBootBlockList = 1 := by
      rw [← (findRdb_found found).1]
      decide
    have bootable : Bootable oneWordSetting.beyond smallDisk 1 :=
      ⟨by decide, by decide, by decide⟩
    have old := kept 1 (by rw [head]; exact .first bootable)
    exact gone ((congrFun old amigaId).trans bootable.boot)

end Parthenope.Install
