import Parthenope.InstallErase
import Parthenope.PartitionTable

/-! The checksum that `rdb.c` and the installer have both. It adds up as many words as
the block says, so what lies behind the copy it sums decides on a block that says more
words than it has, and so on which block is the RDB. -/
namespace Parthenope.PartitionTable
open Function Install

/-- `checksum` of `rdb.c`, which is that of the installer; each has its own copy, and
its own memory behind the copy. -/
def rdbChecksum (beyond : Nat → Word) (header : Block) : Word := checksum beyond header

/-- A disk as the boot loader reads it, without an error. -/
def reads (dev : Disk) : BlockDevice := fun block => (1, dev (seek block))

/-- A block's checksum is one and the same in both programs, over words of the block. -/
structure OwnWords (header : Block) : Prop where
  same : ∀ beyond beyond', rdbChecksum beyond header = checksum beyond' header
  words : (summedLongs header).toNat ≤ 128

/-- Both programs find the same RDB block, or none. -/
def SameRdb (dev : Disk) : Prop :=
  ∀ beyond beyond', getRdb beyond (reads dev) = (findRdb beyond' dev).map Prod.snd

/-- What makes a block the RDB for a program. -/
def Accepted (beyond : Nat → Word) (header : Block) : Prop :=
  header amigaId = idRigidDisk ∧ checksum beyond header = 0

instance (beyond : Nat → Word) (header : Block) : Decidable (Accepted beyond header) :=
  inferInstanceAs (Decidable (_ ∧ _))

/-- The words of a block added up, as many as it says. -/
def wordSum (header : Block) : Word :=
  ((List.range (header amigaSummedLongs).toNat).map (word header)).sum

/-- A block that is the RDB whatever is behind the copies. -/
structure CertainRdb (header : Block) : Prop where
  id : header amigaId = idRigidDisk
  short : header amigaSummedLongs ≤ 128
  zero : wordSum header = 0

/-- Among the blocks that are searched, each with the ID of an RDB that says more words
than it has comes after one that certainly is the RDB. -/
def Decided (dev : Disk) : Prop :=
  ∀ i < rdbLocationLimit, dev i amigaId = idRigidDisk → 128 < dev i amigaSummedLongs →
    ∃ j < i, CertainRdb (dev j)

/-- What `calculate_checksum` is to do for a block: the checksum is made zero by its own
word, and any other word that is summed then counts. -/
structure Protected (beyond : Nat → Word) (blk sealed : Block) : Prop where
  others : ∀ i, i ≠ amigaChkSum → sealed i = blk i
  zero : checksum beyond sealed = 0
  again : calculateChecksum beyond sealed = sealed
  detects : ∀ i value, i.val < (sealed amigaSummedLongs).toNat → i ≠ amigaSummedLongs →
    value ≠ sealed i → checksum beyond (update sealed i value) ≠ 0

section
variable {beyond beyond' : Nat → Word} {header : Block} {dev : Disk} {i : Nat}

private theorem summedLongs_short (short : header amigaSummedLongs ≤ 128) :
    summedLongs header = header amigaSummedLongs := by
  have small : ¬header amigaSummedLongs > 512 := by
    have := BitVec.le_def.mp short
    rw [gt_iff_lt, BitVec.lt_def]
    simp at this ⊢
    omega
  rw [summedLongs, if_neg small]

private theorem summedLongs_long (long : 128 < header amigaSummedLongs) : 128 < (summedLongs header).toNat := by
  rw [summedLongs]
  split
  · decide
  · exact BitVec.lt_def.mp long

/-- Where the words behind the copy are summed, they can make up any checksum. -/
theorem checksum_behind (long : 128 < header amigaSummedLongs) (value : Word) :
    checksum (fun i => if i = 128 then value else 0) header = checksum (fun _ => 0) header + value := by
  have same : ∀ i, i ≠ 128 → summedWord (fun i => if i = 128 then value else 0) header i =
      summedWord (fun _ => 0) header i := by
    intro i other
    simp only [summedWord, if_neg other]
  rw [checksum, sum_changed same, if_pos (summedLongs_long long), ← checksum]
  simp [summedWord]

theorem checksum_short (short : header amigaSummedLongs ≤ 128) : checksum beyond header = wordSum header := by
  have count := summedLongs_short short
  have most : (header amigaSummedLongs).toNat ≤ 128 := BitVec.le_def.mp short
  rw [checksum, wordSum, List.sum_eq_foldl, List.foldl_map, count]
  refine List.foldl_ext _ _ _ ?_
  intro sum i inside
  have below : i < 128 := (List.mem_range.mp inside).trans_le most
  have copy : update header amigaSummedLongs (summedLongs header) = header := by rw [count, update_eq_self]
  rw [summedWord, dif_pos below, copy, word, dif_pos below]

private theorem ownWords_iff : OwnWords header ↔ header amigaSummedLongs ≤ 128 := by
  constructor
  · intro own
    by_contra long
    have behind := checksum_behind (BitVec.not_le.mp long) 1
    rw [← own.same (fun _ => 0)] at behind
    have moved := left_eq_add.mp behind
    exact absurd moved (by decide)
  · intro short
    refine ⟨fun _ _ => (checksum_short short).trans (checksum_short short).symm, ?_⟩
    rw [summedLongs_short short]
    exact BitVec.le_def.mp short

theorem CertainRdb.accepted (certain : CertainRdb header) : Accepted beyond header :=
  ⟨certain.id, (checksum_short certain.short).trans certain.zero⟩

private theorem findSome_eq_find {ι α : Type} {f : ι → Option α} {p : ι → Bool} {g : ι → α} {l : List ι}
    (chooses : ∀ i ∈ l, f i = if p i then some (g i) else none) : l.findSome? f = (l.find? p).map g := by
  induction l with
  | nil => rfl
  | cons i l ih =>
    have rest := ih fun j inside => chooses j (List.mem_cons_of_mem _ inside)
    have here := chooses i List.mem_cons_self
    cases holds : p i with
    | true => simp [here, holds]
    | false => simp [here, holds, rest]

theorem seek_number (below : i < rdbLocationLimit) : seek (BitVec.ofNat 32 i) = i := by
  have limit : i < 16 := below
  have small : (BitVec.ofNat 32 i).toNat = i := by
    rw [BitVec.toNat_ofNat]
    omega
  rw [seek_small (by omega), small]

/-- The number of the block that is the RDB for a program. -/
def rdbNumber (beyond : Nat → Word) (dev : Disk) : Option Nat :=
  (List.range rdbLocationLimit).find? fun i => Accepted beyond (dev i)

theorem rdbNumber_some : rdbNumber beyond dev = some i ↔
    Accepted beyond (dev i) ∧ i < rdbLocationLimit ∧ ∀ j < i, ¬Accepted beyond (dev j) := by
  simp [rdbNumber]

private theorem getRdb_reads (beyond : Nat → Word) (dev : Disk) :
    getRdb beyond (reads dev) = (rdbNumber beyond dev).map dev := by
  refine findSome_eq_find fun i inside => ?_
  have place := seek_number (List.mem_range.mp inside)
  by_cases accepted : Accepted beyond (dev i)
  · simp only [reads, place, decide_eq_true accepted]
    exact if_pos ⟨trivial, accepted⟩
  · simp only [reads, place, decide_eq_false accepted]
    exact if_neg fun all => accepted all.2

theorem findRdb_number (beyond : Nat → Word) (dev : Disk) :
    findRdb beyond dev = (rdbNumber beyond dev).map fun i => (BitVec.ofNat 32 i, dev i) := by
  refine findSome_eq_find fun i inside => ?_
  have place := seek_number (List.mem_range.mp inside)
  have whole : readRdb dev (dev i) (BitVec.ofNat 32 i) = dev i := by
    funext j
    rw [readRdb, place, ite_self]
  by_cases valid : checksum beyond (dev i) = 0
  · have passes : (checksum beyond (dev i) == 0) = true := beq_iff_eq.mpr valid
    by_cases id : dev i amigaId = idRigidDisk
    · have accepted : Accepted beyond (dev i) := ⟨id, valid⟩
      simp only [readBlock, place, passes, whole, decide_eq_true accepted]
      rw [if_neg (not_not_intro id), if_neg (not_not_intro valid), if_true]
    · have refused : ¬Accepted beyond (dev i) := fun accepted => id accepted.1
      simp only [readBlock, place, passes, decide_eq_false refused]
      rw [if_pos id, if_neg Bool.false_ne_true]
  · have fails : (checksum beyond (dev i) == 0) = false := beq_eq_false_iff_ne.mpr valid
    have refused : ¬Accepted beyond (dev i) := fun accepted => valid accepted.2
    simp only [readBlock, place, fails, decide_eq_false refused]
    rw [if_neg Bool.false_ne_true]

theorem rdbNumber_decided (decided : Decided dev) (found : rdbNumber beyond dev = some i) :
    rdbNumber beyond' dev = some i := by
  obtain ⟨⟨id, valid⟩, below, first⟩ := rdbNumber_some.mp found
  have alike {j : Nat} (before : j ≤ i) (rigid : dev j amigaId = idRigidDisk) :
      checksum beyond (dev j) = checksum beyond' (dev j) := by
    by_cases short : dev j amigaSummedLongs ≤ 128
    · rw [checksum_short short, checksum_short short]
    · obtain ⟨k, earlier, certain⟩ := decided j (before.trans_lt below) rigid (BitVec.not_le.mp short)
      exact absurd certain.accepted (first k (earlier.trans_le before))
  refine rdbNumber_some.mpr ⟨⟨id, (alike le_rfl id).symm.trans valid⟩, below, ?_⟩
  rintro j before ⟨rigid, zero⟩
  exact first j before ⟨rigid, (alike before.le rigid).trans zero⟩

private theorem sameRdb_of_decided (decided : Decided dev) : SameRdb dev := by
  intro beyond beyond'
  have same : rdbNumber beyond dev = rdbNumber beyond' dev := by
    cases found : rdbNumber beyond dev with
    | some i => exact (rdbNumber_decided decided found).symm
    | none =>
      cases other : rdbNumber beyond' dev with
      | none => rfl
      | some i => rw [rdbNumber_decided decided other] at found; cases found
  rw [getRdb_reads, findRdb_number, same]
  cases rdbNumber beyond' dev <;> rfl

private theorem decided_of_sameRdb (same : SameRdb dev) : Decided dev := by
  -- The first undecided block is the RDB for some memory, and not for another.
  intro i
  induction i using Nat.strong_induction_on with
  | _ i ih =>
    intro below rigid long
    by_contra uncertain
    simp only [not_exists, not_and] at uncertain
    have refused (beyond : Nat → Word) (j : Nat) (before : j < i) : ¬Accepted beyond (dev j) := by
      rintro ⟨id, valid⟩
      by_cases short : dev j amigaSummedLongs ≤ 128
      · exact uncertain j before ⟨id, short, (checksum_short short).symm.trans valid⟩
      · obtain ⟨k, earlier, certain⟩ := ih j before (before.trans below) id (BitVec.not_le.mp short)
        exact uncertain k (earlier.trans before) certain
    have makes := (checksum_behind long _).trans (add_sub_cancel (checksum (fun _ => 0) (dev i)) 0)
    have spoils := (checksum_behind long _).trans (add_sub_cancel (checksum (fun _ => 0) (dev i)) 1)
    have found := rdbNumber_some.mpr ⟨⟨rigid, makes⟩, below, refused _⟩
    have other := same (fun j => if j = 128 then 0 - checksum (fun _ => 0) (dev i) else 0)
      fun j => if j = 128 then 1 - checksum (fun _ => 0) (dev i) else 0
    rw [getRdb_reads, found, findRdb_number] at other
    cases second : rdbNumber (fun j => if j = 128 then 1 - checksum (fun _ => 0) (dev i) else 0) dev with
    | none => rw [second] at other; cases other
    | some j =>
      rw [second] at other
      have alike : dev i = dev j := Option.some.inj other
      have valid := (rdbNumber_some.mp second).1.2
      rw [← alike, spoils] at valid
      exact absurd valid (by decide)

/-- The two programs agree on a block if and only if it says no more words than it has, and
on the RDB of a disk if and only if no block that says more may come first. -/
theorem same_checksum_iff (header : Block) (dev : Disk) :
    (OwnWords header ↔ header amigaSummedLongs ≤ 128) ∧ (SameRdb dev ↔ Decided dev) :=
  ⟨ownWords_iff, decided_of_sameRdb, sameRdb_of_decided⟩

end

/-- An RDB block that says one word more than it has. -/
def overlong : Block := fun i => if i = amigaId then idRigidDisk else if i = amigaSummedLongs then 129 else 0

theorem overlong_differs : ¬OwnWords overlong ∧ ¬SameRdb fun _ => overlong := by
  refine ⟨fun own => ?_, fun same => ?_⟩
  · exact absurd (ownWords_iff.mp own) (by decide)
  · obtain ⟨_, before, -⟩ := decided_of_sameRdb same 0 (by decide) rfl (by decide)
    exact absurd before (Nat.not_lt_zero _)

/-- `calculate_checksum` protects a block whose words it sums, the checksum among them. -/
theorem calculateChecksum_protects (beyond : Nat → Word) (blk : Block)
    (least : 3 ≤ blk amigaSummedLongs) (most : blk amigaSummedLongs ≤ 128) :
    Protected beyond blk (calculateChecksum beyond blk) := by
  have covered : 2 < (blk amigaSummedLongs).toNat := BitVec.le_def.mp least
  have zero : checksum beyond (calculateChecksum beyond blk) = 0 := checksum_calculated (.inr covered)
  have others (i : Fin 128) (other : i ≠ amigaChkSum) : calculateChecksum beyond blk i = blk i :=
    calculateChecksum_apply other
  refine ⟨others, zero, ?_, ?_⟩
  · rw [calculateChecksum, zero, sub_zero, update_eq_self]
  · intro i value summed other differs sum
    have short : calculateChecksum beyond blk amigaSummedLongs ≤ 128 := by
      rwa [others amigaSummedLongs (by decide)]
    rw [checksum_word beyond _ value other, zero, zero_add, summedLongs_short short, if_pos summed] at sum
    exact differs (sub_eq_zero.mp sum)

/-- A block of no more than the words every block starts with. -/
def header3 : Block := fun i => if i = amigaId then idBoot else if i = amigaSummedLongs then 3 else 7

theorem header3_protected : Protected (fun _ => 5) header3 (calculateChecksum (fun _ => 5) header3) :=
  calculateChecksum_protects _ header3 (by decide) (by decide)

end Parthenope.PartitionTable
