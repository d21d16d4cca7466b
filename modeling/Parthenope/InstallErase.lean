import Mathlib.Data.Finset.Card
import Mathlib.Data.Finset.Range
import Parthenope.InstallChain

/-! `erase_slb`. The old chain is everything that following `bcb_Next` comes to
through valid BOOT blocks, cycles included; the loop frees exactly its blocks,
since a block it comes back to is no longer a BOOT block. -/
namespace Parthenope.Install
open Function

/-- A number under which the disk has a valid BOOT block. -/
structure Bootable (beyond : Nat → Word) (dev : Disk) (block : Word) : Prop where
  used : block ≠ idFree
  boot : dev (seek block) amigaId = idBoot
  valid : checksum beyond (dev (seek block)) = 0

/-- The blocks of the chain that starts at `head`. -/
inductive OldChain (beyond : Nat → Word) (dev : Disk) (head : Word) : Word → Prop
  | first : Bootable beyond dev head → OldChain beyond dev head head
  | next {block : Word} : OldChain beyond dev head block →
      Bootable beyond dev (dev (seek block) bcbNext) →
      OldChain beyond dev head (dev (seek block) bcbNext)

/-- What `erase_slb` makes of a block. -/
def erasedBlock (beyond : Nat → Word) (blk : Block) : Block :=
  calculateChecksum beyond (update blk amigaId idFree)

open Classical in
/-- The disk with the blocks of the old chain freed. -/
noncomputable def freed (beyond : Nat → Word) (dev : Disk) (head : Word) : Disk := fun position =>
  if ∃ block, OldChain beyond dev head block ∧ seek block = position then
    erasedBlock beyond (dev position)
  else dev position

section
variable {beyond : Nat → Word} {dev : Disk} {head block : Word}

theorem OldChain.bootable (old : OldChain beyond dev head block) : Bootable beyond dev block := by
  cases old with
  | first bootable => exact bootable
  | next _ bootable => exact bootable

@[simp] theorem erasedBlock_id (blk : Block) : erasedBlock beyond blk amigaId = idFree := by
  rw [erasedBlock, calculateChecksum_apply (by decide), update_self]

private theorem erasedBlock_next (beyond : Nat → Word) (blk : Block) :
    erasedBlock beyond blk bcbNext = blk bcbNext := by
  rw [erasedBlock, calculateChecksum_apply (by decide), update_of_ne (by decide)]

/-- A turn that goes on frees a valid BOOT block and follows its link. -/
theorem eraseTurn_next {s t : Disk × Word} (turns : eraseTurn beyond s = .inr t) :
    Bootable beyond s.1 s.2 ∧ t.1 = writeBlock s.1 (erasedBlock beyond (s.1 (seek s.2))) s.2 ∧
      t.2 = s.1 (seek s.2) bcbNext := by
  simp only [eraseTurn, readBlock] at turns
  split at turns
  · cases turns
  rename_i used
  split at turns
  · cases turns
  rename_i blk valid
  obtain ⟨rfl, valid⟩ := Prod.mk.inj valid
  split at turns
  · cases turns
  rename_i boot
  obtain rfl := Sum.inr.inj turns
  exact ⟨⟨used, not_not.mp boot, by simpa using valid⟩, rfl, erasedBlock_next beyond _⟩

private theorem eraseTurn_ends {s : Disk × Word} {erased : Disk} (ends : eraseTurn beyond s = .inl erased) :
    erased = s.1 ∧ ¬ Bootable beyond s.1 s.2 := by
  simp only [eraseTurn, readBlock] at ends
  split at ends
  · rename_i free
    exact ⟨(Sum.inl.inj ends).symm, fun bootable => bootable.used free⟩
  split at ends
  · rename_i blk invalid
    obtain ⟨-, invalid⟩ := Prod.mk.inj invalid
    exact ⟨(Sum.inl.inj ends).symm, fun bootable => by simp [bootable.valid] at invalid⟩
  rename_i blk valid
  obtain ⟨rfl, -⟩ := Prod.mk.inj valid
  split at ends
  · rename_i other
    exact ⟨(Sum.inl.inj ends).symm, fun bootable => other bootable.boot⟩
  · cases ends

/-- The invariant of the loop: the blocks freed so far belong to the old chain,
and whatever they link to is freed as well or comes next. -/
structure Erasing (beyond : Nat → Word) (dev : Disk) (head : Word) (freedAt : Nat → Prop)
    (s : Disk × Word) : Prop where
  inside : ∀ p, freedAt p → ∃ block, OldChain beyond dev head block ∧ seek block = p
  changed : ∀ p, freedAt p → s.1 p = erasedBlock beyond (dev p)
  kept : ∀ p, ¬ freedAt p → s.1 p = dev p
  onChain : Bootable beyond dev s.2 → OldChain beyond dev head s.2
  started : head = s.2 ∨ freedAt (seek head)
  closed : ∀ p, freedAt p → dev p bcbNext = s.2 ∨ freedAt (seek (dev p bcbNext))

private theorem Erasing.kept_bootable {freedAt : Nat → Prop} {s : Disk × Word} {number : Word}
    (inv : Erasing beyond dev head freedAt s) (bootable : Bootable beyond s.1 number) :
    ¬ freedAt (seek number) ∧ Bootable beyond dev number := by
  have out : ¬ freedAt (seek number) := fun gone => by
    have boot := bootable.boot
    rw [inv.changed _ gone, erasedBlock_id] at boot
    exact absurd boot (by decide)
  refine ⟨out, bootable.used, ?_, ?_⟩
  · rw [← inv.kept _ out]
    exact bootable.boot
  · rw [← inv.kept _ out]
    exact bootable.valid

theorem Erasing.turn {freedAt : Nat → Prop} {s t : Disk × Word}
    (inv : Erasing beyond dev head freedAt s) (turns : eraseTurn beyond s = .inr t) :
    Erasing beyond dev head (fun p => freedAt p ∨ p = seek s.2) t := by
  obtain ⟨bootable, written, link⟩ := eraseTurn_next turns
  obtain ⟨out, old⟩ := inv.kept_bootable bootable
  have mine := inv.onChain old
  rw [inv.kept _ out] at written link
  constructor
  case inside =>
    rintro p (gone | rfl)
    · exact inv.inside p gone
    · exact ⟨s.2, mine, rfl⟩
  case changed =>
    rintro p (gone | rfl)
    · have other : p ≠ seek s.2 := fun same => out (same ▸ gone)
      rw [written, writeBlock, update_of_ne other, inv.changed p gone]
    · rw [written, writeBlock, update_self]
  case kept =>
    intro p stays
    rw [not_or] at stays
    rw [written, writeBlock, update_of_ne stays.2, inv.kept p stays.1]
  case onChain =>
    intro next
    rw [link] at next ⊢
    exact .next mine next
  case started =>
    rcases inv.started with same | gone
    · exact .inr (.inr (by rw [same]))
    · exact .inr (.inl gone)
  case closed =>
    rintro p (gone | rfl)
    · rcases inv.closed p gone with here | gone
      · exact .inr (.inr (by rw [here]))
      · exact .inr (.inl gone)
    · exact .inl link.symm

/-- Where the loop ends, the whole old chain is freed. -/
theorem Erasing.ended {freedAt : Nat → Prop} {s : Disk × Word}
    (inv : Erasing beyond dev head freedAt s) (stops : ¬ Bootable beyond s.1 s.2)
    (old : OldChain beyond dev head block) : freedAt (seek block) := by
  have next : ∀ number, Bootable beyond dev number →
      number = s.2 ∨ freedAt (seek number) → freedAt (seek number) := by
    intro number bootable reached
    refine reached.elim (fun here => ?_) id
    by_contra out
    refine stops (here ▸ ⟨bootable.used, ?_, ?_⟩)
    · rw [inv.kept _ out]
      exact bootable.boot
    · rw [inv.kept _ out]
      exact bootable.valid
  induction old with
  | first bootable => exact next head bootable inv.started
  | next _ bootable ih => exact next _ bootable (inv.closed _ ih)

theorem erasing_start (head : Word) : Erasing beyond dev head (fun _ => False) (dev, head) where
  inside := by simp
  changed := by simp
  kept _ _ := rfl
  onChain bootable := .first bootable
  started := .inl rfl
  closed := by simp

/-- `erase_slb` frees the old chain and nothing else. -/
theorem eraseSlb_freed {rdb : Block} {fuel : Nat} {erased : Disk}
    (runs : eraseSlb beyond dev rdb fuel = some erased) :
    erased = freed beyond dev (rdb rdbBootBlockList) := by
  obtain ⟨s, reached, ends⟩ := StepLoop.run_exit runs
  obtain ⟨freedAt, inv⟩ := reached.invariant
    (fun s => ∃ freedAt, Erasing beyond dev (rdb rdbBootBlockList) freedAt s)
    (fun _ _ inv turns => inv.elim fun _ inv => ⟨_, inv.turn turns⟩) ⟨_, erasing_start _⟩
  obtain ⟨rfl, stops⟩ := eraseTurn_ends ends
  funext p
  by_cases old : ∃ block, OldChain beyond dev (rdb rdbBootBlockList) block ∧ seek block = p
  · rw [freed, if_pos old]
    obtain ⟨block, old, rfl⟩ := old
    exact inv.changed _ (inv.ended stops old)
  · rw [freed, if_neg old]
    exact inv.kept p fun gone => old (inv.inside p gone)

/-- The loop ends, since every turn leaves one BOOT block fewer. -/
theorem eraseSlb_returns (beyond : Nat → Word) (dev : Disk) (rdb : Block) :
    ∃ fuel erased, eraseSlb beyond dev rdb fuel = some erased := by
  obtain ⟨erased, ends⟩ := StepLoop.run_terminates (eraseTurn beyond) (fun _ => True)
    (fun s => ((Finset.range (2 ^ 23)).filter fun p => s.1 p amigaId = idBoot).card)
    (fun _ _ _ _ => trivial)
    (fun s t _ turns => by
      obtain ⟨bootable, written, -⟩ := eraseTurn_next turns
      have place : seek s.2 < 2 ^ 23 := by rw [seek_eq]; omega
      refine Finset.card_lt_card (Finset.ssubset_iff_of_subset ?_ |>.mpr ⟨seek s.2, ?_, ?_⟩)
      · intro p member
        simp only [Finset.mem_filter, written, writeBlock] at member ⊢
        rcases eq_or_ne p (seek s.2) with rfl | other
        · exact ⟨member.1, bootable.boot⟩
        · rwa [update_of_ne other] at member
      · exact Finset.mem_filter.mpr ⟨Finset.mem_range.mpr place, bootable.boot⟩
      · rw [Finset.mem_filter, written, writeBlock, update_self, erasedBlock_id]
        exact fun both => absurd both.2 (by decide))
    trivial (Nat.lt_succ_self _)
  exact ⟨_, erased, ends⟩

/-- Nothing but BOOT blocks is freed. -/
theorem freed_other {position : Nat} (other : dev position amigaId ≠ idBoot) :
    freed beyond dev head position = dev position := by
  rw [freed, if_neg]
  rintro ⟨block, old, rfl⟩
  exact other old.bootable.boot

theorem freed_old (old : OldChain beyond dev head block) :
    freed beyond dev head (seek block) amigaId = idFree := by
  rw [freed, if_pos ⟨block, old, rfl⟩, erasedBlock_id]

/-- No number is left under which the old chain could still be entered. -/
theorem freed_not_bootable : ¬ Bootable beyond (freed beyond dev head) head := by
  intro bootable
  by_cases old : OldChain beyond dev head head
  · have boot := bootable.boot
    rw [freed_old old] at boot
    exact absurd boot (by decide)
  · refine old (.first ?_)
    have kept : freed beyond dev head (seek head) = dev (seek head) := by
      rw [freed, if_neg]
      rintro ⟨block, chained, same⟩
      have boot := bootable.boot
      rw [← same, freed_old chained] at boot
      exact absurd boot (by decide)
    exact ⟨bootable.used, kept ▸ bootable.boot, kept ▸ bootable.valid⟩

end

/-- A number whose block on the disk is a valid BOOT block. -/
structure BootBlock (beyond : Nat → Word) (dev : Disk) (number : Word) : Prop where
  used : number ≠ idFree
  boot : dev number.toNat amigaId = idBoot
  valid : checksum beyond (dev number.toNat) = 0

/-- The valid BOOT blocks that `bcb_Next` links a number to, up to the first break. -/
inductive Linked (beyond : Nat → Word) (dev : Disk) (head : Word) : Word → Prop
  | first : BootBlock beyond dev head → Linked beyond dev head head
  | next {number : Word} : Linked beyond dev head number →
      BootBlock beyond dev (dev number.toNat bcbNext) →
      Linked beyond dev head (dev number.toNat bcbNext)

/-- The numbers the links hold, that of the break included. -/
inductive LinkedTo (beyond : Nat → Word) (dev : Disk) (head : Word) : Word → Prop
  | head : LinkedTo beyond dev head head
  | link {number : Word} : Linked beyond dev head number →
      LinkedTo beyond dev head (dev number.toNat bcbNext)

/-- `erase_slb` ends, and what it has changed are the linked blocks, each of them free
now with a checksum of zero. -/
def FreesLinked (beyond : Nat → Word) (dev : Disk) (rdb : Block) : Prop :=
  ∃ fuel erased, eraseSlb beyond dev rdb fuel = some erased ∧
    (∀ number, Linked beyond dev (rdb rdbBootBlockList) number →
      erased number.toNat amigaId = idFree ∧ checksum beyond (erased number.toNat) = 0 ∧
        ∀ i, i ≠ amigaId → i ≠ amigaChkSum → erased number.toNat i = dev number.toNat i) ∧
    ∀ position, (∀ number, Linked beyond dev (rdb rdbBootBlockList) number → number.toNat ≠ position) →
      erased position = dev position

/-- A number from 2 ^ 23 on does no harm where it ends the chain and the block that it
wraps to is no valid BOOT block either, or is freed in any case. -/
def EndsAlike (beyond : Nat → Word) (dev : Disk) (head number : Word) : Prop :=
  ¬BootBlock beyond dev number ∧
    (Bootable beyond dev number → ∃ linked, Linked beyond dev head linked ∧ linked.toNat = seek number)

section
variable {beyond : Nat → Word} {dev : Disk} {rdb : Block} {head number block : Word}

private theorem Linked.bootBlock (linked : Linked beyond dev head number) : BootBlock beyond dev number := by
  cases linked with
  | first bootBlock => exact bootBlock
  | next _ bootBlock => exact bootBlock

theorem Linked.begins (linked : Linked beyond dev head number) : BootBlock beyond dev head := by
  induction linked with
  | first bootBlock => exact bootBlock
  | next _ _ ih => exact ih

theorem LinkedTo.linked (reached : LinkedTo beyond dev head number) (bootBlock : BootBlock beyond dev number) :
    Linked beyond dev head number := by
  cases reached with
  | head => exact .first bootBlock
  | link linked => exact .next linked bootBlock

theorem seek_small (small : number.toNat < 2 ^ 23) : seek number = number.toNat := by
  rw [seek_eq, Nat.mod_eq_of_lt small]

theorem bootable_iff (small : number.toNat < 2 ^ 23) : Bootable beyond dev number ↔ BootBlock beyond dev number := by
  constructor
  · rintro ⟨used, boot, valid⟩
    rw [seek_small small] at boot valid
    exact ⟨used, boot, valid⟩
  · rintro ⟨used, boot, valid⟩
    rw [← seek_small small] at boot valid
    exact ⟨used, boot, valid⟩

/-- The erased ID is summed, so the checksum is made up for; with no words summed it is
zero in any case, and with one or two it cannot have been. -/
theorem erasedBlock_valid {blk : Block} (boot : blk amigaId = idBoot) (valid : checksum beyond blk = 0) :
    checksum beyond (erasedBlock beyond blk) = 0 := by
  apply checksum_calculated
  rw [update_of_ne (by decide)]
  by_contra short
  rw [not_or] at short
  have nonzero : (blk amigaSummedLongs).toNat ≠ 0 := fun zero => short.1 (BitVec.eq_of_toNat_eq zero)
  have first : summedWord beyond blk 0 = idBoot := boot
  have second : summedWord beyond blk 1 = summedLongs blk := rfl
  have one (is : blk amigaSummedLongs = 1) : checksum beyond blk = idBoot := by
    have count : summedLongs blk = 1 := by
      rw [summedLongs, is]
      rfl
    rw [checksum, count, ← first]
    exact BitVec.zero_add _
  have two (is : blk amigaSummedLongs = 2) : checksum beyond blk = idBoot + 2 := by
    have count : summedLongs blk = 2 := by
      rw [summedLongs, is]
      rfl
    rw [checksum, count]
    change 0 + summedWord beyond blk 0 + summedWord beyond blk 1 = _
    rw [first, second, count]
    rfl
  rcases (by omega : (blk amigaSummedLongs).toNat = 1 ∨ (blk amigaSummedLongs).toNat = 2) with is | is
  · have bad := one (BitVec.eq_of_toNat_eq is)
    rw [valid] at bad
    exact absurd bad (by decide)
  · have bad := two (BitVec.eq_of_toNat_eq is)
    rw [valid] at bad
    exact absurd bad (by decide)

private theorem erasedBlock_kept (beyond : Nat → Word) (blk : Block) {i : Fin 128} (id : i ≠ amigaId)
    (sum : i ≠ amigaChkSum) :
    erasedBlock beyond blk i = blk i := by
  rw [erasedBlock, calculateChecksum_apply sum, update_of_ne id]

/-- Where the disk with the old chain freed is another. -/
theorem freed_changed {position : Nat} :
    freed beyond dev head position amigaId ≠ dev position amigaId ↔
      ∃ block, OldChain beyond dev head block ∧ seek block = position := by
  constructor
  · intro changed
    by_contra kept
    rw [freed, if_neg kept] at changed
    exact changed rfl
  · rintro ⟨block, old, rfl⟩ same
    rw [freed_old old, old.bootable.boot] at same
    exact absurd same (by decide)

/-- The linked blocks are the old chain where every number is small or ends both alike. -/
theorem linked_iff_old
    (alike : ∀ number, LinkedTo beyond dev head number →
      number.toNat < 2 ^ 23 ∨ EndsAlike beyond dev head number) {position : Nat} :
    (∃ number, Linked beyond dev head number ∧ number.toNat = position) ↔
      ∃ block, OldChain beyond dev head block ∧ seek block = position := by
  have small {number : Word} (reached : LinkedTo beyond dev head number)
      (bootBlock : BootBlock beyond dev number) : number.toNat < 2 ^ 23 :=
    (alike number reached).resolve_right fun ends => ends.1 bootBlock
  have linked {number : Word} (reached : LinkedTo beyond dev head number)
      (bootable : Bootable beyond dev number) :
      ∃ linked, Linked beyond dev head linked ∧ linked.toNat = seek number := by
    rcases alike number reached with small | ends
    · exact ⟨number, reached.linked ((bootable_iff small).mp bootable), (seek_small small).symm⟩
    · exact ends.2 bootable
  constructor
  · rintro ⟨number, chain, rfl⟩
    suffices OldChain beyond dev head number ∧ number.toNat < 2 ^ 23 from
      ⟨number, this.1, seek_small this.2⟩
    induction chain with
    | first bootBlock =>
      have below := small .head bootBlock
      exact ⟨.first ((bootable_iff below).mpr bootBlock), below⟩
    | @next number chain bootBlock ih =>
      have below := small (.link chain) bootBlock
      have bootable := (bootable_iff below).mpr bootBlock
      have old := ih.1
      rw [← seek_small ih.2] at below bootable ⊢
      exact ⟨.next old bootable, below⟩
  · rintro ⟨block, old, rfl⟩
    induction old with
    | first bootable => exact linked .head bootable
    | next _ bootable ih =>
      obtain ⟨number, chain, same⟩ := ih
      rw [← same] at bootable ⊢
      exact linked (.link chain) bootable

/-- Where they are not, the old chain is another. -/
theorem alike_of_same
    (same : ∀ position, (∃ number, Linked beyond dev head number ∧ number.toNat = position) ↔
      ∃ block, OldChain beyond dev head block ∧ seek block = position) (reached : LinkedTo beyond dev head number) :
    number.toNat < 2 ^ 23 ∨ EndsAlike beyond dev head number := by
  rcases Nat.lt_or_ge number.toNat (2 ^ 23) with small | large
  · exact .inl small
  · refine .inr ⟨fun bootBlock => ?_, fun bootable => ?_⟩
    · obtain ⟨block, -, place⟩ := (same _).mp ⟨number, reached.linked bootBlock, rfl⟩
      rw [seek_eq] at place
      omega
    · refine (same _).mpr ⟨number, ?_, rfl⟩
      cases reached with
      | head => exact .first bootable
      | link linked =>
        obtain ⟨block, old, place⟩ := (same _).mp ⟨_, linked, rfl⟩
        rw [← place] at bootable ⊢
        exact .next old bootable

/-- What `erase_slb` has changed are the linked blocks if these are the old chain. -/
theorem freesLinked_iff_same :
    FreesLinked beyond dev rdb ↔
      ∀ position, (∃ number, Linked beyond dev (rdb rdbBootBlockList) number ∧ number.toNat = position) ↔
        ∃ block, OldChain beyond dev (rdb rdbBootBlockList) block ∧ seek block = position := by
  constructor
  · rintro ⟨fuel, erased, runs, frees, keeps⟩ position
    rw [eraseSlb_freed runs] at frees keeps
    rw [← freed_changed]
    constructor
    · rintro ⟨number, chain, rfl⟩
      rw [(frees number chain).1, chain.bootBlock.boot]
      decide
    · intro changed
      by_contra outside
      exact changed (congrFun (keeps position fun number chain place => outside ⟨number, chain, place⟩) amigaId)
  · intro same
    obtain ⟨fuel, erased, runs⟩ := eraseSlb_returns beyond dev rdb
    refine ⟨fuel, erased, runs, fun number chain => ?_, fun position outside => ?_⟩
    · have old := (same _).mp ⟨number, chain, rfl⟩
      rw [eraseSlb_freed runs, freed, if_pos old]
      refine ⟨erasedBlock_id _, erasedBlock_valid chain.bootBlock.boot chain.bootBlock.valid, fun i id sum => ?_⟩
      exact erasedBlock_kept beyond _ id sum
    · rw [eraseSlb_freed runs, freed, if_neg]
      intro old
      obtain ⟨number, chain, place⟩ := (same position).mpr old
      exact outside number chain place

end

/-- `erase_slb` ends and frees exactly the linked blocks, whatever the chain looks like,
if and only if no number from 2 ^ 23 on that a link holds makes a difference. -/
theorem eraseSlb_frees_linked_iff (beyond : Nat → Word) (dev : Disk) (rdb : Block) :
    FreesLinked beyond dev rdb ↔
      ∀ number, LinkedTo beyond dev (rdb rdbBootBlockList) number →
        number.toNat < 2 ^ 23 ∨ EndsAlike beyond dev (rdb rdbBootBlockList) number := by
  rw [freesLinked_iff_same]
  exact ⟨fun same _ reached => alike_of_same same reached, fun alike _ => linked_iff_old alike⟩

/-- A disk with a BOOT block under number 5 that no link leads to. -/
def wrappedDisk : Disk := fun position =>
  if position = 5 then fun i =>
    if i = amigaId then idBoot
    else if i = amigaSummedLongs then 5
    else if i = amigaChkSum then -(idBoot + 5 + idFree)
    else if i = bcbNext then idFree
    else 0
  else fun _ => 0

def wrappedRdb : Block := fun i => if i = rdbBootBlockList then 0x800005 else 0

/-- The link to block 2 ^ 23 + 5 leads `erase_slb` to block 5, which it frees. -/
theorem wrapped_not_freesLinked :
    (∀ position, (wrappedDisk position amigaSummedLongs).toNat ≤ 128) ∧
      ¬FreesLinked (fun _ => 0) wrappedDisk wrappedRdb := by
  constructor
  · intro position
    unfold wrappedDisk
    split <;> decide
  · rw [freesLinked_iff_same]
    intro same
    have bootable : Bootable (fun _ => 0) wrappedDisk 0x800005 := ⟨by decide, by decide, by decide⟩
    obtain ⟨number, chain, -⟩ := (same 5).mpr ⟨0x800005, .first bootable, by decide⟩
    exact absurd chain.begins.boot (by decide)

end Parthenope.Install
