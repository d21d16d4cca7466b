import Parthenope.SfsTermination

/-! What the checksum of a block decides. `calcchecksum` clears the field of the checksum
before it adds the block up, and its callers ask whether the sum is zero, as for a block
that is added up with the field in it. -/
namespace Parthenope.Sfs
open CString Buffer StepLoop

/-- The checksum stored in a block is that of the rest of it. -/
def Intact (block : Nat → Byte) (blocksize : Word) : Prop :=
  ∃ fuel, calcchecksum block blocksize fuel = some (be32 block sbhChecksum)

/-- The checksum of a block, as it is read from a volume, tells whether it is intact, to
`sfs_findobject` and to `get_bnode`. -/
structure ChecksumTells {D : Type} (host : Host D) (boot : SfsBootDev) (d : D) (link : Word) : Prop where
  container : link ≠ 0 → ∀ dirname type fuel, containerTurn host boot dirname type fuel (d, link) =
    afterVerdict (readBlock host boot d link).1 (verdict (readBlock host boot d link).2 boot.blocksize fuel)
      (searchContainer (readBlock host boot d link).1 (readBlock host boot d link).2 dirname type fuel)
  bnode : (sfsLoadsector host boot d link).2.1 = true → ∀ key above fuel,
    bnodeTurn host boot key fuel (d, link, above) =
      afterVerdict (readBlock host boot d link).1 (verdict (readBlock host boot d link).2 boot.blocksize fuel)
        (searchNodes (readBlock host boot d link).1 (readBlock host boot d link).2 key fuel)
  accepted : (∃ fuel, verdict (readBlock host boot d link).2 boot.blocksize fuel = some .accepted) ↔
    Intact (readBlock host boot d link).2 boot.blocksize
  rejected : (∃ fuel, verdict (readBlock host boot d link).2 boot.blocksize fuel = some .invalidChecksum) ↔
    ¬Intact (readBlock host boot d link).2 boot.blocksize

/-- The first `n` words of a block added up, but for the field of the checksum. -/
def otherWords (block : Nat → Byte) (n : Nat) : Word :=
  ((List.range n).map fun k => if k = 1 then 0 else be32 block (4 * k)).sum

/-- Of the sums of all words and of those other than the checksum, with one added, one is
zero and the other is not: the right checksum is stored, or else it would be zero. -/
def OneSum (block : Nat → Byte) (blocksize : Word) : Prop :=
  blocksize.toNat % 4 = 0 ∧
    (1 + otherWords block (blocksize.toNat / 4) + be32 block sbhChecksum = 0 ↔
      1 + otherWords block (blocksize.toNat / 4) ≠ 0)

section
variable {D : Type} {host : Host D} {self : SfsBootDev} {d : D} {link key blocksize checksum : Word}
  {block : Nat → Byte} {dirname : List Byte} {type : Byte} {fuel : Nat} {above : Option Word}

private theorem otherWords_succ (block : Nat → Byte) (n : Nat) :
    otherWords block (n + 1) = otherWords block n + if n = 1 then 0 else be32 block (4 * n) := by
  simp [otherWords, List.range_succ]

/-- `calcchecksum` adds up the words of a block but for the checksum, and one. -/
theorem checksum_sum (whole : blocksize.toNat % 4 = 0) (summed : calcchecksum block blocksize fuel = some checksum) :
    checksum = -(1 + otherWords block (blocksize.toNat / 4)) := by
  obtain ⟨s, reached, ends⟩ := run_exit summed
  obtain ⟨k, -, left, sum⟩ : ∃ k, s.1 = 4 * k ∧ s.2.2.toNat + 4 * k = blocksize.toNat ∧
      s.2.1 = 1 + otherWords block k := by
    refine reached.invariant (fun s => ∃ k, s.1 = 4 * k ∧ s.2.2.toNat + 4 * k = blocksize.toNat ∧
      s.2.1 = 1 + otherWords block k) ?_ ⟨0, rfl, rfl, by simp [otherWords]⟩
    rintro ⟨data, sum, left⟩ t ⟨k, rfl, left_eq, sum_eq⟩ turns
    dsimp only at left_eq sum_eq
    rw [checksumTurn] at turns
    split at turns
    · rename_i positive
      cases turns
      have positive' : 0 < left.toNat := BitVec.lt_def.mp positive
      have four : (4 : Word) ≤ left := BitVec.le_def.mpr (show 4 ≤ left.toNat by omega)
      have less : (left - 4).toNat = left.toNat - 4 := BitVec.toNat_sub_of_le four
      refine ⟨k + 1, rfl, (show (left - 4).toNat + 4 * (k + 1) = _ by omega), ?_⟩
      have field : (if 4 * k = sbhChecksum then (0 : Word) else be32 block (4 * k)) =
          if k = 1 then 0 else be32 block (4 * k) := by
        simp [sbhChecksum]
      rw [otherWords_succ, field, sum_eq, BitVec.add_assoc]
    · cases turns
  obtain ⟨data, sum', left'⟩ := s
  rw [checksumTurn] at ends
  split at ends
  · cases ends
  · rename_i zero
    cases ends
    have none : ¬0 < left'.toNat := fun positive => zero (BitVec.lt_def.mpr positive)
    dsimp only at left sum
    rw [sum, ← left, show (left'.toNat + 4 * k) / 4 = k by omega]

private theorem verdict_iff (whole : blocksize.toNat % 4 = 0) (v : Verdict) :
    (∃ fuel, verdict block blocksize fuel = some v) ↔
      (if 1 + otherWords block (blocksize.toNat / 4) = 0 then .invalidChecksum else .accepted) = v := by
  have told {fuel : Nat} {checksum : Word} (summed : calcchecksum block blocksize fuel = some checksum) :
      checksum = 0 ↔ 1 + otherWords block (blocksize.toNat / 4) = 0 := by
    rw [checksum_sum whole summed]
    exact neg_eq_zero
  unfold verdict
  simp only [Option.map_eq_some_iff]
  constructor
  · rintro ⟨fuel, checksum, summed, same⟩
    rwa [if_congr (told summed) rfl rfl] at same
  · intro same
    obtain ⟨fuel, checksum, summed⟩ := checksum_ends_iff.mpr whole
    refine ⟨fuel, checksum, summed, ?_⟩
    rwa [if_congr (told summed) rfl rfl]

private theorem accepted_iff (whole : blocksize.toNat % 4 = 0) :
    (∃ fuel, verdict block blocksize fuel = some .accepted) ↔
      1 + otherWords block (blocksize.toNat / 4) ≠ 0 := by
  rw [verdict_iff whole]
  split
  · rename_i zero
    exact iff_of_false nofun (not_not_intro zero)
  · rename_i nonzero
    exact iff_of_true rfl nonzero

private theorem rejected_iff (whole : blocksize.toNat % 4 = 0) :
    (∃ fuel, verdict block blocksize fuel = some .invalidChecksum) ↔
      1 + otherWords block (blocksize.toNat / 4) = 0 := by
  rw [verdict_iff whole]
  split
  · rename_i zero
    exact iff_of_true rfl zero
  · rename_i nonzero
    exact iff_of_false nofun nonzero

private theorem intact_iff (whole : blocksize.toNat % 4 = 0) :
    Intact block blocksize ↔ 1 + otherWords block (blocksize.toNat / 4) + be32 block sbhChecksum = 0 := by
  constructor
  · rintro ⟨fuel, summed⟩
    rw [checksum_sum whole summed]
    exact add_neg_cancel _
  · intro zero
    obtain ⟨fuel, checksum, summed⟩ := checksum_ends_iff.mpr whole
    refine ⟨fuel, summed.trans (congrArg some ?_)⟩
    rw [checksum_sum whole summed]
    exact neg_eq_of_add_eq_zero_right zero

/-- The checksum tells if and only if either the right one is stored or the right one is zero. -/
theorem checksum_tells_iff (host : Host D) (self : SfsBootDev) (d : D) (link : Word) :
    ChecksumTells host self d link ↔ OneSum (readBlock host self d link).2 self.blocksize := by
  by_cases whole : self.blocksize.toNat % 4 = 0
  · constructor
    · rintro ⟨-, -, accepted, -⟩
      rw [accepted_iff whole, intact_iff whole] at accepted
      exact ⟨whole, accepted.symm⟩
    · rintro ⟨-, sums⟩
      refine ⟨fun more _ _ _ => containerTurn_verdict more, fun read _ _ _ => bnodeTurn_verdict read, ?_, ?_⟩
      · rw [accepted_iff whole, intact_iff whole]
        exact sums.symm
      · rw [rejected_iff whole, intact_iff whole]
        exact iff_not_comm.mp sums
  · -- A block that is added up forever is not rejected.
    refine iff_of_false (fun tells => ?_) fun sums => whole sums.1
    have endless (fuel : Nat) : calcchecksum (readBlock host self d link).2 self.blocksize fuel = none := by
      by_contra ended
      obtain ⟨checksum, summed⟩ := Option.ne_none_iff_exists'.mp ended
      exact whole (checksum_ends_iff.mp ⟨fuel, checksum, summed⟩)
    have corrupted : ¬Intact (readBlock host self d link).2 self.blocksize := by
      rintro ⟨fuel, summed⟩
      rw [endless] at summed
      cases summed
    obtain ⟨fuel, rejected⟩ := tells.rejected.mpr corrupted
    rw [verdict, endless] at rejected
    cases rejected

end

/-- The container of the small volume has no checksum, and is accepted. -/
theorem no_checksum_accepted : ¬ChecksumTells (steadyHost smallSectors) smallVolume () 1 := by
  intro tells
  obtain ⟨fuel, intact⟩ := tells.accepted.mp ⟨200, by decide +kernel⟩
  have summed : (calcchecksum (readBlock (steadyHost smallSectors) smallVolume () 1).2 512 200).any
      (fun checksum => checksum ≠ be32 (readBlock (steadyHost smallSectors) smallVolume () 1).2
        sbhChecksum) = true := by
    decide +kernel
  obtain ⟨checksum, ended, wrong⟩ := (Option.any_eq_true _ _).mp summed
  exact absurd (run_unique ended intact) (of_decide_eq_true wrong)

end Parthenope.Sfs
