import Parthenope.InstallRange

/-! When `install_slb` has room. It reserves a block before it writes one, so a run
needs one number more than the boot code has chunks; the search may take that number
from behind its bound. -/
namespace Parthenope.Install
open Function

/-- The complete chain has been written, and nothing was reported. -/
structure Complete (beyond : Nat → Word) (n : Nat) (out : Installed) : Prop where
  complete : out.complete = true
  count : out.writes.length = chunks n
  chain : Chain beyond out.dev (out.rdb rdbBootBlockList) (out.writes.map (·.1))

/-- Where the range that is searched has free blocks for all chunks, the chain is written. -/
def InstallsInRange (beyond : Nat → Word) (scratch : Block) (dev : Disk) (rdb : Block)
    (slb : Nat → Word) (slbSize : Word) : Prop :=
  chunks slbSize.toNat ≤ freeCount dev 1 (nblocks rdb).toNat →
    ∃ fuel out, installSlb beyond scratch dev rdb slb slbSize fuel = some out ∧
      Complete beyond slbSize.toNat out

/-- What there is besides `k` blocks up to the bound: one more of them, or else the bound and
the block behind it; from a lap on, the last block under another number. -/
def Spare (dev : Disk) (bound k : Nat) : Prop :=
  k < freeBelow dev (min bound (2 ^ 23) + 1) ∨
    k = freeBelow dev (min bound (2 ^ 23) + 1) ∧
      if bound < 2 ^ 23 then dev.free bound = true ∧ dev.free (bound + 1) = true
      else ∃ last, 0 < last ∧ last ≤ 2 ^ 23 ∧ dev.free last = true ∧ last + 2 ^ 23 ≤ bound ∧
        ∀ x, last < x → x ≤ 2 ^ 23 → dev.free x = false

section
variable {beyond : Nat → Word} {scratch : Block} {dev : Disk} {rdb : Block} {slb : Nat → Word}
  {slbSize : Word} {bound k n v : Nat}

private theorem freeBelow_succ (dev : Disk) (n : Nat) :
    freeBelow dev (n + 1) = freeBelow dev n + if 0 < n ∧ dev.free n = true then 1 else 0 := by
  rw [freeBelow, List.range_succ, List.countP_append, ← freeBelow]
  simp

private theorem freeBelow_mono (dev : Disk) {m n : Nat} (less : m ≤ n) : freeBelow dev m ≤ freeBelow dev n :=
  List.Sublist.countP_le (List.range_sublist.mpr less)

/-- The free block of a rank. -/
theorem exists_freeBelow (less : k < freeBelow dev n) :
    ∃ v < n, 0 < v ∧ dev.free v = true ∧ freeBelow dev v = k := by
  induction n with
  | zero => exact absurd less (Nat.not_lt_zero k)
  | succ n ih =>
    by_cases before : k < freeBelow dev n
    · obtain ⟨v, below, rest⟩ := ih before
      exact ⟨v, by omega, rest⟩
    · rw [freeBelow_succ] at less
      split at less
      · rename_i free
        exact ⟨n, Nat.lt_succ_self n, free.1, free.2, by omega⟩
      · omega

private theorem freeCount_below (small : bound < 2 ^ 23) : freeCount dev 1 bound = freeBelow dev (bound + 1) := by
  refine List.countP_congr fun x inside => ?_
  have below := List.mem_range.mp inside
  rw [Disk.free, Nat.mod_eq_of_lt (by omega)]
  rfl

private theorem freeBelow_taken {m : Nat} (less : m ≤ n) (taken : ∀ x, m ≤ x → x < n → dev.free x = false) :
    freeBelow dev n = freeBelow dev m := by
  induction n, less using Nat.le_induction with
  | base => rfl
  | succ n less ih =>
    have here : ¬(0 < n ∧ dev.free n = true) := by simp [taken n less (Nat.lt_succ_self n)]
    rw [freeBelow_succ, if_neg here, ih fun x above below => taken x above (by omega), Nat.add_zero]

private theorem freeBelow_free (positive : 0 < v) (free : dev.free v = true) :
    freeBelow dev (v + 1) = freeBelow dev v + 1 := by
  rw [freeBelow_succ, if_pos ⟨positive, free⟩]

/-- Past the free blocks of a range, the search goes on only over free blocks. -/
theorem spare_of_candidate (candidate : Candidate dev bound v) (needed : 0 < freeBelow dev v)
    (enough : bound < 2 ^ 23 → freeBelow dev v ≤ freeBelow dev (bound + 1)) : Spare dev bound (freeBelow dev v) := by
  have first := candidate.firstLap
  rcases Nat.lt_or_ge (min bound (2 ^ 23)) v with past | inside
  · have small : bound < 2 ^ 23 := by omega
    have room := enough small
    have same : min bound (2 ^ 23) = bound := by omega
    have positive : 0 < bound := by
      by_contra none
      have empty : freeBelow dev (bound + 1) = 0 := by
        rw [freeBelow_succ, if_neg fun some => none some.1, Nat.eq_zero_of_not_pos none]
        rfl
      omega
    have opened := candidate.open_ bound positive le_rfl (by omega)
    have less := freeBelow_mono dev (show bound + 1 ≤ v by omega)
    have next : v = bound + 1 := by
      by_contra later
      have again := candidate.open_ (bound + 1) (by omega) (by omega) (by omega)
      have more := freeBelow_mono dev (show bound + 1 + 1 ≤ v by omega)
      rw [freeBelow_free (by omega) again] at more
      omega
    refine .inr ⟨?_, ?_⟩
    · rw [same]
      omega
    · rw [if_pos small]
      exact ⟨opened, next ▸ candidate.free⟩
  · have counted := freeBelow_mono dev (show v + 1 ≤ min bound (2 ^ 23) + 1 by omega)
    rw [freeBelow_free candidate.positive candidate.free] at counted
    exact .inl counted

private theorem spare_of_reserved (reserved : Reserved dev bound k v) (needed : 0 < k)
    (enough : bound < 2 ^ 23 → k ≤ freeBelow dev (bound + 1)) : Spare dev bound k := by
  rcases reserved with ⟨candidate, rfl⟩ | ⟨g, candidate, rank, rfl, bounded, none⟩
  · exact spare_of_candidate candidate needed enough
  · have first := candidate.firstLap
    have same : min bound (2 ^ 23) = 2 ^ 23 := by omega
    have counted : freeBelow dev (2 ^ 23 + 1) = freeBelow dev (g + 1) :=
      freeBelow_taken (by omega) fun x above below => none x (by omega) (by omega)
    refine .inr ⟨?_, ?_⟩
    · rw [same, counted, freeBelow_free candidate.positive candidate.free, rank]
    · rw [if_neg (by omega)]
      exact ⟨g, candidate.positive, first, candidate.free, bounded, none⟩

private theorem reserved_of_spare (spare : Spare dev bound k) : ∃ v, Reserved dev bound k v := by
  rcases spare with more | ⟨all, behind⟩
  · obtain ⟨v, below, positive, free, rank⟩ := exists_freeBelow more
    exact ⟨v, .inl ⟨⟨positive, by omega, free, fun x _ late less => by omega⟩, rank⟩⟩
  · split at behind
    · rename_i small
      rw [show min bound (2 ^ 23) = bound by omega] at all
      refine ⟨bound + 1, .inl ⟨⟨Nat.succ_pos _, small, behind.2, fun x _ late less => ?_⟩, all.symm⟩⟩
      rw [show x = bound by omega]
      exact behind.1
    · rename_i large
      obtain ⟨g, positive, first, free, bounded, none⟩ := behind
      have counted : freeBelow dev (2 ^ 23 + 1) = freeBelow dev (g + 1) :=
        freeBelow_taken (by omega) fun x above below => none x (by omega) (by omega)
      rw [show min bound (2 ^ 23) = 2 ^ 23 by omega, counted, freeBelow_free positive free] at all
      have candidate : Candidate dev bound g := ⟨positive, first, free, fun x _ late less => by omega⟩
      exact ⟨g + 2 ^ 23, .inr ⟨g, candidate, all.symm, rfl, bounded, none⟩⟩

/-- `install_slb` writes the chain where the range has blocks for it, exactly where there is a
block to spare. -/
theorem install_in_range_iff (beyond : Nat → Word) (scratch : Block) (dev : Disk) (rdb : Block)
    (slb : Nat → Word) (slbSize : Word) (nonempty : 0 < slbSize) :
    InstallsInRange beyond scratch dev rdb slb slbSize ↔
      (chunks slbSize.toNat ≤ freeCount dev 1 (nblocks rdb).toNat →
        Spare dev (nblocks rdb).toNat (chunks slbSize.toNat)) := by
  have some : 0 < slbSize.toNat := BitVec.lt_def.mp nonempty
  have needed : 0 < chunks slbSize.toNat := by
    rw [chunks]
    omega
  refine forall_congr' fun enough => ⟨?_, fun spare => ?_⟩
  · rintro ⟨fuel, out, runs, done⟩
    rcases installSlb_final runs with ⟨rfl, -⟩ | ⟨first, s, final⟩
    · exact absurd done.complete Bool.false_ne_true
    · obtain ⟨v, reserved⟩ := final.complete_iff.mp done.complete
      refine spare_of_reserved reserved needed fun small => ?_
      rwa [freeCount_below small] at enough
  · obtain ⟨v, reserved⟩ := reserved_of_spare spare
    obtain ⟨fuel, out, runs⟩ := installSlb_returns beyond scratch dev rdb slb slbSize
    have complete : out.complete = true := by
      rcases installSlb_final runs with ⟨rfl, x, above, late, taken⟩ | ⟨first, s, final⟩
      · have none := no_candidate above late taken
        rcases reserved with ⟨candidate, -⟩ | ⟨g, candidate, -⟩
        · exact absurd candidate (none v)
        · exact absurd candidate (none g)
      · exact final.complete_iff.mpr ⟨v, reserved⟩
    obtain ⟨count, chain, -⟩ := installed_chain nonempty runs complete
    exact ⟨fuel, out, runs, complete, count, chain⟩

end

/-- A disk on which block 1 is free and no other. -/
def tightDisk : Disk := fun position => if position = 1 then fun _ => 0 else fun _ => idPartition

/-- The range that is searched is blocks 1 and 2. -/
def threeBlockRdb : Block := fun i => if i = rdbBlocksHi then 2 else 0

/-- One word fits into block 1, and is not written. -/
theorem tight_not_installed : ¬InstallsInRange (fun _ => 0) (fun _ => 0) tightDisk threeBlockRdb (fun _ => 0) 1 := by
  intro installs
  obtain ⟨fuel, out, runs, done⟩ := installs (by decide)
  have fails : (installSlb (fun _ => 0) (fun _ => 0) tightDisk threeBlockRdb (fun _ => 0) 1 3).map (·.complete) =
      some false := by decide
  obtain ⟨failed, runs', refused⟩ := Option.map_eq_some_iff.mp fails
  have same := (installSlb_mono runs (Nat.le_max_left fuel 3)).symm.trans
    (installSlb_mono runs' (Nat.le_max_right fuel 3))
  cases same
  exact absurd (done.complete.symm.trans refused) (by decide)

theorem tight_installs_iff :
    InstallsInRange (fun _ => 0) (fun _ => 0) tightDisk threeBlockRdb (fun _ => 0) 1 ↔
      (chunks 1 ≤ freeCount tightDisk 1 2 → Spare tightDisk 2 (chunks 1)) :=
  install_in_range_iff (fun _ => 0) (fun _ => 0) tightDisk threeBlockRdb (fun _ => 0) 1 (by decide)

end Parthenope.Install
