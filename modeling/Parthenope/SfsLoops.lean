import Parthenope.NestedLoop
import Parthenope.Sfs

/-! The loops of `sfs.c` with more fuel: what a walk, a descent or a load has come to
once, it comes to with any fuel beyond. -/
namespace Parthenope.Sfs
open CString Buffer StepLoop

variable {D : Type} {host : Host D} {self : SfsBootDev} {block : Nat → Byte} {dirname : List Byte}
  {type : Byte} {d : D} {cwd root : Nat → Byte} {key size checksum : Word} {fuel more : Nat}
  {names : List (List Byte)} {filename : List Byte}

theorem checksum_more {blocksize : Word} (summed : calcchecksum block blocksize fuel = some checksum)
    (enough : fuel ≤ more) : calcchecksum block blocksize more = some checksum :=
  run_mono summed enough

theorem nextobject_more {o next : Nat} (found : sfsNextobject block o fuel = some next)
    (enough : fuel ≤ more) : sfsNextobject block o more = some next := by
  obtain ⟨p, walked, same⟩ := Option.map_eq_some_iff.mp found
  exact Option.map_eq_some_iff.mpr ⟨p, run_mono walked enough, same⟩

theorem objectTurn_steady : Steady (objectTurn block dirname type) := by
  intro o n m enough done
  unfold objectTurn at done ⊢
  split
  · rename_i used
    rw [if_pos used] at done
    split
    · rfl
    · rename_i other
      rw [if_neg other] at done
      cases found : sfsNextobject block o n with
      | none =>
        rw [found] at done
        exact absurd rfl done
      | some next => rw [nextobject_more found enough]
  · rfl

theorem containerTurn_steady : Steady (containerTurn host self dirname type) := by
  rintro ⟨d, next⟩ n m enough done
  unfold containerTurn at done ⊢
  dsimp only at done ⊢
  split
  · rename_i more
    rw [if_pos more] at done
    generalize sfsLoadsector host self d next = answer at done ⊢
    obtain ⟨d', result, block⟩ := answer
    dsimp only at done ⊢
    cases summed : calcchecksum block self.blocksize n with
    | none =>
      rw [summed] at done
      exact absurd rfl done
    | some checksum =>
      rw [checksum_more summed enough]
      rw [summed] at done
      dsimp only at done ⊢
      split
      · rfl
      · rename_i valid
        rw [if_neg valid] at done
        split
        · rfl
        · rename_i container
          rw [if_neg container] at done
          cases walked : nested (objectTurn block dirname type) n socObject with
          | none =>
            rw [walked] at done
            exact absurd rfl done
          | some found => rw [nested_more objectTurn_steady walked enough]
  · rfl

theorem findobject_more {r : D × Option (Nat → Byte)}
    (found : sfsFindobject host self d cwd dirname type fuel = some r) (enough : fuel ≤ more) :
    sfsFindobject host self d cwd dirname type more = some r :=
  nested_more containerTurn_steady found enough

theorem findComponents_more {r : D × Option (Nat → Byte)}
    (found : findComponents host self fuel names d root = some r) (enough : fuel ≤ more) :
    findComponents host self more names d root = some r := by
  induction names generalizing d root with
  | nil => exact found
  | cons directory rest ih =>
    cases rest with
    | nil => exact findobject_more found enough
    | cons name rest =>
      rw [findComponents] at found ⊢
      · cases searched : sfsFindobject host self d root directory otypeDir fuel with
        | none =>
          rw [searched] at found
          cases found
        | some step =>
          rw [searched] at found
          rw [findobject_more searched enough]
          rcases step with ⟨d', _ | o⟩
          · exact found
          · exact ih found
      all_goals exact List.cons_ne_nil _ _

theorem find_more {r : D × Option (Nat → Byte)} (found : sfsFind host self d filename fuel = some r)
    (enough : fuel ≤ more) : sfsFind host self d filename more = some r :=
  findComponents_more found enough

theorem bnodeTurn_steady : Steady (bnodeTurn host self key) := by
  rintro ⟨d, next, bnode⟩ n m enough done
  unfold bnodeTurn at done ⊢
  dsimp only at done ⊢
  generalize sfsLoadsector host self d next = answer at done ⊢
  rcases answer with ⟨d', _ | _, block⟩
  · rfl
  · dsimp only at done ⊢
    cases summed : calcchecksum block self.blocksize n with
    | none =>
      rw [summed] at done
      exact absurd rfl done
    | some checksum =>
      rw [checksum_more summed enough]
      rw [summed] at done
      dsimp only at done ⊢
      split
      · rfl
      · rename_i valid
        rw [if_neg valid] at done
        cases scanned : run (scanTurn block key) n (be16 block btcNodecount - 1) with
        | none =>
          rw [scanned] at done
          exact absurd rfl done
        | some tmp => rw [run_mono scanned enough]

private theorem getBnode_more {r : D × Option (Nat → Byte)} (found : getBnode host self d key fuel = some r)
    (enough : fuel ≤ more) : getBnode host self d key more = some r :=
  nested_more bnodeTurn_steady found enough

theorem extentTurn_steady : Steady (extentTurn host self size) := by
  rintro ⟨next, d, readed, filebuffer⟩ n m enough done
  unfold extentTurn at done ⊢
  dsimp only at done ⊢
  split
  · rename_i further
    rw [if_pos further] at done
    cases found : getBnode host self d next n with
    | none =>
      rw [found] at done
      exact absurd rfl done
    | some r => rw [getBnode_more found enough]
  · rfl

theorem toCopy_toNat {readed : Word} (begun : readed.toNat ≤ size.toNat) :
    (toCopy self size readed).toNat = min self.blocksize.toNat (size.toNat - readed.toNat) := by
  have left : (size - readed).toNat = size.toNat - readed.toNat :=
    BitVec.toNat_sub_of_le (BitVec.le_def.mpr begun)
  unfold toCopy
  split
  · rename_i full
    have := BitVec.le_def.mp full
    omega
  · rename_i part
    have := mt BitVec.le_def.mpr part
    omega

/-- A load that ends ends alike with more fuel. -/
theorem loadfile_more {filebuffer : Option (ByteMemory.Memory 32)}
    {r : Except Fault (D × Int × Option (ByteMemory.Memory 32))}
    (loaded : sfsLoadfile host self d filename filebuffer fuel = some r) (enough : fuel ≤ more) :
    sfsLoadfile host self d filename filebuffer more = some r := by
  unfold sfsLoadfile at loaded ⊢
  cases found : sfsFind host self d filename fuel with
  | none =>
    rw [found] at loaded
    cases loaded
  | some step =>
    rw [find_more found enough]
    rw [found] at loaded
    rcases step with ⟨d', _ | o⟩
    · exact loaded
    · obtain ⟨outcome, ended, mapped⟩ := Option.map_eq_some_iff.mp loaded
      exact Option.map_eq_some_iff.mpr ⟨outcome, nested_more extentTurn_steady ended enough, mapped⟩

/-- Each block counts in full, up to the size of the file. -/
theorem copyBlocks_counts {next first : Word} {blocks : Nat} (loading : Loading D)
    (begun : loading.2.1.toNat ≤ size.toNat) :
    (copyBlocks host self next size blocks first loading).2.1.toNat =
      min size.toNat (loading.2.1.toNat + blocks * self.blocksize.toNat) := by
  induction blocks generalizing first loading with
  | zero =>
    rw [Nat.zero_mul, Nat.add_zero, Nat.min_eq_right begun]
    rfl
  | succ blocks ih =>
    obtain ⟨d, readed, filebuffer⟩ := loading
    dsimp only at begun ⊢
    have copied : (toCopy self size readed).toNat = min self.blocksize.toNat (size.toNat - readed.toNat) :=
      toCopy_toNat begun
    have := size.isLt
    have total : (readed + toCopy self size readed).toNat = readed.toNat + (toCopy self size readed).toNat := by
      rw [BitVec.toNat_add]
      omega
    rw [copyBlocks]
    generalize sfsLoadsector host self d (next + first) = answer
    obtain ⟨d', result, buffer⟩ := answer
    dsimp only
    rw [ih _ (by dsimp only; omega), total, copied, Nat.add_mul, Nat.one_mul]
    omega

/-- A turn that goes on has room left, adds to what has been read and keeps to the size. -/
theorem extentTurn_next {s u : Word × Loading D} (next : extentTurn host self size fuel s = .inr u) :
    s.2.2.1 < size ∧ s.2.2.1.toNat ≤ u.2.2.1.toNat ∧ u.2.2.1.toNat ≤ size.toNat := by
  obtain ⟨link, d, readed, filebuffer⟩ := s
  unfold extentTurn at next
  dsimp only at next
  split at next
  · rename_i further
    have begun : readed.toNat ≤ size.toNat := (BitVec.lt_def.mp further.2).le
    rcases found : getBnode host self d link fuel with _ | ⟨d', _ | sebn⟩
    · rw [found] at next
      cases next
    · rw [found] at next
      cases next
    · rw [found] at next
      cases next
      rw [copyBlocks_counts (d', readed, filebuffer) begun]
      exact ⟨further.2, Nat.le_min.mpr ⟨begun, Nat.le_add_right _ _⟩, Nat.min_le_left _ _⟩
  · cases next

/-- So what a load returns is no more than the size. -/
theorem extents_bounded {s : Word × Loading D} {r : Loading D} (begun : s.2.2.1.toNat ≤ size.toNat)
    (ended : nested (extentTurn host self size) fuel s = some (.ok r)) : r.2.1.toNat ≤ size.toNat := by
  obtain ⟨t, reached, exits⟩ := nested_exit ended
  have bounded : t.2.2.1.toNat ≤ size.toNat := by
    apply reached.invariant (fun t => t.2.2.1.toNat ≤ size.toNat) _ begun
    exact fun _ _ _ turns => (extentTurn_next turns).2.2
  obtain ⟨next, d, readed, filebuffer⟩ := t
  unfold extentTurn at exits
  dsimp only at exits
  split at exits
  · rcases found : getBnode host self d next fuel with _ | ⟨d', _ | sebn⟩
    · rw [found] at exits
      cases exits
    · rw [found] at exits
      cases exits
    · rw [found] at exits
      cases exits
  · cases exits
    exact bounded

/-- The loop over the extents ends at the end of the chain or of the file. -/
theorem extentTurn_ends {next : Word} {loading : Loading D} (finished : ¬(next ≠ 0 ∧ loading.2.1 < size)) :
    settle (extentTurn host self size) (next, loading) = .inl (some (.ok loading)) := by
  obtain ⟨d, readed, filebuffer⟩ := loading
  have ends : extentTurn host self size 0 (next, d, readed, filebuffer) =
      .inl (some (.ok (d, readed, filebuffer))) := by
    unfold extentTurn
    exact if_neg finished
  have done : extentTurn host self size 0 (next, d, readed, filebuffer) ≠ .inl none := by
    rw [ends]
    simp
  exact (settle_eq extentTurn_steady done).trans ends

/-- Before that it copies the blocks of the extent it finds, and goes on to the next. -/
theorem extentTurn_copies {next : Word} {loading : Loading D} {d' : D} {sebn : Nat → Byte}
    (further : next ≠ 0 ∧ loading.2.1 < size)
    (found : getBnode host self loading.1 next fuel = some (d', some sebn)) :
    settle (extentTurn host self size) (next, loading) =
      .inr (be32 sebn sebnNext,
        copyBlocks host self next size (be16 sebn sebnBlocks).toNat 0 (d', loading.2)) := by
  obtain ⟨d, readed, filebuffer⟩ := loading
  have turns : extentTurn host self size fuel (next, d, readed, filebuffer) =
      .inr (be32 sebn sebnNext,
        copyBlocks host self next size (be16 sebn sebnBlocks).toNat 0 (d', readed, filebuffer)) := by
    unfold extentTurn
    dsimp only at found ⊢
    rw [if_pos further, found]
  have done : extentTurn host self size fuel (next, d, readed, filebuffer) ≠ .inl none := by
    rw [turns]
    exact Sum.inr_ne_inl
  exact (settle_eq extentTurn_steady done).trans turns

end Parthenope.Sfs
