import Parthenope.SfsTree

/-! Where the scan of a B-tree block ends. It goes down from the last node, by a number of
16 bits that is compared with nothing, and behind the first node the number wraps. -/
namespace Parthenope.Sfs
open CString Buffer StepLoop

/-- The key of a node, by its number. -/
def keyAt (block : Nat → Byte) (i : Nat) : Word := be32 (member block (nodePlace block i)) bnKey

/-- Every key in a block is greater than the one requested. -/
def AllGreater (block : Nat → Byte) (key : Word) : Prop :=
  ∀ i < (be16 block btcNodecount).toNat, key < keyAt block i

/-- The scan of a block keeps to its nodes and looks at each of them at most once; and where
all keys are greater `get_bnode` returns no node, which `sfs_loadfile` does not take for one. -/
structure ScanSafe (block : Nat → Byte) (key : Word) : Prop where
  inside : ∀ i, Reaches (scanTurn block key) (be16 block btcNodecount - 1) i →
    i.toNat < (be16 block btcNodecount).toNat
  stops : ∃ n ≤ (be16 block btcNodecount).toNat, ∃ tmp,
    run (scanTurn block key) n (be16 block btcNodecount - 1) = some tmp
  missing : AllGreater block key → ∀ {D : Type} (host : Host D) (self : SfsBootDev) (d : D) (link : Word)
    (above : Option Word), (sfsLoadsector host self d link).2 = (true, block) →
      (∃ fuel, verdict block self.blocksize fuel = some .accepted) →
        ∃ fuel d', bnodeTurn host self key fuel (d, link, above) = .inl (some (d', none))
  handled : AllGreater block key → ∀ {D : Type} (host : Host D) (self : SfsBootDev) (n : Nat) (start d : D)
    (link : Word) (above : Option Word),
      Reaches (bnodeTurn host self key n) (start, self.extentbnoderoot, none) (d, link, above) →
        (sfsLoadsector host self d link).2 = (true, block) → ∀ size readed filebuffer fuel,
          extentTurn host self size fuel (key, start, readed, filebuffer) ≠ .inl (some (.error .nullNode))

section
variable {block : Nat → Byte} {key : Word} {i j : BitVec 16} {k : Nat}

private theorem scanTurn_passes (greater : key < keyAt block i.toNat) : scanTurn block key i = .inr (i - 1) :=
  if_neg (BitVec.not_le.mpr greater)

private theorem scanTurn_next (turns : scanTurn block key i = .inr j) : key < keyAt block i.toNat ∧ j = i - 1 := by
  unfold scanTurn at turns
  dsimp only at turns
  split at turns
  · cases turns
  · rename_i greater
    cases turns
    exact ⟨BitVec.not_le.mp greater, rfl⟩

/-- Past nodes with greater keys the scan goes on, from the last one down. -/
theorem scan_passes (greater : AllGreater block key) (within : k ≤ (be16 block btcNodecount).toNat) :
    Reaches (scanTurn block key) (be16 block btcNodecount - 1)
      (be16 block btcNodecount - 1 - BitVec.ofNat 16 k) := by
  generalize count : be16 block btcNodecount = n at within
  induction k with
  | zero =>
    rw [show n - 1 - BitVec.ofNat 16 0 = n - 1 from BitVec.sub_zero _]
    exact .start _
  | succ k ih =>
    have below : (n - 1 - BitVec.ofNat 16 k).toNat < n.toNat := by bv_omega
    have next : n - 1 - BitVec.ofNat 16 (k + 1) = n - 1 - BitVec.ofNat 16 k - 1 := by bv_omega
    rw [next]
    exact .turn (ih (by omega)) (scanTurn_passes (greater _ (count ▸ below)))

/-- Behind the first node the number wraps to one that no node has. -/
theorem AllGreater.leaves (greater : AllGreater block key) :
    ∃ i, Reaches (scanTurn block key) (be16 block btcNodecount - 1) i ∧
      ¬i.toNat < (be16 block btcNodecount).toNat := by
  refine ⟨_, scan_passes greater le_rfl, ?_⟩
  generalize be16 block btcNodecount = n
  bv_omega

/-- A node with a key that is not greater is not passed. -/
theorem scan_descends (small : keyAt block k ≤ key) (above : k ≤ i.toNat) (turns : scanTurn block key i = .inr j) :
    k ≤ j.toNat ∧ j.toNat < i.toNat := by
  obtain ⟨greater, rfl⟩ := scanTurn_next turns
  have other : k ≠ i.toNat := by
    rintro rfl
    exact absurd small (BitVec.not_le.mpr greater)
  bv_omega

private theorem scan_within (small : keyAt block k ≤ key) (within : k < (be16 block btcNodecount).toNat)
    (reached : Reaches (scanTurn block key) (be16 block btcNodecount - 1) i) :
    k ≤ i.toNat ∧ i.toNat < (be16 block btcNodecount).toNat := by
  refine reached.invariant (fun i => k ≤ i.toNat ∧ i.toNat < (be16 block btcNodecount).toNat) ?_ ?_
  · rintro i j ⟨above, below⟩ turns
    obtain ⟨above', less⟩ := scan_descends small above turns
    exact ⟨above', less.trans below⟩
  · generalize be16 block btcNodecount = n at within
    bv_omega

private theorem scan_stops (small : keyAt block k ≤ key) (within : k < (be16 block btcNodecount).toNat) :
    ∃ tmp, run (scanTurn block key) (be16 block btcNodecount).toNat (be16 block btcNodecount - 1) = some tmp := by
  refine run_terminates (scanTurn block key) (fun i => k ≤ i.toNat) (fun i => i.toNat) ?_ ?_ ?_ ?_
  · exact fun i j above turns => (scan_descends small above turns).1
  · exact fun i j above turns => (scan_descends small above turns).2
  · exact (scan_within small within (.start _)).1
  · generalize be16 block btcNodecount = n at within
    bv_omega

/-- The scan of a block is safe if and only if one of its nodes has a key that is not
greater than the one requested. -/
theorem scan_safe_iff (block : Nat → Byte) (key : Word) :
    ScanSafe block key ↔ ∃ i < (be16 block btcNodecount).toNat, keyAt block i ≤ key := by
  constructor
  · intro safe
    by_contra none
    have greater : AllGreater block key :=
      fun i within => BitVec.not_le.mp fun small => none ⟨i, within, small⟩
    obtain ⟨i, reached, outside⟩ := greater.leaves
    exact outside (safe.inside i reached)
  · rintro ⟨k, within, small⟩
    have some : ¬AllGreater block key := fun greater => absurd small (BitVec.not_le.mpr (greater k within))
    exact {
      inside := fun i reached => (scan_within small within reached).2
      stops := ⟨_, le_rfl, scan_stops small within⟩
      missing := fun greater => absurd greater some
      handled := fun greater => absurd greater some }

end

/-- A block whose only node has the key 9. -/
def oneNode (i : Nat) : Byte :=
  if i = btcNodecount + 1 then 1
  else if i = btcIsleaf then 1
  else if i = btcNodesize then 14
  else if i = btcBnode + 3 then 9
  else 0

/-- The scan leaves a block whose only key is greater, and one that has no nodes. -/
theorem scan_wraps : ¬ScanSafe oneNode 3 ∧ ¬ScanSafe (fun _ => 0) 3 := by
  have one : AllGreater oneNode 3 := by
    intro i within
    have count : (be16 oneNode btcNodecount).toNat = 1 := by decide
    obtain rfl : i = 0 := by omega
    decide
  have none : AllGreater (fun _ => 0) 3 := fun i within => absurd within (Nat.not_lt_zero i)
  refine ⟨fun safe => ?_, fun safe => ?_⟩
  · obtain ⟨i, reached, outside⟩ := one.leaves
    exact outside (safe.inside i reached)
  · obtain ⟨i, reached, outside⟩ := none.leaves
    exact outside (safe.inside i reached)

end Parthenope.Sfs
