import Parthenope.InstallChain

/-! The reserved range `rdb_RDBBlocksLo..rdb_RDBBlocksHi` and the blocks
`install_slb` uses. The search runs over `1..Hi - Lo`, and on past its bound
while each next block happens to be free, so whether the installer keeps to the
range depends on which blocks are free. -/
namespace Parthenope.Install
open Function WriteLog

/-- The numbers stored in `rdb_BootBlockList` and `bcb_Next`. -/
def Installed.stored (out : Installed) : List Word :=
  out.head.toList ++ (out.writes.map fun w => w.2 bcbNext).filter (· != idFree)

/-- How many blocks of a range are free. -/
def freeCount (dev : Disk) (lo hi : Nat) : Nat :=
  (List.range (hi + 1)).countP fun position => decide (lo ≤ position) && isFree (dev position)

/-- A run that uses blocks of the range only, and that reports failure where
these do not suffice for `n` words. -/
structure StaysInside (dev : Disk) (lo hi n : Nat) (out : Installed) : Prop where
  written : ∀ w ∈ out.writes, lo ≤ seek w.1 ∧ seek w.1 ≤ hi
  stored : ∀ number ∈ out.stored, lo ≤ number.toNat ∧ number.toNat ≤ hi
  reports : freeCount dev lo hi < chunks n → out.complete = false

/-- A block the search can come to: it is free, and so is every block from the
bound up to it. -/
structure Candidate (dev : Disk) (bound number : Nat) : Prop where
  positive : 0 < number
  firstLap : number ≤ 2 ^ 23
  free : dev.free number = true
  open_ : ∀ x, 0 < x → bound ≤ x → x < number → dev.free x = true

/-- How many free blocks come before a number, from block 1 on. -/
def freeBelow (dev : Disk) (number : Nat) : Nat :=
  (List.range number).countP fun x => decide (0 < x) && dev.free x

/-- Every candidate that is among the first blocks the boot code needs lies in
the range, and block `2 ^ 23`, which wraps to block 0, is not written. -/
def RangeSuffices (dev : Disk) (lo hi n : Nat) : Prop :=
  (∀ number, Candidate dev (hi - lo) number → freeBelow dev number < max 1 (chunks n) →
    lo ≤ number ∧ number ≤ hi) ∧
  ¬ (0 < lo ∧ 2 ^ 24 ≤ hi - lo ∧ dev.free (2 ^ 23) = true ∧ freeBelow dev (2 ^ 23) < chunks n)

section
variable {dev : Disk} {bound : Nat} {s : Progress}

/-- The numbers reserved so far. -/
def reservedNumbers (s : Progress) : List Nat := numbers s.writes ++ [s.block.toNat]

theorem reservedNumbers_eq (s : Progress) : reservedNumbers s = s.reserved.map (·.toNat) := by
  simp [reservedNumbers, Progress.reserved, numbers]

/-- In an increasing list the elements before a place are the smaller ones. -/
private theorem mem_take_increasing {l : List Nat} (increasing : l.Pairwise (· < ·)) {k v : Nat}
    (place : l[k]? = some v) (x : Nat) : x ∈ l.take k ↔ x ∈ l ∧ x < v := by
  obtain ⟨inside, rfl⟩ := List.getElem?_eq_some_iff.mp place
  rw [List.pairwise_iff_getElem] at increasing
  constructor
  · intro member
    obtain ⟨j, small, rfl⟩ := List.getElem_of_mem member
    rw [List.length_take] at small
    rw [List.getElem_take]
    exact ⟨List.getElem_mem _, increasing j k _ _ (by omega)⟩
  · rintro ⟨member, less⟩
    obtain ⟨j, small, rfl⟩ := List.getElem_of_mem member
    have before : j < k := by
      by_contra later
      rcases Nat.lt_or_ge k j with above | same
      · exact absurd (increasing k j inside small above) (by omega)
      · obtain rfl : j = k := by omega
        omega
    exact List.mem_take_iff_getElem.mpr ⟨j, by omega, rfl⟩

/-- The free numbers below a number reserved in the first lap are those
reserved before it. -/
theorem Allocating.freeBelow_reserved (inv : Allocating dev bound s) {k v : Nat}
    (place : (reservedNumbers s)[k]? = some v) (early : v ≤ 2 ^ 23) : freeBelow dev v = k := by
  have inside := (List.getElem?_eq_some_iff.mp place).1
  have increasing : (reservedNumbers s).Pairwise (· < ·) := inv.increasing
  have top : v ≤ s.block.toNat := by
    rcases List.mem_append.mp (List.mem_of_getElem? place) with old | last
    · exact (inv.below old).le
    · exact (List.mem_singleton.mp last).le
  have same : ∀ x, x ∈ (List.range v).filter (fun x => decide (0 < x) && dev.free x) ↔
      x ∈ (reservedNumbers s).take k := by
    intro x
    rw [mem_take_increasing increasing place, List.mem_filter, List.mem_range,
      Bool.and_eq_true, decide_eq_true_eq]
    constructor
    · rintro ⟨below, above, free⟩
      exact ⟨List.mem_append_left _ (inv.covered x above (by omega) (by omega) free), below⟩
    · rintro ⟨member, below⟩
      rcases List.mem_append.mp member with old | last
      · have := inv.written x old
        exact ⟨below, this.1, this.2.2⟩
      · rw [List.mem_singleton] at last
        omega
  have perm := (List.perm_ext_iff_of_nodup (List.nodup_range.filter _)
    ((increasing.imp Nat.ne_of_lt).sublist (List.take_sublist k _))).mpr same
  rw [freeBelow, List.countP_eq_length_filter, perm.length_eq, List.length_take]
  omega

private theorem Allocating.reserved_count (inv : Allocating dev bound s) {v : Nat}
    (above : s.block.toNat < v) (early : v ≤ 2 ^ 23) : s.writes.length + 1 ≤ freeBelow dev v := by
  have free : dev.free s.block.toNat = true := by
    rcases inv.reserved with ⟨-, free⟩ | ⟨g, member, round, -⟩
    · exact free
    · have := inv.written g member
      omega
  have inside : reservedNumbers s ⊆
      (List.range v).filter (fun x => decide (0 < x) && dev.free x) := by
    intro x member
    rw [List.mem_filter, List.mem_range, Bool.and_eq_true, decide_eq_true_eq]
    rcases List.mem_append.mp member with old | last
    · have := inv.written x old
      have := inv.below old
      exact ⟨by omega, by omega, (inv.written x old).2.2⟩
    · rw [List.mem_singleton] at last
      exact ⟨by omega, by have := inv.positive; omega, last ▸ free⟩
  have count := (List.subperm_of_subset (inv.increasing.imp Nat.ne_of_lt) inside).length_le
  rw [freeBelow, List.countP_eq_length_filter]
  simpa [reservedNumbers, numbers] using count

/-- What is free beyond the last number reserved has not been written. -/
theorem Allocating.free_ahead (inv : Allocating dev bound s) {x : Nat}
    (above : s.block.toNat < x) (early : x ≤ 2 ^ 23) (free : dev.free x = true) :
    s.dev.free x = true := by
  refine inv.free_iff.mpr ⟨free, fun a member => ?_⟩
  have := inv.below member
  have := inv.written a member
  omega

/-- A number reserved in the first lap is a candidate. -/
theorem Allocating.candidate (inv : Allocating dev bound s) {v : Nat}
    (member : v ∈ reservedNumbers s) (early : v ≤ 2 ^ 23) : Candidate dev bound v := by
  have top : v ≤ s.block.toNat := by
    rcases List.mem_append.mp member with old | last
    · exact (inv.below old).le
    · exact (List.mem_singleton.mp last).le
  have before : ∀ x, 0 < x → bound ≤ x → x < v → dev.free x = true := fun x above late less =>
    (inv.written x (inv.reached x above late (by omega))).2.2
  rcases List.mem_append.mp member with old | last
  · obtain ⟨positive, -, free⟩ := inv.written v old
    exact ⟨positive, early, free, before⟩
  · rw [List.mem_singleton] at last
    subst last
    rcases inv.reserved with ⟨-, free⟩ | ⟨g, old, round, -⟩
    · exact ⟨inv.positive, early, free, before⟩
    · have := inv.written g old
      omega

end

section
variable {dev : Disk} {rdb : Block} {beyond slb : Nat → Word} {n : Nat} {out : Installed}
  {first : Word} {s : Progress}

/-- The numbers stored are the first ones reserved, as many as the chunks need. -/
theorem Final.mem_stored (final : Final dev rdb beyond slb n out first s) (number : Word) :
    number ∈ out.stored ↔ ∃ k < max 1 (chunks n), s.reserved[k]? = some number := by
  have stored : out.stored = first :: (s.writes.map fun w => w.2 bcbNext).filter (· != idFree) := by
    rw [final.result]
    simp [Installed.stored, Progress.finish, rdbWithHead]
  have linked : ∀ k w, s.writes[k]? = some w → ∃ next, s.reserved[k + 1]? = some next ∧
      next ≠ idFree ∧ w.2 bcbNext = if chunks n ≤ k + 1 then idFree else next := by
    intro k w place
    have inside := (List.getElem?_eq_some_iff.mp place).1
    have short : k + 1 < s.reserved.length := by
      rw [s.reserved_length]
      omega
    have after := List.getElem?_eq_getElem short
    refine ⟨_, after, ?_, ?_⟩
    · intro free
      have member : idFree.toNat ∈ reservedNumbers s := by
        rw [reservedNumbers_eq, ← free]
        exact List.mem_map_of_mem (List.getElem_mem short)
      have top := final.allocating.small
      rcases List.mem_append.mp member with old | last
      · have := final.allocating.below old
        exact absurd (Nat.lt_trans this top) (by decide)
      · rw [← List.mem_singleton.mp last] at top
        exact absurd top (by decide)
    · rw [(final.filling.chunks k w _ place after).link]
      have same : n ≤ 123 * (k + 1) ↔ chunks n ≤ k + 1 := by rw [chunks]; omega
      simp only [same]
  have count : s.writes.length ≤ chunks n := by
    rcases final.ended with ⟨-, count⟩ | ⟨-, count, -⟩ <;> omega
  rw [stored, List.mem_cons, List.mem_filter, bne_iff_ne]
  constructor
  · rintro (rfl | ⟨member, used⟩)
    · exact ⟨0, by omega, final.head⟩
    · obtain ⟨w, written, rfl⟩ := List.mem_map.mp member
      obtain ⟨k, place⟩ := List.getElem?_of_mem written
      obtain ⟨next, after, -, link⟩ := linked k w place
      rw [link] at used ⊢
      split at used
      · exact absurd rfl used
      · rename_i more
        rw [if_neg more]
        exact ⟨k + 1, by omega, after⟩
  · rintro ⟨k, small, place⟩
    cases k with
    | zero => exact .inl (Option.some.inj (place.symm.trans final.head))
    | succ k =>
      have written := Progress.reserved_before place
      obtain ⟨next, after, used, link⟩ := linked k _ (List.getElem?_eq_getElem written)
      obtain rfl : next = number := Option.some.inj (after.symm.trans place)
      refine .inr ⟨List.mem_map.mpr ⟨_, List.getElem_mem written, ?_⟩, used⟩
      rw [link, if_neg (by omega)]

/-- A search that fails has come to the bound before it came to `y`, and passed
nothing free. -/
theorem Found.short {d : Disk} {bound fp x y : Nat} (found : Found d bound fp x)
    (unusable : d.free x = true → 2 ^ 31 ≤ x) (small : y < 2 ^ 31) (ahead : fp < y)
    (free : d.free y = true) : bound ≤ x ∧ x < y := by
  rcases Nat.lt_trichotomy x y with before | rfl | passed
  · refine ⟨found.stopped.resolve_left fun taken => ?_, before⟩
    have := unusable taken
    omega
  · have := unusable free
    omega
  · rw [(found.passed y ahead passed).1] at free
    cases free

/-- A run that stops early has reserved every candidate. -/
theorem Final.failed_top (final : Final dev rdb beyond slb n out first s)
    (failed : s.writes.length < chunks n) {v : Nat} (candidate : Candidate dev (nblocks rdb).toNat v) :
    v ≤ s.block.toNat := by
  have inv := final.allocating
  have early := candidate.firstLap
  rcases final.ended with ⟨-, written⟩ | ⟨-, -, x, found, unusable⟩
  · omega
  · by_contra above
    obtain ⟨late, before⟩ := found.short unusable (y := v) (by omega) (by omega)
      (inv.free_ahead (by omega) early candidate.free)
    have ahead := found.ahead
    have free := candidate.open_ x (by omega) late before
    have := unusable (inv.free_ahead ahead (by omega) free)
    omega

/-- Every candidate the boot code can come to is reserved. -/
theorem Final.candidate_reserved (final : Final dev rdb beyond slb n out first s) {v : Nat}
    (candidate : Candidate dev (nblocks rdb).toNat v) (needed : freeBelow dev v ≤ chunks n) :
    (reservedNumbers s)[freeBelow dev v]? = some v := by
  have inv := final.allocating
  have early := candidate.firstLap
  have top : v ≤ s.block.toNat := by
    by_contra above
    have count := inv.reserved_count (by omega) early
    have := final.failed_top (by omega) candidate
    omega
  have member : v ∈ reservedNumbers s := by
    rcases Nat.lt_or_ge v s.block.toNat with below | last
    · exact List.mem_append_left _ (inv.covered v candidate.positive early below candidate.free)
    · exact List.mem_append_right _ (List.mem_singleton.mpr (Nat.le_antisymm top last))
  obtain ⟨k, place⟩ := List.getElem?_of_mem member
  rw [inv.freeBelow_reserved place early]
  exact place

/-- A run that stops early cannot have the bound a whole lap ahead. -/
theorem Final.failed_lap (final : Final dev rdb beyond slb n out first s)
    (failed : s.writes.length < chunks n) (early : s.block.toNat ≤ 2 ^ 23)
    (lap : s.block.toNat + 2 ^ 23 ≤ (nblocks rdb).toNat) : False := by
  have inv := final.allocating
  rcases final.ended with ⟨-, written⟩ | ⟨-, -, x, found, unusable⟩
  · omega
  · have free : dev.free s.block.toNat = true := by
      rcases inv.reserved with ⟨-, free⟩ | ⟨g, member, round, -⟩
      · exact free
      · have := inv.written g member
        omega
    -- one lap on, the search finds the block it has reserved
    have again : s.dev.free (s.block.toNat + 2 ^ 23) = true := by
      rw [free_congr (y := s.block.toNat) (by omega)]
      exact inv.reserved_free early free
    have := found.short unusable (y := s.block.toNat + 2 ^ 23) (by omega) (by omega) again
    omega

/-- Block `2 ^ 23` is written only where the search comes round to it again. -/
theorem Allocating.last_position (inv : Allocating dev (nblocks rdb).toNat s)
    (member : 2 ^ 23 ∈ numbers s.writes) : 2 ^ 24 ≤ (nblocks rdb).toNat := by
  have below := inv.below member
  rcases inv.reserved with ⟨early, -⟩ | ⟨g, written, round, bounded, greatest⟩
  · omega
  · have := greatest _ member
    omega

private theorem Final.last_position_written (final : Final dev rdb beyond slb n out first s)
    (long : 2 ^ 24 ≤ (nblocks rdb).toNat) (free : dev.free (2 ^ 23) = true)
    (needed : freeBelow dev (2 ^ 23) < chunks n) : 2 ^ 23 ∈ numbers s.writes := by
  have candidate : Candidate dev (nblocks rdb).toNat (2 ^ 23) :=
    ⟨by omega, Nat.le_refl _, free, fun x _ late below => by omega⟩
  have place := final.candidate_reserved candidate (by omega)
  rcases List.mem_append.mp (List.mem_of_getElem? place) with written | last
  · exact written
  · rw [List.mem_singleton] at last
    have count : (reservedNumbers s)[s.writes.length]? = some (2 ^ 23) := by
      rw [reservedNumbers, last, show s.writes.length = (numbers s.writes).length by simp [numbers],
        List.getElem?_concat_length]
    rw [final.allocating.freeBelow_reserved count (Nat.le_refl _)] at needed
    exact (final.failed_lap needed (by omega) (by omega)).elim

private theorem nblocks_ordered (ordered : (rdb rdbBlocksLo).toNat ≤ (rdb rdbBlocksHi).toNat) :
    (nblocks rdb).toNat = (rdb rdbBlocksHi).toNat - (rdb rdbBlocksLo).toNat := by
  have := (rdb rdbBlocksHi).isLt
  rw [nblocks, BitVec.toNat_sub]
  omega

/-- Distinct free positions of the range are counted in it. -/
theorem freeCount_positions {lo hi : Nat} {positions : List Nat} (once : positions.Nodup)
    (inside : ∀ p ∈ positions, lo ≤ p ∧ p ≤ hi ∧ isFree (dev p) = true) :
    positions.length ≤ freeCount dev lo hi := by
  rw [freeCount, List.countP_eq_length_filter]
  refine (List.subperm_of_subset once fun p member => ?_).length_le
  obtain ⟨low, high, free⟩ := inside p member
  rw [List.mem_filter, List.mem_range, Bool.and_eq_true, decide_eq_true_eq]
  exact ⟨by omega, low, free⟩

/-- A run keeps to the range exactly where the range suffices. -/
theorem Final.stays_inside_iff (final : Final dev rdb beyond slb n out first s)
    (ordered : (rdb rdbBlocksLo).toNat ≤ (rdb rdbBlocksHi).toNat) :
    StaysInside dev (rdb rdbBlocksLo).toNat (rdb rdbBlocksHi).toNat n out ↔
      RangeSuffices dev (rdb rdbBlocksLo).toNat (rdb rdbBlocksHi).toNat n := by
  have inv := final.allocating
  have bound := nblocks_ordered ordered
  have writes : out.writes = s.writes := by rw [final.result]; rfl
  have count : s.writes.length ≤ chunks n := by
    rcases final.ended with ⟨-, count⟩ | ⟨-, count, -⟩ <;> omega
  have storedNumber : ∀ {k v : Nat}, (reservedNumbers s)[k]? = some v → k < max 1 (chunks n) →
      ∃ number ∈ out.stored, number.toNat = v := by
    intro k v place small
    rw [reservedNumbers_eq, List.getElem?_map, Option.map_eq_some_iff] at place
    obtain ⟨number, place, same⟩ := place
    exact ⟨number, (final.mem_stored number).mpr ⟨k, small, place⟩, same⟩
  constructor
  · intro stays
    constructor
    · rintro v candidate needed
      rw [← bound] at candidate
      obtain ⟨number, member, rfl⟩ := storedNumber
        (final.candidate_reserved candidate (by omega)) needed
      exact stays.stored number member
    · rintro ⟨positive, long, free, needed⟩
      rw [← bound] at long
      obtain ⟨w, member, same⟩ := List.mem_map.mp (final.last_position_written long free needed)
      have low := (stays.written w (writes ▸ member)).1
      rw [seek_eq, same] at low
      omega
  · rintro ⟨candidates, wraps⟩
    rw [← bound] at candidates wraps
    have early : ∀ {k v : Nat}, (reservedNumbers s)[k]? = some v → v ≤ 2 ^ 23 →
        k < max 1 (chunks n) → (rdb rdbBlocksLo).toNat ≤ v ∧ v ≤ (rdb rdbBlocksHi).toNat := by
      intro k v place first small
      refine candidates v (inv.candidate (List.mem_of_getElem? place) first) ?_
      rwa [inv.freeBelow_reserved place first]
    have written : ∀ w ∈ s.writes, (rdb rdbBlocksLo).toNat ≤ seek w.1 ∧
        seek w.1 ≤ (rdb rdbBlocksHi).toNat := by
      intro w member
      obtain ⟨k, place⟩ := List.getElem?_of_mem member
      have inside := (List.getElem?_eq_some_iff.mp place).1
      have number : (reservedNumbers s)[k]? = some w.1.toNat := by
        rw [reservedNumbers, List.getElem?_append_left (by simpa [numbers] using inside), numbers,
          List.getElem?_map, place]
        rfl
      have mine := inv.freeWrites.first w member
      have range := early number mine.2 (by omega)
      rw [seek_eq]
      rcases Nat.lt_or_eq_of_le mine.2 with small | last
      · rw [Nat.mod_eq_of_lt small]
        exact range
      · have free := inv.freeWrites.free w member
        have long := inv.last_position (List.mem_map.mpr ⟨w, member, last⟩)
        have low : (rdb rdbBlocksLo).toNat = 0 := by
          by_contra positive
          refine wraps ⟨by omega, long, last ▸ free, ?_⟩
          rw [last] at number
          rw [inv.freeBelow_reserved number (Nat.le_refl _)]
          omega
        rw [last, low]
        omega
    refine ⟨fun w member => written w (writes ▸ member), fun number member => ?_, fun few => ?_⟩
    · obtain ⟨k, small, place⟩ := (final.mem_stored number).mp member
      have numbered : (reservedNumbers s)[k]? = some number.toNat := by
        rw [reservedNumbers_eq, List.getElem?_map, place]
        rfl
      rcases Nat.lt_or_ge (2 ^ 23) number.toNat with late | first
      -- a number of the second lap is below the bound and above one of the first
      · rcases List.mem_append.mp (List.mem_of_getElem? numbered) with old | last
        · have := inv.written _ old
          omega
        · rw [List.mem_singleton] at last
          rcases inv.reserved with ⟨early, -⟩ | ⟨g, old, round, bounded, -⟩
          · omega
          · obtain ⟨w, member, rfl⟩ := List.mem_map.mp old
            have low := (written w member).1
            rw [seek_eq] at low
            have := Nat.mod_le w.1.toNat (2 ^ 23)
            omega
      · exact early numbered first small
    · rcases final.ended with ⟨complete, all⟩ | ⟨failed, -⟩
      · have inside : ∀ p ∈ s.writes.map (fun w => seek w.1), (rdb rdbBlocksLo).toNat ≤ p ∧
            p ≤ (rdb rdbBlocksHi).toNat ∧ isFree (dev p) = true := by
          intro p member
          obtain ⟨w, wrote, rfl⟩ := List.mem_map.mp member
          rw [free_seek]
          exact ⟨(written w wrote).1, (written w wrote).2, inv.freeWrites.free w wrote⟩
        have enough := freeCount_positions inv.freeWrites.positions inside
        rw [List.length_map] at enough
        omega
      · exact failed

/-- The `k`-th number the search yields, counted from zero: the `k`-th candidate,
or the last one again a lap later where the bound lies beyond it. -/
def Reserved (dev : Disk) (bound k number : Nat) : Prop :=
  Candidate dev bound number ∧ freeBelow dev number = k ∨
    ∃ g, Candidate dev bound g ∧ freeBelow dev g + 1 = k ∧ number = g + 2 ^ 23 ∧ number ≤ bound ∧
      ∀ x, g < x → x ≤ 2 ^ 23 → dev.free x = false

private theorem Allocating.last_place {bound : Nat} (inv : Allocating dev bound s) {k : Nat}
    (place : (reservedNumbers s)[k]? = some s.block.toNat) : k = s.writes.length := by
  have inside := (List.getElem?_eq_some_iff.mp place).1
  have once : (reservedNumbers s).Nodup := inv.increasing.imp Nat.ne_of_lt
  have last : (reservedNumbers s)[s.writes.length]? = some s.block.toNat := by
    simp [reservedNumbers, numbers]
  exact (List.getElem?_inj inside once).mp (place.trans last.symm)

theorem Allocating.greatest_place {bound : Nat} (inv : Allocating dev bound s) {g j : Nat}
    (greatest : ∀ a ∈ numbers s.writes, a ≤ g) (place : (numbers s.writes)[j]? = some g) :
    j + 1 = s.writes.length := by
  obtain ⟨inside, rfl⟩ := List.getElem?_eq_some_iff.mp place
  have length : (numbers s.writes).length = s.writes.length := by simp [numbers]
  by_contra early
  have more : j + 1 < (numbers s.writes).length := by omega
  have order := List.pairwise_iff_getElem.mp (List.pairwise_append.mp inv.increasing).1
  have above := order j (j + 1) inside more (by omega)
  have := greatest _ (List.getElem_mem more)
  omega

/-- What has been reserved is what the search yields, in its order. -/
theorem Allocating.reserved_at {bound : Nat} (inv : Allocating dev bound s) {k v : Nat}
    (place : (reservedNumbers s)[k]? = some v) : Reserved dev bound k v := by
  have member := List.mem_of_getElem? place
  rcases Nat.lt_or_ge (2 ^ 23) v with late | early
  · rcases List.mem_append.mp member with old | last
    · have := inv.written v old
      omega
    rw [List.mem_singleton] at last
    subst last
    rcases inv.reserved with ⟨early, -⟩ | ⟨g, old, round, bounded, greatest⟩
    · omega
    have first := (inv.written g old).2.1
    obtain ⟨j, before⟩ := List.getElem?_of_mem old
    have reservedG : (reservedNumbers s)[j]? = some g := by
      rw [reservedNumbers, List.getElem?_append_left (List.getElem?_eq_some_iff.mp before).1, before]
    refine .inr ⟨g, inv.candidate (List.mem_append_left _ old) first, ?_, round, bounded, ?_⟩
    · rw [inv.freeBelow_reserved reservedG first, inv.greatest_place greatest before,
        inv.last_place place]
    · intro x above early
      by_contra free
      have := greatest x (inv.covered x (by omega) early (by omega) ((Bool.not_eq_false _).mp free))
      omega
  · exact .inl ⟨inv.candidate member early, inv.freeBelow_reserved place early⟩

/-- A finished run has reserved what the search yields, up to the number after
the last chunk. -/
theorem Final.reserved_iff (final : Final dev rdb beyond slb n out first s) {k v : Nat}
    (needed : k ≤ chunks n) :
    (reservedNumbers s)[k]? = some v ↔ Reserved dev (nblocks rdb).toNat k v := by
  have inv := final.allocating
  refine ⟨inv.reserved_at, ?_⟩
  rintro (⟨candidate, rfl⟩ | ⟨g, candidate, rfl, rfl, bounded, none⟩)
  · exact final.candidate_reserved candidate needed
  · have place := final.candidate_reserved candidate (by omega)
    have inside := (List.getElem?_eq_some_iff.mp place).1
    have length : (reservedNumbers s).length = s.writes.length + 1 := by
      simp [reservedNumbers, numbers]
    have early := candidate.firstLap
    have more : freeBelow dev g < s.writes.length := by
      by_contra last
      have here : freeBelow dev g = s.writes.length := by omega
      have same : s.block.toNat = g := by
        rw [here, reservedNumbers, show s.writes.length = (numbers s.writes).length by
          simp [numbers], List.getElem?_concat_length] at place
        exact Option.some.inj place
      exact final.failed_lap (by omega) (by omega) (by omega)
    have follows : freeBelow dev g + 1 < (reservedNumbers s).length := by omega
    have next := List.getElem?_eq_getElem follows
    have increasing : (reservedNumbers s).Pairwise (· < ·) := inv.increasing
    have above := List.pairwise_iff_getElem.mp increasing _ _ inside follows (Nat.lt_succ_self _)
    rw [(List.getElem?_eq_some_iff.mp place).2] at above
    rw [next, Option.some.injEq]
    rcases inv.reserved_at next with ⟨other, rank⟩ | ⟨g', other, rank, round, -, -⟩
    · have taken := none _ above other.firstLap
      rw [other.free] at taken
      cases taken
    · have again := final.candidate_reserved other (by omega)
      obtain rfl : g' = g := by
        rw [Nat.succ.inj rank] at again
        exact Option.some.inj (again.symm.trans place)
      exact round

/-- A run is complete exactly where the search yields a number after the last chunk. -/
theorem Final.complete_iff (final : Final dev rdb beyond slb n out first s) :
    out.complete = true ↔ ∃ v, Reserved dev (nblocks rdb).toNat (chunks n) v := by
  have length : (reservedNumbers s).length = s.writes.length + 1 := by
    simp [reservedNumbers, numbers]
  constructor
  · intro complete
    rcases final.ended with ⟨-, all⟩ | ⟨failed, -⟩
    · have last : chunks n < (reservedNumbers s).length := by omega
      exact ⟨_, final.allocating.reserved_at (List.getElem?_eq_getElem last)⟩
    · rw [complete] at failed
      cases failed
  · rintro ⟨v, reserved⟩
    have place := (final.reserved_iff (Nat.le_refl _)).mpr reserved
    have inside := (List.getElem?_eq_some_iff.mp place).1
    rcases final.ended with ⟨complete, -⟩ | ⟨-, short, -⟩
    · exact complete
    · omega

end

/-- Where the numbers up to one not below the bound are taken, nothing can be found. -/
theorem no_candidate {dev : Disk} {bound x : Nat} (above : 0 < x) (late : bound ≤ x)
    (taken : ∀ y, 0 < y → y ≤ x → dev.free y = false) (number : Nat) :
    ¬ Candidate dev bound number := by
  intro candidate
  have free := candidate.free
  rcases Nat.lt_or_ge x number with passed | before
  · have opened := candidate.open_ x above late passed
    rw [taken x above (Nat.le_refl x)] at opened
    cases opened
  · rw [taken number candidate.positive before] at free
    cases free

/-- `install_slb` uses only blocks of the reserved range, and reports failure
where they do not suffice, exactly where the blocks its search can come to lie
in the range as far as the boot code needs them. -/
theorem install_stays_inside_iff {beyond : Nat → Word} {scratch : Block} {dev : Disk} {rdb : Block}
    {slb : Nat → Word} {slbSize : Word} {fuel : Nat} {out : Installed}
    (ordered : (rdb rdbBlocksLo).toNat ≤ (rdb rdbBlocksHi).toNat)
    (runs : installSlb beyond scratch dev rdb slb slbSize fuel = some out) :
    StaysInside dev (rdb rdbBlocksLo).toNat (rdb rdbBlocksHi).toNat slbSize.toNat out ↔
      RangeSuffices dev (rdb rdbBlocksLo).toNat (rdb rdbBlocksHi).toNat slbSize.toNat := by
  rcases installSlb_final runs with ⟨rfl, x, above, late, taken⟩ | ⟨first, s, final⟩
  · have bound := nblocks_ordered ordered
    refine ⟨fun _ => ⟨fun number candidate _ => ?_, ?_⟩, fun _ => ⟨?_, ?_, fun _ => rfl⟩⟩
    · rw [← bound] at candidate
      exact absurd candidate (no_candidate above late taken number)
    · rintro ⟨-, long, free, -⟩
      rw [taken _ (by omega) (by omega)] at free
      cases free
    · simp [Installed.noBlock]
    · simp [Installed.noBlock, Installed.stored]
  · exact final.stays_inside_iff ordered

theorem gappedRun_stays_inside_iff :
    StaysInside gappedDisk 0 10 130 (gappedRun.get gappedRun_returns) ↔
      RangeSuffices gappedDisk 0 10 130 :=
  install_stays_inside_iff
    (show (tenBlockRdb rdbBlocksLo).toNat ≤ (tenBlockRdb rdbBlocksHi).toNat by decide)
    (Option.some_get gappedRun_returns).symm

/-- A disk with the RDB in block 0 and nothing that is not free behind it. -/
def emptyDisk : Disk := fun position =>
  if position = 0 then fun i => if i = amigaId then idRigidDisk else 0 else fun _ => 0

/-- The reserved range is blocks 0 and 1. -/
def twoBlockRdb : Block := fun i => if i = rdbBlocksHi then 1 else 0

def spillingRun : Option Installed :=
  installSlb (fun _ => 0) (fun _ => 0) emptyDisk twoBlockRdb (fun _ => 0) 124 3

private theorem spillingRun_returns : spillingRun.isSome := by decide

/-- Two chunks do not fit into block 1; the second one goes to block 2. -/
theorem spillingRun_leaves_range :
    (∃ w ∈ (spillingRun.get spillingRun_returns).writes, seek w.1 = 2) ∧
      ¬ StaysInside emptyDisk (twoBlockRdb rdbBlocksLo).toNat (twoBlockRdb rdbBlocksHi).toNat 124
        (spillingRun.get spillingRun_returns) := by
  have spills : ∃ w ∈ (spillingRun.get spillingRun_returns).writes, seek w.1 = 2 := by
    decide
  refine ⟨spills, fun stays => ?_⟩
  obtain ⟨w, member, same⟩ := spills
  have high := (stays.written w member).2
  rw [same] at high
  exact absurd high (by decide)

end Parthenope.Install
