import Mathlib.Data.BitVec
import Parthenope.Install
import Parthenope.WriteLog

/-! Which blocks the installer takes. The search reads the disk the loop is
writing, one block ahead of it, and numbers that differ by `2 ^ 23` have one
position; the invariant `Allocating` says which numbers have been taken when a turn
starts, whatever the disk holds and whatever the bound is. -/
namespace Parthenope.Install
open Function WriteLog

theorem seek_eq (block : Word) : seek block = block.toNat % 2 ^ 23 := by
  have product : (block * 512).toNat = block.toNat * 512 % 2 ^ 32 := BitVec.toNat_mul ..
  simp only [seek, product]
  omega

/-- Whether the block of this number is free. -/
def Disk.free (dev : Disk) (number : Nat) : Bool := isFree (dev (number % 2 ^ 23))

theorem free_seek (dev : Disk) (block : Word) : isFree (dev (seek block)) = dev.free block.toNat := by
  rw [seek_eq, Disk.free]

/-- What the search finds from `fp` on: the first number that is free or not
below the bound. -/
structure Found (dev : Disk) (bound fp found : Nat) : Prop where
  ahead : fp < found
  passed : ∀ y, fp < y → y < found → dev.free y = false ∧ y < bound
  stopped : dev.free found = true ∨ bound ≤ found

private theorem searchFree_found (beyond : Nat → Word) {dev : Disk} {bound fp : Word} (fuel : Nat)
    (room : fp.toNat + 1 < 2 ^ 32) (enough : bound.toNat ≤ fp.toNat + fuel) :
    Found dev bound.toNat fp.toNat (searchFree beyond dev bound (fuel + 1) fp).toNat := by
  induction fuel generalizing fp with
  | zero =>
    have next : (fp + 1).toNat = fp.toNat + 1 := by
      rw [BitVec.toNat_add]; exact Nat.mod_eq_of_lt room
    have last : (searchFree beyond dev bound 1 fp).toNat = fp.toNat + 1 := by
      simp only [searchFree, ite_self, next]
    rw [last]
    exact ⟨by omega, fun y _ _ => by omega, .inr (by omega)⟩
  | succ fuel ih =>
    have next : (fp + 1).toNat = fp.toNat + 1 := by
      rw [BitVec.toNat_add]; exact Nat.mod_eq_of_lt room
    rw [searchFree]
    simp only [readBlock, free_seek, next, BitVec.lt_def, Bool.and_eq_true, Bool.not_eq_true',
      decide_eq_true_eq]
    split
    · rename_i goesOn
      have := bound.isLt
      have found := ih (by rw [next]; omega) (by rw [next]; omega)
      rw [next] at found
      refine ⟨by have := found.ahead; omega, fun y above below => ?_, found.stopped⟩
      rcases Nat.lt_or_ge (fp.toNat + 1) y with later | here
      · exact found.passed y later below
      · obtain rfl : y = fp.toNat + 1 := by omega
        exact goesOn
    · rename_i ends
      rw [next]
      refine ⟨by omega, fun y _ _ => by omega, ?_⟩
      by_cases taken : dev.free (fp.toNat + 1) = true
      · exact .inl taken
      · exact .inr (Nat.le_of_not_lt fun below => ends ⟨by simpa using taken, below⟩)

/-- `next_free_block` reports failure, or the number the search found. -/
theorem nextFreeBlock_cases (beyond : Nat → Word) (dev : Disk) (block : Word) {fp : Word}
    (bound : Word) (room : fp.toNat + 1 < 2 ^ 32) :
    ∃ x, Found dev bound.toNat fp.toNat x ∧
      ((nextFreeBlock beyond dev block fp bound).1 < 0 ∧ (dev.free x = true → 2 ^ 31 ≤ x) ∨
        0 ≤ (nextFreeBlock beyond dev block fp bound).1 ∧ dev.free x = true ∧ x < 2 ^ 31 ∧
          (nextFreeBlock beyond dev block fp bound).2 = (BitVec.ofNat 32 x, BitVec.ofNat 32 x)) := by
  refine ⟨_, searchFree_found beyond bound.toNat room (by omega), ?_⟩
  generalize result : searchFree beyond dev bound (bound.toNat + 1) fp = found
  simp only [nextFreeBlock, result, readBlock, free_seek, BitVec.ofNat_toNat, BitVec.setWidth_eq]
  cases taken : dev.free found.toNat with
  | false => simp
  | true =>
    have signed : found.toInt = if 2 * found.toNat < 2 ^ 32 then (found.toNat : Int)
        else (found.toNat : Int) - (2 ^ 32 : Nat) := BitVec.toInt_eq_toNat_cond found
    have bounded := found.isLt
    split at signed <;> simp only [if_true, true_and, and_true] <;> omega

@[simp] theorem calculateChecksum_apply {beyond : Nat → Word} {blk : Block} {i : Fin 128}
    (other : i ≠ amigaChkSum) : calculateChecksum beyond blk i = blk i :=
  update_of_ne other ..

theorem fillBlock_id (beyond : Nat → Word) (blk : Block) (slb : Nat → Word)
    (slbSize offset next : Word) :
    fillBlock beyond blk slb slbSize offset next amigaId = idBoot := by
  rw [fillBlock, calculateChecksum_apply (by decide), if_neg (by decide)]
  split
  · rw [update_of_ne (by decide), update_of_ne (by decide), update_of_ne (by decide),
      update_of_ne (by decide), update_of_ne (by decide), update_self]
  · rw [update_of_ne (by decide), update_of_ne (by decide), update_of_ne (by decide), update_self]

theorem boot_not_free {blk : Block} (boot : blk amigaId = idBoot) : isFree blk = false := by
  simp [isFree, boot]

/-- The numbers of the blocks written. -/
def numbers (writes : List (Word × Block)) : List Nat := writes.map fun w => w.1.toNat

@[simp] theorem numbers_append (writes : List (Word × Block)) (w : Word × Block) :
    numbers (writes ++ [w]) = numbers writes ++ [w.1.toNat] := List.map_append

/-- After BOOT blocks have been written, the free numbers are those that were
free and have not been written under any of their names. -/
theorem free_replay {dev : Disk} {writes : List (Word × Block)} {x : Nat}
    (boot : ∀ w ∈ writes, w.2 amigaId = idBoot) :
    Disk.free (replay seek writes dev) x = true ↔
      dev.free x = true ∧ ∀ a ∈ numbers writes, a % 2 ^ 23 ≠ x % 2 ^ 23 := by
  simp only [numbers, List.mem_map, forall_exists_index, and_imp, forall_apply_eq_imp_iff₂,
    ← seek_eq]
  by_cases named : ∃ w ∈ writes, seek w.1 = x % 2 ^ 23
  · obtain ⟨w, member, names, holds⟩ := replay_named dev named
    simp only [Disk.free, holds, boot_not_free (boot w member), Bool.false_eq_true, false_iff]
    exact fun free => free.2 w member names
  · simp only [not_exists, not_and] at named
    simp only [Disk.free, replay_other named, iff_self_and]
    exact fun _ => named

/-- What has been allocated when a turn of `install_slb` starts: the numbers
written, and one more that is reserved for the next write. -/
structure Allocating (dev : Disk) (bound : Nat) (s : Progress) : Prop where
  pointer : s.freePointer = s.block
  replayed : s.dev = replay seek s.writes dev
  boot : ∀ w ∈ s.writes, w.2 amigaId = idBoot
  small : s.block.toNat < 2 ^ 31
  positive : 0 < s.block.toNat
  increasing : (numbers s.writes ++ [s.block.toNat]).Pairwise (· < ·)
  written : ∀ a ∈ numbers s.writes, 0 < a ∧ a ≤ 2 ^ 23 ∧ dev.free a = true
  /-- Nothing free was passed over. -/
  covered : ∀ x, 0 < x → x ≤ 2 ^ 23 → x < s.block.toNat → dev.free x = true → x ∈ numbers s.writes
  /-- The bound stops the search unless every number from it on was taken. -/
  reached : ∀ x, 0 < x → bound ≤ x → x < s.block.toNat → x ∈ numbers s.writes
  /-- Past the last position the search can only find the last block written. -/
  reserved : s.block.toNat ≤ 2 ^ 23 ∧ dev.free s.block.toNat = true ∨
    ∃ g ∈ numbers s.writes, s.block.toNat = g + 2 ^ 23 ∧ s.block.toNat ≤ bound ∧
      ∀ a ∈ numbers s.writes, a ≤ g

/-- A turn that goes on writes the reserved block and reserves what it found. -/
theorem installTurn_next {beyond : Nat → Word} {rdb : Block} {slb : Nat → Word} {slbSize : Word}
    {s t : Progress} (room : s.freePointer.toNat + 1 < 2 ^ 32)
    (turns : installTurn beyond rdb slb slbSize s = .inr t) :
    s.offset < slbSize ∧
      ∃ x, Found s.dev (nblocks rdb).toNat s.freePointer.toNat x ∧ s.dev.free x = true ∧
        x < 2 ^ 31 ∧
        t.blk = fillBlock beyond s.blk slb slbSize s.offset t.block ∧
        t.block = BitVec.ofNat 32 x ∧ t.freePointer = BitVec.ofNat 32 x ∧
        t.offset = s.offset + 123 ∧ t.dev = writeBlock s.dev t.blk s.block ∧
        t.writes = s.writes ++ [(s.block, t.blk)] := by
  rw [installTurn] at turns
  split at turns
  · rename_i more
    obtain ⟨x, found, failed | ⟨succeeded, free, small, reported⟩⟩ :=
      nextFreeBlock_cases beyond s.dev s.block (nblocks rdb) room
    · simp [failed.1] at turns
    · simp only [reported, if_neg (Int.not_lt.mpr succeeded), Sum.inr.injEq] at turns
      subst turns
      exact ⟨more, x, found, free, small, rfl, rfl, rfl, rfl, rfl, rfl⟩
  · cases turns

/-- The loop ends when all words are written, or when the search fails. -/
theorem installTurn_ends {beyond : Nat → Word} {rdb : Block} {slb : Nat → Word} {slbSize : Word}
    {s : Progress} {out : Installed} (room : s.freePointer.toNat + 1 < 2 ^ 32)
    (ends : installTurn beyond rdb slb slbSize s = .inl out) :
    out = s.finish rdb true ∧ ¬ s.offset < slbSize ∨
      out = s.finish rdb false ∧ s.offset < slbSize ∧
        ∃ x, Found s.dev (nblocks rdb).toNat s.freePointer.toNat x ∧
          (s.dev.free x = true → 2 ^ 31 ≤ x) := by
  rw [installTurn] at ends
  split at ends
  · rename_i more
    obtain ⟨x, found, ⟨failed, unusable⟩ | ⟨succeeded, -, -, reported⟩⟩ :=
      nextFreeBlock_cases beyond s.dev s.block (nblocks rdb) room
    · simp only [if_pos failed, Sum.inl.injEq] at ends
      exact .inr ⟨ends.symm, more, x, found, unusable⟩
    · simp [reported, Int.not_lt.mpr succeeded] at ends
  · rename_i done
    exact .inl ⟨(Sum.inl.inj ends).symm, done⟩

theorem free_congr {dev : Disk} {x y : Nat} (same : x % 2 ^ 23 = y % 2 ^ 23) :
    dev.free x = dev.free y := by
  rw [Disk.free, Disk.free, same]

theorem allocating_start {dev : Disk} {bound x : Nat} (blk : Block) (found : Found dev bound 0 x)
    (free : dev.free x = true) (small : x < 2 ^ 31) :
    Allocating dev bound (.start dev blk (BitVec.ofNat 32 x) (BitVec.ofNat 32 x)) := by
  have ahead := found.ahead
  have value : (BitVec.ofNat 32 x).toNat = x := by
    rw [BitVec.toNat_ofNat]; exact Nat.mod_eq_of_lt (by omega)
  -- a number beyond the first lap has the position of one already passed
  have early : x ≤ 2 ^ 23 := by
    apply Nat.le_of_not_lt
    intro late
    have passed := (found.passed (x - 2 ^ 23) (by omega) (by omega)).1
    rw [free_congr (y := x) (by omega), free] at passed
    cases passed
  constructor <;> simp only [Progress.start, value, numbers, List.map_nil, List.nil_append, replay_nil]
  case small => exact small
  case positive => omega
  case increasing => exact List.pairwise_singleton ..
  case reserved => exact .inl ⟨early, free⟩
  case covered =>
    intro y above _ below isFree
    rw [(found.passed y above below).1] at isFree
    cases isFree
  case reached =>
    intro y above beyondBound below
    have := (found.passed y above below).2
    omega
  all_goals simp

section
variable {dev : Disk} {bound : Nat} {s : Progress}

theorem Allocating.below (inv : Allocating dev bound s) {a : Nat} (member : a ∈ numbers s.writes) :
    a < s.block.toNat :=
  (List.pairwise_append.mp inv.increasing).2.2 a member _ List.mem_cons_self

theorem Allocating.free_iff (inv : Allocating dev bound s) {x : Nat} :
    s.dev.free x = true ↔
      dev.free x = true ∧ ∀ a ∈ numbers s.writes, a % 2 ^ 23 ≠ x % 2 ^ 23 := by
  rw [inv.replayed]
  exact free_replay inv.boot

theorem Allocating.reserved_free (inv : Allocating dev bound s) (early : s.block.toNat ≤ 2 ^ 23)
    (free : dev.free s.block.toNat = true) : s.dev.free s.block.toNat = true := by
  refine inv.free_iff.mpr ⟨free, fun a member => ?_⟩
  have := inv.below member
  have := inv.written a member
  omega

/-- Once the search has come round, nothing is free any more. -/
theorem Allocating.exhausted (inv : Allocating dev bound s) (late : 2 ^ 23 < s.block.toNat)
    (x : Nat) : s.dev.free x = false := by
  by_contra free
  obtain ⟨old, unwritten⟩ := inv.free_iff.mp ((Bool.not_eq_false _).mp free)
  -- the number of this position within the first lap
  obtain ⟨y, above, early, same⟩ : ∃ y, 0 < y ∧ y ≤ 2 ^ 23 ∧ y % 2 ^ 23 = x % 2 ^ 23 := by
    by_cases zero : x % 2 ^ 23 = 0
    · exact ⟨2 ^ 23, by omega, by omega, by omega⟩
    · exact ⟨x % 2 ^ 23, by omega, by omega, by omega⟩
  rw [← free_congr same] at old
  exact unwritten y (inv.covered y above early (by omega) old) same

/-- What a turn can find: the next free number of the first lap, or the block
it is about to write, one lap on. -/
theorem Allocating.found_cases (inv : Allocating dev bound s) {x : Nat}
    (found : Found s.dev bound s.block.toNat x) (free : s.dev.free x = true) :
    s.block.toNat ≤ 2 ^ 23 ∧ dev.free s.block.toNat = true ∧
      (x ≤ 2 ^ 23 ∧ dev.free x = true ∨ x = s.block.toNat + 2 ^ 23 ∧ x ≤ bound) := by
  rcases inv.reserved with ⟨early, reserved⟩ | ⟨g, member, late, -⟩
  · refine ⟨early, reserved, ?_⟩
    have ahead := found.ahead
    obtain ⟨old, unwritten⟩ := inv.free_iff.mp free
    rcases Nat.lt_or_ge (2 ^ 23) x with past | first
    · have again := inv.reserved_free early reserved
      rw [free_congr (y := s.block.toNat + 2 ^ 23) (by omega)] at again
      have round : x ≤ s.block.toNat + 2 ^ 23 := by
        apply Nat.le_of_not_lt
        intro beyond
        rw [(found.passed _ (by omega) beyond).1] at again
        cases again
      have same : (x - 2 ^ 23) % 2 ^ 23 = x % 2 ^ 23 := by omega
      have whole : x = s.block.toNat + 2 ^ 23 := by
        by_contra differs
        rw [← free_congr same] at old
        exact unwritten _ (inv.covered _ (by omega) (by omega) (by omega) old) same
      have := inv.positive
      exact .inr ⟨whole, by have := (found.passed (x - 1) (by omega) (by omega)).2; omega⟩
    · exact .inl ⟨first, old⟩
  · have := inv.written g member
    rw [inv.exhausted (by omega)] at free
    cases free

/-- One turn keeps the allocation invariant. -/
theorem Allocating.turn {beyond : Nat → Word} {rdb : Block} {slb : Nat → Word} {slbSize : Word}
    {t : Progress} (inv : Allocating dev (nblocks rdb).toNat s)
    (turns : installTurn beyond rdb slb slbSize s = .inr t) :
    Allocating dev (nblocks rdb).toNat t := by
  have room : s.freePointer.toNat + 1 < 2 ^ 32 := by have := inv.small; rw [inv.pointer]; omega
  obtain ⟨-, x, found, free, small, blk, block, pointer, -, written, writes⟩ :=
    installTurn_next room turns
  rw [inv.pointer] at found
  obtain ⟨early, reserved, next⟩ := inv.found_cases found free
  have ahead := found.ahead
  have positive := inv.positive
  have value : t.block.toNat = x := by
    rw [block, BitVec.toNat_ofNat]; exact Nat.mod_eq_of_lt (by omega)
  have before : numbers t.writes = numbers s.writes ++ [s.block.toNat] := by
    rw [writes, numbers_append]
  constructor
  case pointer => rw [pointer, block]
  case replayed => rw [written, writes, replay_append, inv.replayed]; rfl
  case boot =>
    intro w member
    rw [writes, List.mem_append, List.mem_singleton] at member
    rcases member with old | rfl
    · exact inv.boot w old
    · simpa only [blk] using fillBlock_id ..
  case small => omega
  case positive => omega
  case increasing =>
    rw [before, value, List.pairwise_append]
    refine ⟨inv.increasing, List.pairwise_singleton .., fun a member b last => ?_⟩
    rw [List.mem_singleton] at last
    rcases List.mem_append.mp member with old | reservedNow
    · have := inv.below old
      omega
    · rw [List.mem_singleton] at reservedNow
      omega
  case written =>
    intro a member
    rw [before, List.mem_append, List.mem_singleton] at member
    rcases member with old | rfl
    · exact inv.written a old
    · exact ⟨positive, early, reserved⟩
  case covered =>
    intro y above first below isFree
    rw [value] at below
    rw [before, List.mem_append, List.mem_singleton]
    rcases Nat.lt_trichotomy y s.block.toNat with old | same | passed
    · exact .inl (inv.covered y above first old isFree)
    · exact .inr same
    · have taken := (found.passed y passed below).1
      rw [← Bool.not_eq_true, inv.free_iff, not_and] at taken
      simp only [not_forall, not_not] at taken
      obtain ⟨a, member, same⟩ := taken isFree
      have := inv.written a member
      have := inv.below member
      omega
  case reached =>
    intro y above beyondBound below
    rw [value] at below
    rw [before, List.mem_append, List.mem_singleton]
    rcases Nat.lt_trichotomy y s.block.toNat with old | same | passed
    · exact .inl (inv.reached y above beyondBound old)
    · exact .inr same
    · have := (found.passed y passed below).2
      omega
  case reserved =>
    rw [value, before]
    refine next.imp id fun round => ⟨s.block.toNat, by simp, round.1, round.2, fun a member => ?_⟩
    rw [List.mem_append, List.mem_singleton] at member
    rcases member with old | rfl
    · exact (inv.below old).le
    · exact Nat.le_refl _

end

section
variable {beyond : Nat → Word} {scratch : Block} {dev : Disk} {rdb : Block} {slb : Nat → Word}
  {slbSize : Word} {fuel : Nat} {out : Installed}

/-- `rdb` once the number of the first block is in it. -/
def rdbWithHead (rdb : Block) (head : Word) : Block := update rdb rdbBootBlockList head

theorem nblocks_rdbWithHead (rdb : Block) (head : Word) :
    nblocks (rdbWithHead rdb head) = nblocks rdb := by
  rw [nblocks, rdbWithHead, update_of_ne (by decide), update_of_ne (by decide), nblocks]

/-- The two ways `install_slb` goes: nothing is free up to a number not below
the bound, or its loop starts with the first free block reserved. -/
theorem installSlb_cases (beyond : Nat → Word) (scratch : Block) (dev : Disk) (rdb : Block)
    (slb : Nat → Word) (slbSize : Word) :
    (∃ x, 0 < x ∧ (nblocks rdb).toNat ≤ x ∧ (∀ y, 0 < y → y ≤ x → dev.free y = false) ∧
      ∀ fuel, installSlb beyond scratch dev rdb slb slbSize fuel =
        some (.noBlock dev rdb)) ∨
    ∃ first : Word, Allocating dev (nblocks rdb).toNat (.start dev scratch first first) ∧
      ∀ fuel, installSlb beyond scratch dev rdb slb slbSize fuel =
        StepLoop.run (installTurn beyond (rdbWithHead rdb first) slb slbSize) fuel
          (.start dev scratch first first) := by
  obtain ⟨x, found, ⟨failed, unusable⟩ | ⟨succeeded, free, small, reported⟩⟩ :=
    nextFreeBlock_cases beyond dev 0 (nblocks rdb) (show (0 : Word).toNat + 1 < 2 ^ 32 by decide)
  · left
    have taken : dev.free x = false := by
      by_contra free
      rw [Bool.not_eq_false] at free
      have early := unusable free
      have passed := (found.passed (x - 2 ^ 23) (by simp; omega) (by omega)).1
      rw [free_congr (y := x) (by omega), free] at passed
      cases passed
    have ahead := found.ahead
    refine ⟨x, by omega, ?_, fun y above below => ?_, fun fuel => ?_⟩
    · exact found.stopped.resolve_left (by rw [taken]; decide)
    · rcases Nat.lt_or_ge y x with passed | last
      · exact (found.passed y above passed).1
      · rw [Nat.le_antisymm below last, taken]
    · simp only [installSlb, if_pos failed]
  · right
    refine ⟨BitVec.ofNat 32 x, allocating_start scratch found free small, fun fuel => ?_⟩
    simp only [installSlb, reported, if_neg (Int.not_lt.mpr succeeded)]
    rfl

theorem installSlb_mono {more : Nat}
    (runs : installSlb beyond scratch dev rdb slb slbSize fuel = some out) (less : fuel ≤ more) :
    installSlb beyond scratch dev rdb slb slbSize more = some out := by
  rcases installSlb_cases beyond scratch dev rdb slb slbSize with
    ⟨_, _, _, _, stops⟩ | ⟨first, _, loops⟩
  · rw [stops] at runs ⊢
    exact runs
  · rw [loops] at runs ⊢
    exact StepLoop.run_mono runs less

theorem allocating_reaches {s t : Progress} (inv : Allocating dev (nblocks rdb).toNat s)
    (reached : StepLoop.Reaches (installTurn beyond rdb slb slbSize) s t) :
    Allocating dev (nblocks rdb).toNat t :=
  reached.invariant _ (fun _ _ inv turns => inv.turn turns) inv

/-- `install_slb` returns on every disk. -/
theorem installSlb_returns (beyond : Nat → Word) (scratch : Block) (dev : Disk) (rdb : Block)
    (slb : Nat → Word) (slbSize : Word) :
    ∃ fuel out, installSlb beyond scratch dev rdb slb slbSize fuel = some out := by
  rcases installSlb_cases beyond scratch dev rdb slb slbSize with
    ⟨_, _, _, _, stops⟩ | ⟨first, start, loops⟩
  · exact ⟨0, _, stops 0⟩
  · rw [← nblocks_rdbWithHead rdb first] at start
    have ends := StepLoop.run_terminates (installTurn beyond (rdbWithHead rdb first) slb slbSize)
      (Allocating dev (nblocks (rdbWithHead rdb first)).toNat) (fun s => 2 ^ 31 - s.block.toNat)
      (fun _ _ inv turns => Allocating.turn inv turns)
      (fun s t inv turns => by
        have after := inv.turn turns
        have small := after.small
        have room : s.freePointer.toNat + 1 < 2 ^ 32 := by
          have := inv.small
          rw [inv.pointer]
          omega
        obtain ⟨-, -, -, -, -, -, -, -, -, -, writes⟩ := installTurn_next room turns
        have := after.below (a := s.block.toNat) (by rw [writes, numbers_append]; simp)
        omega)
      start (Nat.lt_succ_self _)
    obtain ⟨out, ends⟩ := ends
    exact ⟨_, out, (loops _).trans ends⟩

/-- How a run that reserved a block ends. -/
theorem installSlb_exit (runs : installSlb beyond scratch dev rdb slb slbSize fuel = some out) :
    (out = .noBlock dev rdb ∧
      ∃ x, 0 < x ∧ (nblocks rdb).toNat ≤ x ∧ ∀ y, 0 < y → y ≤ x → dev.free y = false) ∨
    ∃ (first : Word) (s : Progress),
      Allocating dev (nblocks rdb).toNat (.start dev scratch first first) ∧
      StepLoop.Reaches (installTurn beyond (rdbWithHead rdb first) slb slbSize)
        (.start dev scratch first first) s ∧
      Allocating dev (nblocks rdb).toNat s ∧
      installTurn beyond (rdbWithHead rdb first) slb slbSize s = .inl out := by
  rcases installSlb_cases beyond scratch dev rdb slb slbSize with
    ⟨x, above, reached, taken, stops⟩ | ⟨first, start, loops⟩
  · exact .inl ⟨Option.some.inj (runs.symm.trans (stops fuel)), x, above, reached, taken⟩
  · obtain ⟨s, reached, ends⟩ := StepLoop.run_exit ((loops fuel).symm.trans runs)
    rw [← nblocks_rdbWithHead rdb first] at start ⊢
    exact .inr ⟨first, s, start, reached, allocating_reaches start reached, ends⟩

/-- What the invariant says of the writes of a finished run. -/
structure FreeWrites (dev : Disk) (writes : List (Word × Block)) (after : Disk) : Prop where
  free : ∀ w ∈ writes, dev.free w.1.toNat = true
  first : ∀ w ∈ writes, 0 < w.1.toNat ∧ w.1.toNat ≤ 2 ^ 23
  increasing : (numbers writes).Pairwise (· < ·)
  replayed : after = replay seek writes dev

theorem Allocating.freeWrites {bound : Nat} {s : Progress} (inv : Allocating dev bound s) :
    FreeWrites dev s.writes s.dev := by
  have written := fun w member =>
    inv.written w.1.toNat (List.mem_map_of_mem (f := fun w : Word × Block => w.1.toNat)
      (a := w) member)
  exact ⟨fun w member => (written w member).2.2,
    fun w member => ⟨(written w member).1, (written w member).2.1⟩,
    (List.pairwise_append.mp inv.increasing).1, inv.replayed⟩

theorem installSlb_freeWrites (runs : installSlb beyond scratch dev rdb slb slbSize fuel = some out) :
    FreeWrites dev out.writes out.dev := by
  rcases installSlb_exit runs with ⟨rfl, -⟩ | ⟨first, s, -, -, inv, ends⟩
  · exact ⟨by simp [Installed.noBlock], by simp [Installed.noBlock], .nil, rfl⟩
  · have room : s.freePointer.toNat + 1 < 2 ^ 32 := by have := inv.small; rw [inv.pointer]; omega
    rcases installTurn_ends room ends with ⟨rfl, -⟩ | ⟨rfl, -⟩
    · exact inv.freeWrites
    · exact inv.freeWrites

/-- Two numbers of the first lap have different positions. -/
theorem FreeWrites.positions {writes : List (Word × Block)} {after : Disk}
    (safe : FreeWrites dev writes after) : (writes.map fun w => seek w.1).Nodup := by
  have apart := List.pairwise_map.mp safe.increasing
  refine List.pairwise_map.mpr (apart.imp_of_mem ?_)
  intro v w left right less same
  have := safe.first v left
  have := safe.first w right
  rw [seek_eq, seek_eq] at same
  omega

/-- In every run, `install_slb` writes only blocks that were free, in increasing
order from above block 0 and none of them twice, and leaves the rest of the
disk alone. -/
theorem install_writes_free_blocks (beyond : Nat → Word) (scratch : Block) (dev : Disk)
    (rdb : Block) (slb : Nat → Word) (slbSize : Word) :
    (∃ fuel out, installSlb beyond scratch dev rdb slb slbSize fuel = some out) ∧
      ∀ fuel out, installSlb beyond scratch dev rdb slb slbSize fuel = some out →
        (∀ w ∈ out.writes, dev (seek w.1) amigaId ∉
          [idRigidDisk, idBadBlock, idPartition, idFileSysHeader, idLoadSeg, idBoot]) ∧
        (numbers out.writes).Pairwise (· < ·) ∧
        (∀ a ∈ numbers out.writes, 0 < a) ∧
        (∀ w ∈ out.writes, w.1.toNat * 512 < 2 ^ 32 → seek w.1 = w.1.toNat) ∧
        (out.writes.map fun w => seek w.1).Nodup ∧
        out.dev = replay seek out.writes dev ∧
        ∀ position, (∀ w ∈ out.writes, seek w.1 ≠ position) → out.dev position = dev position := by
  refine ⟨installSlb_returns .., fun fuel out runs => ?_⟩
  have safe := installSlb_freeWrites runs
  refine ⟨fun w member => ?_, safe.increasing, fun a member => ?_, fun w _ small => ?_,
    safe.positions, safe.replayed, fun position other => ?_⟩
  · have free := safe.free w member
    rw [← free_seek] at free
    simpa [isFree, and_assoc] using free
  · obtain ⟨w, written, rfl⟩ := List.mem_map.mp member
    exact (safe.first w written).1
  · rw [seek_eq]
    omega
  · rw [safe.replayed, replay_other other]

end

end Parthenope.Install
