import Mathlib.Order.Interval.Finset.Nat
import Mathlib.Tactic.Ring
import Parthenope.InstallAllocation

/-! The chain `install_slb` leaves on the disk, read back from the RDB. Each
block is filled for the words at its turn's offset and linked to the number
reserved for the next one, so the blocks of a complete run spell the boot code. -/
namespace Parthenope.Install
open Function WriteLog

/-- Following `bcb_Next` from `head` visits the valid BOOT blocks listed and
then reads `IDNAME_FREE`. -/
def Chain (beyond : Nat → Word) (dev : Disk) : Word → List Word → Prop
  | head, [] => head = idFree
  | head, block :: rest =>
    head = block ∧ block ≠ idFree ∧ dev (seek block) amigaId = idBoot ∧
      checksum beyond (dev (seek block)) = 0 ∧ Chain beyond dev (dev (seek block) bcbNext) rest

/-- `bcb_LoadData`. -/
def loadData (blk : Block) : List Word := List.ofFn fun j : Fin 123 => blk ⟨5 + j.val, by omega⟩

/-- The part of `bcb_LoadData` that `bcb_SummedLongs` covers. -/
def bootWords (blk : Block) : List Word := (loadData blk).take ((blk amigaSummedLongs).toNat - 5)

private theorem loadData_length (blk : Block) : (loadData blk).length = 123 := List.length_ofFn

/-- Changing one word moves the sum of the words by the difference. -/
theorem sum_changed {f g : Nat → Word} {k : Nat} (same : ∀ i, i ≠ k → g i = f i) (n : Nat) :
    (List.range n).foldl (fun sum i => sum + g i) 0 =
      (List.range n).foldl (fun sum i => sum + f i) 0 + if k < n then g k - f k else 0 := by
  induction n with
  | zero => simp
  | succ n ih =>
    simp only [List.range_succ, List.foldl_append, List.foldl_cons, List.foldl_nil, ih]
    rcases Nat.lt_trichotomy k n with before | rfl | after
    · rw [if_pos before, if_pos (by omega), same n (by omega)]
      ring
    · rw [if_neg (Nat.lt_irrefl k), if_pos (Nat.lt_succ_self k)]
      ring
    · rw [if_neg (by omega), if_neg (by omega), same n (by omega)]
      ring

/-- Another word moves the checksum by the difference where it is summed. -/
theorem checksum_word (beyond : Nat → Word) (blk : Block) (value : Word) {word : Fin 128}
    (other : word ≠ amigaSummedLongs) :
    checksum beyond (update blk word value) =
      checksum beyond blk + if word.val < (summedLongs blk).toNat then value - blk word else 0 := by
  have count : summedLongs (update blk word value) = summedLongs blk := by
    rw [summedLongs, summedLongs, update_of_ne other.symm]
  have same : ∀ i, i ≠ word.val →
      summedWord beyond (update blk word value) i = summedWord beyond blk i := by
    intro i differs
    rw [summedWord, summedWord, count]
    split
    · rename_i inside
      rcases eq_or_ne (⟨i, inside⟩ : Fin 128) amigaSummedLongs with length | plain
      · rw [length, update_self, update_self]
      · rw [update_of_ne plain, update_of_ne plain, update_of_ne]
        exact fun same => differs (congrArg Fin.val same)
    · rfl
  have field : ∀ header : Block, summedWord beyond header word.val = header word := by
    intro header
    rw [summedWord, dif_pos word.isLt, update_of_ne other]
  rw [checksum, count, sum_changed same, field, field, update_self, ← checksum]

theorem checksum_update (beyond : Nat → Word) (blk : Block) (value : Word) :
    checksum beyond (update blk amigaChkSum value) =
      checksum beyond blk + if 2 < (summedLongs blk).toNat then value - blk amigaChkSum else 0 :=
  checksum_word beyond blk value (by decide)

/-- A block whose checksum field is summed, or that sums nothing, checks once
its checksum has been calculated. -/
theorem checksum_calculated {beyond : Nat → Word} {blk : Block}
    (summed : blk amigaSummedLongs = 0 ∨ 2 < (blk amigaSummedLongs).toNat) :
    checksum beyond (calculateChecksum beyond blk) = 0 := by
  rw [calculateChecksum, checksum_update]
  rcases summed with none | some
  · have nothing : summedLongs blk = 0 := by rw [summedLongs, none]; rfl
    rw [checksum, nothing]
    rfl
  · have covered : 2 < (summedLongs blk).toNat := by
      rw [summedLongs]
      split
      · decide
      · exact some
    rw [if_pos covered]
    ring

/-- The `k`-th BOOT block of `n` words of boot code, linked to `next`. -/
structure Chunk (beyond : Nat → Word) (slb : Nat → Word) (n k : Nat) (next : Word) (blk : Block) :
    Prop where
  id : blk amigaId = idBoot
  valid : checksum beyond blk = 0
  host : blk bcbHostId = 0
  link : blk bcbNext = if n ≤ 123 * (k + 1) then idFree else next
  summed : (blk amigaSummedLongs).toNat = 5 + min 123 (n - 123 * k)
  data : ∀ j (inside : 5 + j < 128), blk ⟨5 + j, inside⟩ = slb (123 * k + j)

/-- The chunk a block holds determines it. -/
theorem Chunk.unique {beyond : Nat → Word} {slb : Nat → Word} {n k : Nat} {next : Word}
    {blk blk' : Block} (left : Chunk beyond slb n k next blk)
    (right : Chunk beyond slb n k next blk') : blk = blk' := by
  have summed : blk amigaSummedLongs = blk' amigaSummedLongs :=
    BitVec.eq_of_toNat_eq (left.summed.trans right.summed.symm)
  have apart : ∀ i, i ≠ amigaChkSum → blk i = blk' i := by
    intro i differs
    rcases Nat.lt_or_ge i.val 5 with header | data
    · have places : i = amigaId ∨ i = amigaSummedLongs ∨ i = amigaChkSum ∨ i = bcbHostId ∨
          i = bcbNext := by
        simp only [Fin.ext_iff, amigaId, amigaSummedLongs, amigaChkSum, bcbHostId, bcbNext]
        simp
        omega
      rcases places with rfl | rfl | rfl | rfl | rfl
      · exact left.id.trans right.id.symm
      · exact summed
      · exact absurd rfl differs
      · exact left.host.trans right.host.symm
      · exact left.link.trans right.link.symm
    · have place : i = ⟨5 + (i.val - 5), by omega⟩ := Fin.ext (by simp; omega)
      rw [place]
      exact (left.data _ _).trans (right.data _ _).symm
  have whole : blk' = update blk amigaChkSum (blk' amigaChkSum) := by
    funext i
    rcases eq_or_ne i amigaChkSum with rfl | differs
    · rw [update_self]
    · rw [update_of_ne differs, apart i differs]
  have covered : 2 < (summedLongs blk).toNat := by
    rw [summedLongs]
    split
    · decide
    · have := left.summed
      omega
  have moved := checksum_update beyond blk (blk' amigaChkSum)
  rw [← whole, left.valid, right.valid, if_pos covered, zero_add] at moved
  rw [whole, sub_eq_zero.mp moved.symm, update_eq_self]

section
variable {beyond : Nat → Word} {dev : Disk} {rdb : Block} {slb : Nat → Word} {slbSize : Word}

/-- A turn's block is the chunk at its offset. -/
theorem fillBlock_chunk {blk : Block} {offset next : Word} {k : Nat}
    (place : offset.toNat = 123 * k) (more : offset < slbSize) :
    Chunk beyond slb slbSize.toNat k next (fillBlock beyond blk slb slbSize offset next) := by
  have bounded := slbSize.isLt
  have before : offset.toNat < slbSize.toNat := BitVec.lt_def.mp more
  have left : (slbSize - offset).toNat = slbSize.toNat - 123 * k := by
    rw [BitVec.toNat_sub]
    omega
  have total : (5 + slbSize - offset).toNat = (5 + (slbSize.toNat - 123 * k)) % 2 ^ 32 := by
    rw [BitVec.toNat_sub, BitVec.toNat_add, show (5 : Word).toNat = 5 from rfl]
    omega
  have last : slbSize - offset ≤ 123 ↔ slbSize.toNat ≤ 123 * (k + 1) := by
    rw [BitVec.le_def, left, show (123 : Word).toNat = 123 from rfl]
    omega
  have summed : (fillBlock beyond blk slb slbSize offset next amigaSummedLongs).toNat =
      5 + min 123 (slbSize.toNat - 123 * k) := by
    rw [fillBlock, calculateChecksum_apply (by decide), if_neg (by decide)]
    split
    · rename_i final
      rw [update_of_ne (by decide), update_self, total]
      have := last.mp final
      omega
    · rename_i full
      rw [update_of_ne (by decide), update_of_ne (by decide), update_self,
        show (128 : Word).toNat = 128 from rfl]
      have : ¬ slbSize.toNat ≤ 123 * (k + 1) := fun fits => full (last.mpr fits)
      omega
  constructor
  case id => exact fillBlock_id ..
  case summed => exact summed
  case valid =>
    refine checksum_calculated (.inr ?_)
    rw [fillBlock, calculateChecksum_apply (by decide)] at summed
    omega
  case host =>
    rw [fillBlock, calculateChecksum_apply (by decide), if_neg (by decide)]
    split
    · rw [update_of_ne (by decide), update_of_ne (by decide), update_of_ne (by decide),
        update_self]
    · rw [update_of_ne (by decide), update_self]
  case link =>
    rw [fillBlock, calculateChecksum_apply (by decide), if_neg (by decide)]
    by_cases final : slbSize - offset ≤ 123
    · rw [if_pos final, update_self, if_pos (last.mp final)]
    · rw [if_neg final, update_self, if_neg fun fits => final (last.mpr fits)]
  case data =>
    intro j inside
    rw [fillBlock, calculateChecksum_apply (by simp [amigaChkSum, Fin.ext_iff]; omega), if_pos]
    · rw [place, Nat.add_sub_cancel_left]
    · simp [bcbLoadData, Fin.le_def]

/-- The numbers reserved so far, the one for the next write last. -/
def Progress.reserved (s : Progress) : List Word := s.writes.map (·.1) ++ [s.block]

@[simp] theorem Progress.reserved_length (s : Progress) : s.reserved.length = s.writes.length + 1 := by
  simp [Progress.reserved]

theorem Progress.reserved_before {s : Progress} {k : Nat} {number : Word}
    (place : s.reserved[k + 1]? = some number) : k < s.writes.length := by
  have inside := (List.getElem?_eq_some_iff.mp place).1
  rw [s.reserved_length] at inside
  omega

theorem Progress.reserved_write {s : Progress} {k : Nat} {w : Word × Block}
    (place : s.writes[k]? = some w) : s.reserved[k]? = some w.1 := by
  have inside := (List.getElem?_eq_some_iff.mp place).1
  rw [Progress.reserved, List.getElem?_append_left (by simpa using inside), List.getElem?_map, place]
  rfl

/-- The content invariant of the loop: every block written is the chunk of its
turn, linked to the number reserved after its own. -/
structure Filling (beyond : Nat → Word) (slb : Nat → Word) (n : Nat) (s : Progress) : Prop where
  offset : s.offset.toNat = 123 * s.writes.length
  needed : ∀ k < s.writes.length, 123 * k < n
  chunks : ∀ k w next, s.writes[k]? = some w → s.reserved[k + 1]? = some next →
    Chunk beyond slb n k next w.2

/-- Numbers of the first lap run out before the offset can wrap. -/
theorem Allocating.writes_length {bound : Nat} {s : Progress} (inv : Allocating dev bound s) :
    s.writes.length ≤ 2 ^ 23 := by
  have once : (numbers s.writes).Nodup :=
    (List.pairwise_append.mp inv.increasing).1.imp Nat.ne_of_lt
  have inside : (numbers s.writes).toFinset ⊆ Finset.Icc 1 (2 ^ 23) := by
    intro a member
    have := inv.written a (List.mem_toFinset.mp member)
    exact Finset.mem_Icc.mpr ⟨this.1, this.2.1⟩
  have count := Finset.card_le_card inside
  rw [List.toFinset_card_of_nodup once, Nat.card_Icc] at count
  simpa [numbers] using count

theorem Filling.turn {s t : Progress} (inv : Allocating dev (nblocks rdb).toNat s)
    (filling : Filling beyond slb slbSize.toNat s)
    (turns : installTurn beyond rdb slb slbSize s = .inr t) :
    Filling beyond slb slbSize.toNat t := by
  have room : s.freePointer.toNat + 1 < 2 ^ 32 := by have := inv.small; rw [inv.pointer]; omega
  obtain ⟨more, -, -, -, -, blk, -, -, offset, -, writes⟩ := installTurn_next room turns
  have before : t.reserved = s.reserved ++ [t.block] := by
    simp only [Progress.reserved, writes, List.map_append, List.map_cons, List.map_nil]
  have short := inv.writes_length
  have position := filling.offset
  constructor
  case offset =>
    rw [offset, writes, List.length_append, List.length_singleton, BitVec.toNat_add, position,
      show (123 : Word).toNat = 123 from rfl]
    omega
  case needed =>
    intro k inside
    rw [writes, List.length_append, List.length_singleton] at inside
    rcases Nat.lt_succ_iff_lt_or_eq.mp inside with old | rfl
    · exact filling.needed k old
    · rw [← position]
      exact BitVec.lt_def.mp more
  case chunks =>
    intro k w next member after
    have length := s.reserved_length
    rw [writes] at member
    rw [before] at after
    rcases Nat.lt_trichotomy k s.writes.length with old | rfl | outside
    · rw [List.getElem?_append_left old] at member
      rw [List.getElem?_append_left (by omega)] at after
      exact filling.chunks k w next member after
    · simp only [List.getElem?_concat_length, Option.some.injEq] at member
      rw [← length, List.getElem?_concat_length, Option.some.injEq] at after
      subst member after
      simp only [blk]
      exact fillBlock_chunk position more
    · rw [List.getElem?_eq_none (by simp; omega)] at member
      cases member

private theorem Allocating.turn_reserved {s t : Progress} (inv : Allocating dev (nblocks rdb).toNat s)
    (turns : installTurn beyond rdb slb slbSize s = .inr t) :
    t.reserved = s.reserved ++ [t.block] := by
  have room : s.freePointer.toNat + 1 < 2 ^ 32 := by have := inv.small; rw [inv.pointer]; omega
  obtain ⟨-, -, -, -, -, -, -, -, -, -, writes⟩ := installTurn_next room turns
  simp only [Progress.reserved, writes, List.map_append, List.map_cons, List.map_nil]

/-- Every state the loop reaches fills its blocks, from the first one reserved. -/
theorem filling_reaches {scratch : Block} {first : Word} {s : Progress}
    (start : Allocating dev (nblocks rdb).toNat (.start dev scratch first first))
    (reached : StepLoop.Reaches (installTurn beyond rdb slb slbSize)
      (.start dev scratch first first) s) :
    Filling beyond slb slbSize.toNat s ∧ s.reserved[0]? = some first := by
  have filled : Filling beyond slb slbSize.toNat (.start dev scratch first first) :=
    ⟨rfl, by simp [Progress.start], by simp [Progress.start]⟩
  refine (reached.invariant (fun s => Allocating dev (nblocks rdb).toNat s ∧
    Filling beyond slb slbSize.toNat s ∧ s.reserved[0]? = some first)
    (fun s t inv turns => ?_) ⟨start, filled, rfl⟩).2
  obtain ⟨inv, filling, head⟩ := inv
  refine ⟨inv.turn turns, filling.turn inv turns, ?_⟩
  rw [inv.turn_reserved turns, List.getElem?_append_left (List.getElem?_eq_some_iff.mp head).1]
  exact head

/-- Blocks linked one to the next on a disk form a chain. -/
theorem chain_of_links (beyond : Nat → Word) (after : Disk) (writes : List (Word × Block))
    (blocks : ∀ w ∈ writes, w.1 ≠ idFree ∧ after (seek w.1) = w.2 ∧ w.2 amigaId = idBoot ∧
      checksum beyond w.2 = 0)
    (links : ∀ k w, writes[k]? = some w →
      w.2 bcbNext = (writes[k + 1]?.map (·.1)).getD idFree) :
    Chain beyond after ((writes[0]?.map (·.1)).getD idFree) (writes.map (·.1)) := by
  induction writes with
  | nil => rfl
  | cons w writes ih =>
    obtain ⟨used, holds, boot, valid⟩ := blocks w List.mem_cons_self
    have rest := ih (fun v member => blocks v (List.mem_cons_of_mem _ member))
      fun k v member => links (k + 1) v member
    refine ⟨rfl, used, by rw [holds, boot], by rw [holds, valid], ?_⟩
    rw [holds, links 0 w rfl]
    exact rest

theorem Chunk.bootWords {n k : Nat} {next : Word} {blk : Block}
    (chunk : Chunk beyond slb n k next blk) :
    bootWords blk = (List.range' (123 * k) (min 123 (n - 123 * k))).map slb := by
  rw [Install.bootWords, chunk.summed, Nat.add_sub_cancel_left]
  refine List.ext_getElem ?_ fun j left _ => ?_
  · rw [List.length_take, List.length_map, List.length_range', loadData_length]
    omega
  simp only [loadData, List.getElem_take, List.getElem_ofFn, List.getElem_map,
    List.getElem_range', Nat.one_mul]
  exact chunk.data j _

/-- Consecutive chunks spell consecutive words. -/
theorem chunks_spell (slb : Nat → Word) (n : Nat) (writes : List (Word × Block)) (k : Nat)
    (chunks : ∀ i w, writes[i]? = some w →
      bootWords w.2 = (List.range' (123 * (k + i)) (min 123 (n - 123 * (k + i)))).map slb) :
    writes.flatMap (fun w => bootWords w.2) =
      (List.range' (123 * k) (min (123 * writes.length) (n - 123 * k))).map slb := by
  induction writes generalizing k with
  | nil => simp
  | cons w writes ih =>
    have rest := ih (k + 1) fun i v member => by
      rw [Nat.add_assoc, Nat.add_comm 1 i]
      exact chunks (i + 1) v member
    rw [List.flatMap_cons, chunks 0 w rfl, rest, ← List.map_append, Nat.add_zero]
    rcases Nat.lt_or_ge n (123 * (k + 1)) with short | long
    · have none : n - 123 * (k + 1) = 0 := by omega
      have total : min 123 (n - 123 * k) = min (123 * (writes.length + 1)) (n - 123 * k) := by omega
      rw [none, Nat.min_zero, List.range'_zero, List.append_nil, List.length_cons, total]
    · have whole : min 123 (n - 123 * k) = 123 := by omega
      have follows : List.range' (123 * k) 123 ++
          List.range' (123 * (k + 1)) (min (123 * writes.length) (n - 123 * (k + 1))) =
          List.range' (123 * k) (123 + min (123 * writes.length) (n - 123 * (k + 1))) :=
        List.range'_append_1
      have total : 123 + min (123 * writes.length) (n - 123 * (k + 1)) =
          min (123 * (writes.length + 1)) (n - 123 * k) := by omega
      rw [whole, follows, total, List.length_cons]

/-- How many blocks `n` words need. -/
def chunks (n : Nat) : Nat := (n + 122) / 123

/-- The links of the blocks written, once the last one has been. -/
theorem Filling.links {n : Nat} {s : Progress} (filling : Filling beyond slb n s)
    (done : n ≤ 123 * s.writes.length) {k : Nat} {w : Word × Block}
    (member : s.writes[k]? = some w) :
    ∃ next, Chunk beyond slb n k next w.2 ∧
      w.2 bcbNext = (s.writes[k + 1]?.map (·.1)).getD idFree := by
  have inside := (List.getElem?_eq_some_iff.mp member).1
  have length := s.reserved_length
  have after : s.reserved[k + 1]? = some s.reserved[k + 1] := List.getElem?_eq_getElem (by omega)
  have chunk := filling.chunks k w _ member after
  refine ⟨_, chunk, ?_⟩
  rw [chunk.link]
  rcases Nat.lt_or_ge (k + 1) s.writes.length with more | last
  · have needed := filling.needed (k + 1) more
    rw [if_neg (by omega), List.getElem?_eq_getElem more]
    simp [Progress.reserved, List.getElem_append_left, more]
  · rw [if_pos (by omega), List.getElem?_eq_none last]
    rfl

variable {scratch : Block} {fuel : Nat} {out : Installed}

/-- The state a run that reserved a block ends in: all chunks are written, or
the search for one more block has failed. -/
structure Final (dev : Disk) (rdb : Block) (beyond slb : Nat → Word) (n : Nat) (out : Installed)
    (first : Word) (s : Progress) : Prop where
  allocating : Allocating dev (nblocks rdb).toNat s
  filling : Filling beyond slb n s
  head : s.reserved[0]? = some first
  result : out = s.finish (rdbWithHead rdb first) out.complete
  ended : out.complete = true ∧ s.writes.length = chunks n ∨
    out.complete = false ∧ s.writes.length < chunks n ∧
      ∃ x, Found s.dev (nblocks rdb).toNat s.block.toNat x ∧ (s.dev.free x = true → 2 ^ 31 ≤ x)

/-- `install_slb` finds no block at all, or ends in such a state. -/
theorem installSlb_final (runs : installSlb beyond scratch dev rdb slb slbSize fuel = some out) :
    (out = .noBlock dev rdb ∧
      ∃ x, 0 < x ∧ (nblocks rdb).toNat ≤ x ∧ ∀ y, 0 < y → y ≤ x → dev.free y = false) ∨
    ∃ first s, Final dev rdb beyond slb slbSize.toNat out first s := by
  refine (installSlb_exit runs).imp id ?_
  rintro ⟨first, s, start, reached, inv, ends⟩
  have room : s.freePointer.toNat + 1 < 2 ^ 32 := by have := inv.small; rw [inv.pointer]; omega
  rw [← nblocks_rdbWithHead rdb first] at start
  obtain ⟨filling, head⟩ := filling_reaches start reached
  have position := filling.offset
  refine ⟨first, s, ?_⟩
  rcases installTurn_ends room ends with ⟨rfl, done⟩ | ⟨rfl, more, x, found, unusable⟩
  · refine ⟨inv, filling, head, rfl, .inl ⟨rfl, ?_⟩⟩
    have all : ¬ s.offset.toNat < slbSize.toNat := fun below => done (BitVec.lt_def.mpr below)
    by_cases none : s.writes.length = 0
    · rw [chunks]
      omega
    · have := filling.needed (s.writes.length - 1) (by omega)
      rw [chunks]
      omega
  · refine ⟨inv, filling, head, rfl, .inr ⟨rfl, ?_, x, ?_, unusable⟩⟩
    · have := BitVec.lt_def.mp more
      rw [chunks]
      omega
    · rwa [nblocks_rdbWithHead, inv.pointer] at found

/-- A complete run leaves the blocks it wrote as a chain, spelling the words. -/
theorem installed_chain (nonempty : 0 < slbSize)
    (runs : installSlb beyond scratch dev rdb slb slbSize fuel = some out)
    (complete : out.complete = true) :
    out.writes.length = chunks slbSize.toNat ∧
      Chain beyond out.dev (out.rdb rdbBootBlockList) (out.writes.map (·.1)) ∧
      out.writes.flatMap (fun w => bootWords (out.dev (seek w.1))) =
        (List.range slbSize.toNat).map slb := by
  have safe := installSlb_freeWrites runs
  have stored : ∀ w ∈ out.writes, out.dev (seek w.1) = w.2 := fun w member => by
    rw [safe.replayed, replay_written safe.positions member]
  have some : 0 < slbSize.toNat := by simpa using BitVec.lt_def.mp nonempty
  rcases installSlb_final runs with ⟨rfl, -⟩ | ⟨first, s, final⟩
  · cases complete
  obtain ⟨-, filling, head, result, ended⟩ := final
  rw [complete] at result
  subst result
  have count : s.writes.length = chunks slbSize.toNat := by
    rcases ended with ⟨-, count⟩ | ⟨failed, -⟩
    · exact count
    · cases failed
  have all : slbSize.toNat ≤ 123 * s.writes.length := by
    rw [count, chunks]
    omega
  refine ⟨count, ?_, ?_⟩
  · have chain := chain_of_links beyond s.dev s.writes (fun w member => ?_)
      (fun k w member => (filling.links all member).choose_spec.2)
    · have written : 0 < s.writes.length := by rw [count, chunks]; omega
      have same : (s.writes[0]?.map (·.1)).getD idFree = first := by
        rw [Progress.reserved, List.getElem?_append_left (by simpa using written)] at head
        rw [← List.getElem?_map, head]
        rfl
      rw [same] at chain
      have stays : (s.finish (rdbWithHead rdb first) true).rdb rdbBootBlockList = first := by
        simp only [Progress.finish, rdbWithHead, update_self]
      rw [stays]
      exact chain
    · obtain ⟨k, place⟩ := List.getElem?_of_mem member
      obtain ⟨_, chunk, -⟩ := filling.links all place
      refine ⟨?_, stored w member, chunk.id, chunk.valid⟩
      rintro used
      have := (safe.first w member).2
      rw [used] at this
      exact absurd this (by decide)
  · have spelled := chunks_spell slb slbSize.toNat s.writes 0 fun k w member => by
      rw [Nat.zero_add]
      exact (filling.links all member).choose_spec.1.bootWords
    have same : s.writes.flatMap (fun w => bootWords (s.dev (seek w.1))) =
        s.writes.flatMap (fun w => bootWords w.2) :=
      List.flatMap_congr fun w member => congrArg bootWords (stored w member)
    rw [Nat.mul_zero, Nat.sub_zero, Nat.min_eq_right all, ← List.range_eq_range'] at spelled
    exact same.trans spelled

/-- A complete run of `install_slb` on `n ≥ 1` words leaves a chain of
`⌈n / 123⌉` valid BOOT blocks, reached from the RDB and ending at `IDNAME_FREE`,
whose data spells the words, and changes no block outside of it. -/
theorem install_spells_slb (nonempty : 0 < slbSize)
    (runs : installSlb beyond scratch dev rdb slb slbSize fuel = some out)
    (complete : out.complete = true) :
    ∃ blocks : List Word,
      Chain beyond out.dev (out.rdb rdbBootBlockList) blocks ∧
      blocks.length = (slbSize.toNat + 122) / 123 ∧
      (blocks.map seek).Nodup ∧
      blocks.flatMap (fun block => bootWords (out.dev (seek block))) =
        (List.range slbSize.toNat).map slb ∧
      ∀ position, position ∉ blocks.map seek → out.dev position = dev position := by
  have safe := installSlb_freeWrites runs
  obtain ⟨count, chain, spelled⟩ := installed_chain nonempty runs complete
  refine ⟨out.writes.map (·.1), chain, by rw [List.length_map, count, chunks], ?_, ?_, ?_⟩
  · simpa only [List.map_map, comp_def] using safe.positions
  · rw [List.flatMap_map]
    exact spelled
  · intro position outside
    rw [safe.replayed]
    refine replay_other fun w member same => outside ?_
    rw [List.map_map]
    exact List.mem_map.mpr ⟨w, member, same⟩

end

/-- A disk on which the blocks 1, 3 and 4 are free. -/
def gappedDisk : Disk := fun position =>
  if position ∈ [1, 3, 4] then fun _ => 0 else fun _ => idPartition

def tenBlockRdb : Block := fun i => if i = rdbBlocksHi then 10 else 0

def gappedRun : Option Installed :=
  installSlb (fun _ => 0) (fun _ => 0) gappedDisk tenBlockRdb (fun j => BitVec.ofNat 32 j) 130 3

theorem gappedRun_returns : gappedRun.isSome := by decide

theorem two_chunks_spelled :
    ∃ blocks : List Word,
      Chain (fun _ => 0) (gappedRun.get gappedRun_returns).dev
        ((gappedRun.get gappedRun_returns).rdb rdbBootBlockList) blocks ∧
      blocks.length = 2 ∧
      (blocks.map seek).Nodup ∧
      blocks.flatMap (fun block =>
          bootWords ((gappedRun.get gappedRun_returns).dev (seek block))) =
        (List.range 130).map (fun j => BitVec.ofNat 32 j) ∧
      ∀ position, position ∉ blocks.map seek →
        (gappedRun.get gappedRun_returns).dev position = gappedDisk position :=
  install_spells_slb (by decide) (Option.some_get gappedRun_returns).symm (by decide)

end Parthenope.Install
