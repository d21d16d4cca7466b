import Parthenope.Cdrom

/-! What `cdrom_read` delivers. The cached sector can be relied on from the first
refill that succeeds until one fails; before and after, a read goes wrong where the
first sector it reads in part is the one `sector_in_buf` names. -/
namespace Parthenope.Cdrom
open CString Buffer StepLoop

/-- A byte of the disc by its distance from a block and an offset. -/
def discByte (disc : Word → Sector) (block offset : Word) (i : Nat) : Byte :=
  (disc (block + BitVec.ofNat 32 ((offset.toNat + i) / 2048))).byte (offset.toNat + i)

/-- A drive that delivers the disc whenever a read succeeds. -/
def Faithful {D : Type} (read : BlockRead D) (disc : Word → Sector) : Prop :=
  ∀ phys block count, (read phys block count).2.1 = true →
    ∀ k < count, (read phys block count).2.2 k = disc (block + BitVec.ofNat 32 k)

/-- The first sector a read takes only a part of, through `tmpbuf`. -/
def firstPart (block offset length : Word) : Option Word :=
  if offset.toNat % 2048 ≠ 0 then some (block + BitVec.ofNat 32 (offset.toNat / 2048))
  else if length.toNat % 2048 ≠ 0 then
    some (block + BitVec.ofNat 32 (offset.toNat / 2048) + BitVec.ofNat 32 (length.toNat / 2048))
  else none

/-- Unless the last refill succeeded, the next sector to come through `tmpbuf` is
another one than `sector_in_buf` names. -/
def Guarded {D : Type} (boot : Cache D) (block offset length : Word) : Prop :=
  boot.filled = true ∨ firstPart block offset length ≠ some boot.sectorInBuf

/-- A cache to rely on holds the sector it names. -/
def Trusted {D : Type} (disc : Word → Sector) (boot : Cache D) : Prop :=
  boot.filled = true → boot.tmpbuf = disc boot.sectorInBuf

/-- The arguments of a call of `cdrom_read`. -/
structure Request where
  block : Word
  offset : Word
  length : Word

def Request.run {D : Type} (read : BlockRead D) (boot : Cache D) (r : Request) :
    Cache D × Except (List Byte) (List Byte) :=
  cdromRead read boot r.block r.offset r.length

/-- The cache after a run of calls. -/
def afterCalls {D : Type} (read : BlockRead D) (boot : Cache D) (calls : List Request) : Cache D :=
  calls.foldl (fun boot r => (r.run read boot).1) boot

section
variable {D α : Type} (host : Host D)

/-- The call that a turn of the loops of `iterate_entries` makes, for the area of a CE entry. -/
def turnCalls (w : Walk D) : List Request :=
  let e := w.entry host
  if signed e "CE" && host.allocates (be32 e ceLen) then [⟨be32 e ceBlk, be32 e ceOff, be32 e ceLen⟩] else []

/-- The calls of those loops. -/
def walkCalls (iterFunc : (Nat → Byte) → Option α) : Nat → Walk D → List Request
  | 0, _ => []
  | fuel + 1, w =>
    turnCalls host w ++ match entryTurn host iterFunc w with
      | .inl _ => []
      | .inr w => walkCalls iterFunc fuel w

/-- The calls of `get_entry`. -/
def getEntryCalls (boot : Cache D) (block offset size : Word) (sig : String) (fuel : Nat) : List Request :=
  if host.allocates size then
    ⟨block, offset, size⟩ :: match cdromRead host.read boot block offset size with
      | (_, .error _) => []
      | (boot, .ok sua) => walkCalls host (myIteration sig) fuel ⟨boot, sua, size, 0⟩
  else []

/-- The calls of the last part of `cdrom_create`. -/
def rockRidgeCalls (boot : Cache D) (root : Word) (rootdir : List Byte) (fuel : Nat) : List Request :=
  let suaPos := BitVec.ofNat 32 (rootSuaStart (contents host.stale rootdir))
  let suaSize := rootSuaSize (contents host.stale rootdir)
  if host.allocates suaSize then
    let (boot, result) := cdromRead host.read boot root suaPos suaSize
    ⟨root, suaPos, suaSize⟩ ::
      if signed (contents host.stale (written result)) "SP" then getEntryCalls host boot root suaPos suaSize "RR" fuel
      else []
  else []

/-- The calls of `cdrom_read` that `cdrom_create` makes, in their order. -/
def createCalls (fresh : CdromBootDev D) (fuel : Nat) : List Request :=
  ⟨16, 0, BitVec.ofNat 32 voldescSize⟩ ::
    match cdromRead host.read fresh.boot 16 0 (BitVec.ofNat 32 voldescSize) with
    | (_, .error _) => []
    | (boot, .ok voldesc) =>
      if slice (contents host.stale voldesc) voldescMagic 5 ≠ chars "CD001" then []
      else
        ⟨volumeRoot host voldesc, 0, BitVec.ofNat 32 dirSize⟩ ::
          match cdromRead host.read boot (volumeRoot host voldesc) 0 (BitVec.ofNat 32 dirSize) with
          | (_, .error _) => []
          | (boot, .ok rootdir) => rockRidgeCalls host boot (volumeRoot host voldesc) rootdir fuel

end

/-- Every call of a run is guarded where it is made. -/
def GuardedRun {D : Type} (read : BlockRead D) : Cache D → List Request → Prop
  | _, [] => True
  | boot, r :: rest => Guarded boot r.block r.offset r.length ∧ GuardedRun read (r.run read boot).1 rest

/-- Every call of a run that returns 0 delivers the bytes of the disc, and finds the
sector that `sector_in_buf` names in `tmpbuf` where that is the one it reads. -/
def Delivers {D : Type} (read : BlockRead D) (disc : Word → Sector) : Cache D → List Request → Prop
  | _, [] => True
  | boot, r :: rest =>
    (∀ dest, (r.run read boot).2 = .ok dest →
      dest = slice (discByte disc r.block r.offset) 0 r.length.toNat) ∧
    (firstPart r.block r.offset r.length = some boot.sectorInBuf → boot.tmpbuf = disc boot.sectorInBuf) ∧
    Delivers read disc (r.run read boot).1 rest

/-- A transfer that has delivered a number of bytes and stands at the next one. -/
structure Progress (disc : Word → Sector) (block offset length : Word) (done : Nat) (t : Transfer) :
    Prop where
  dest : t.dest = slice (discByte disc block offset) 0 done
  left : done + t.length.toNat = length.toNat
  place : t.length ≠ 0 → ∃ q, offset.toNat + done = q * 2048 + t.offset.toNat ∧
    t.block = block + BitVec.ofNat 32 q

section
variable {D : Type} {read : BlockRead D} {disc : Word → Sector} {boot boot' : Cache D}
  {block offset length : Word} {t t' : Transfer} {dest : List Byte} {done fuel i : Nat}

private theorem skipSectors_eq (enough : offset.toNat / 2048 ≤ fuel) :
    skipSectors fuel block offset =
      (block + BitVec.ofNat 32 (offset.toNat / 2048), BitVec.ofNat 32 (offset.toNat % 2048)) := by
  induction fuel generalizing block offset with
  | zero =>
    have small : offset.toNat < 2048 := by omega
    rw [skipSectors, Nat.div_eq_of_lt small, Nat.mod_eq_of_lt small, BitVec.ofNat_toNat]
    simp
  | succ fuel ih =>
    by_cases whole : (2048 : Word) ≤ offset
    · have large : 2048 ≤ offset.toNat := BitVec.le_def.mp whole
      have less : (offset - 2048).toNat = offset.toNat - 2048 := by
        rw [BitVec.toNat_sub_of_le whole]
        rfl
      have quotient : offset.toNat / 2048 = (offset.toNat - 2048) / 2048 + 1 := by omega
      have remainder : offset.toNat % 2048 = (offset.toNat - 2048) % 2048 := by omega
      have one : BitVec.ofNat 32 1 = (1 : Word) := rfl
      rw [skipSectors, if_pos whole, ih (by rw [less]; omega), less, quotient, remainder,
        BitVec.ofNat_add, one, BitVec.add_assoc, BitVec.add_comm 1]
    · have small : offset.toNat < 2048 := by
        have := mt BitVec.le_def.mpr whole
        exact Nat.not_le.mp this
      rw [skipSectors, if_neg whole, Nat.div_eq_of_lt small, Nat.mod_eq_of_lt small,
        BitVec.ofNat_toNat]
      simp

/-- Bytes count from the first sector as from the sector the offset leads to. -/
theorem discByte_skip :
    discByte disc (block + BitVec.ofNat 32 (offset.toNat / 2048)) (BitVec.ofNat 32 (offset.toNat % 2048)) i =
      discByte disc block offset i := by
  have small : (BitVec.ofNat 32 (offset.toNat % 2048)).toNat = offset.toNat % 2048 := by
    rw [BitVec.toNat_ofNat]
    omega
  have sector : (offset.toNat + i) / 2048 = offset.toNat / 2048 + (offset.toNat % 2048 + i) / 2048 := by
    omega
  have byte : (offset.toNat % 2048 + i) % 2048 = (offset.toNat + i) % 2048 := by omega
  rw [discByte, discByte, small, sector, BitVec.ofNat_add, ← BitVec.add_assoc, Sector.byte,
    Sector.byte]
  simp only [byte]

/-- A refill leaves a cache that can be relied on as it was before. -/
theorem refill_trusted (faithful : Faithful read disc) (block : Word) (trusted : Trusted disc boot) :
    Trusted disc (refill read boot block).1 := by
  unfold refill
  split
  · split
    · rintro ⟨⟩
    · rename_i phys buffer answer
      intro _
      have first := faithful boot.phys block 1 (by rw [answer]) 0 Nat.one_pos
      rw [answer] at first
      simpa using first
  · exact trusted

/-- After a refill the sector is in `tmpbuf`. -/
theorem refill_ok (faithful : Faithful read disc) (trusted : Trusted disc boot)
    (guarded : boot.filled = true ∨ boot.sectorInBuf ≠ block)
    (ok : refill read boot block = (boot', true)) :
    boot'.filled = true ∧ boot'.sectorInBuf = block ∧ boot'.tmpbuf = disc block := by
  have after := refill_trusted faithful block trusted
  rw [ok] at after
  unfold refill at ok
  split at ok
  · split at ok
    · cases ok
    · cases ok
      exact ⟨rfl, rfl, after rfl⟩
  · rename_i here
    cases ok
    have same : boot.sectorInBuf = block := not_not.mp here
    have filled := guarded.resolve_right here
    exact ⟨filled, same, same ▸ after filled⟩

private theorem partLength_toNat (length : Word) (small : offset.toNat < 2048) :
    (if length < 2048 - offset then length else 2048 - offset).toNat =
      min length.toNat (2048 - offset.toNat) := by
  have rest : ((2048 : Word) - offset).toNat = 2048 - offset.toNat :=
    BitVec.toNat_sub_of_le (BitVec.le_def.mpr small.le)
  split
  · rename_i less
    have := BitVec.lt_def.mp less
    omega
  · rename_i more
    have := mt BitVec.lt_def.mpr more
    omega

/-- The bytes of a sector that a transfer stands at. -/
theorem discByte_at {q : Nat} (place : offset.toNat + done = q * 2048 + t.offset.toNat)
    (here : t.block = block + BitVec.ofNat 32 q) :
    discByte disc block offset (done + i) = discByte disc t.block t.offset i := by
  have sector : (offset.toNat + (done + i)) / 2048 = q + (t.offset.toNat + i) / 2048 := by omega
  have byte : (offset.toNat + (done + i)) % 2048 = (t.offset.toNat + i) % 2048 := by omega
  rw [discByte, discByte, here, sector, BitVec.ofNat_add, ← BitVec.add_assoc, Sector.byte, Sector.byte]
  simp only [byte]

private theorem discByte_inside (inside : offset.toNat + i < 2048) :
    discByte disc block offset i = (disc block).byte (offset.toNat + i) := by
  rw [discByte, Nat.div_eq_of_lt inside]
  simp

/-- What a part has delivered goes on from what was there. -/
theorem Progress.append {n : Nat} {bytes : List Byte} (progress : Progress disc block offset length done t)
    (written : t.length ≠ 0 → bytes = slice (discByte disc t.block t.offset) 0 n)
    (nonzero : t.length ≠ 0) :
    t.dest ++ bytes = slice (discByte disc block offset) 0 (done + n) := by
  obtain ⟨q, place, here⟩ := progress.place nonzero
  rw [progress.dest, written nonzero, ← slice_append]
  congr 1
  refine slice_congr fun i _ => ?_
  rw [Nat.zero_add, Nat.zero_add, discByte_at place here]

private theorem readHead_ok (faithful : Faithful read disc) (trusted : Trusted disc boot)
    (small : offset.toNat < 2048)
    (guarded : offset ≠ 0 → boot.filled = true ∨ boot.sectorInBuf ≠ block)
    (ok : readHead read boot ⟨block, offset, length, []⟩ = (boot', .ok t)) :
    t.offset = 0 ∧ (∃ done, Progress disc block offset length done t) ∧
      (offset ≠ 0 → boot'.filled = true) ∧
      (offset = 0 → boot' = boot ∧ t = ⟨block, offset, length, []⟩) := by
  unfold readHead at ok
  dsimp only at ok
  split at ok
  · rename_i partly
    split at ok
    · cases ok
    · rename_i boot₁ filled
      obtain ⟨good, -, sector⟩ := refill_ok faithful trusted (guarded partly) filled
      cases ok
      have len := partLength_toNat length small
      set n := if length < 2048 - offset then length else 2048 - offset
      have rest : (length - n).toNat = length.toNat - n.toNat :=
        BitVec.toNat_sub_of_le (BitVec.le_def.mpr (by omega))
      refine ⟨rfl, ⟨n.toNat, ⟨?_, ?_, ?_⟩⟩, fun _ => good, fun zero => absurd zero partly⟩
      · dsimp only
        rw [List.nil_append, sector]
        refine slice_congr fun i inside => ?_
        rw [Nat.zero_add, discByte_inside (by omega)]
      · dsimp only
        omega
      · intro more
        have : (length - n).toNat ≠ 0 := fun zero => more (BitVec.eq_of_toNat_eq zero)
        exact ⟨1, by simp; omega, rfl⟩
  · rename_i zero
    cases ok
    have offset0 : offset = 0 := not_not.mp zero
    refine ⟨offset0, ⟨0, rfl, Nat.zero_add _, fun _ => ⟨0, ?_, ?_⟩⟩, fun h => absurd h zero,
      fun _ => ⟨rfl, rfl⟩⟩
    · dsimp only
      omega
    · simp

private theorem readMiddle_ok (faithful : Faithful read disc) (aligned : t.offset = 0)
    (progress : Progress disc block offset length done t)
    (ok : readMiddle read boot t = (boot', .ok t')) :
    t'.offset = 0 ∧ t'.length.toNat = t.length.toNat % 2048 ∧
      (∃ done, Progress disc block offset length done t') ∧
      t'.block = t.block + BitVec.ofNat 32 (t.length.toNat / 2048) ∧
      boot'.filled = boot.filled ∧ boot'.tmpbuf = boot.tmpbuf ∧ boot'.sectorInBuf = boot.sectorInBuf := by
  have count : (t.length / 2048).toNat = t.length.toNat / 2048 := BitVec.toNat_udiv
  unfold readMiddle at ok
  dsimp only at ok
  split at ok
  · rename_i whole
    have some : (t.length / 2048).toNat ≠ 0 := fun zero => whole (BitVec.eq_of_toNat_eq zero)
    have nonzero : t.length ≠ 0 := by
      intro zero
      rw [count, zero] at some
      exact some rfl
    have bytes : (2048 * (t.length / 2048)).toNat = 2048 * (t.length.toNat / 2048) := by
      have sector : (2048 : Word).toNat = 2048 := rfl
      have := t.length.isLt
      rw [BitVec.toNat_mul, count, sector]
      omega
    have rest : (t.length - 2048 * (t.length / 2048)).toNat = t.length.toNat % 2048 := by
      rw [BitVec.toNat_sub_of_le (BitVec.le_def.mpr (by omega))]
      omega
    have delivered := faithful boot.phys t.block (t.length / 2048).toNat
    generalize read boot.phys t.block (t.length / 2048).toNat = answer at ok delivered
    obtain ⟨phys, success, buffer⟩ := answer
    cases success with
    | false => cases ok
    | true =>
      cases ok
      refine ⟨aligned, rest, ⟨done + 2048 * (t.length.toNat / 2048), ⟨?_, ?_, ?_⟩⟩, ?_, rfl, rfl, rfl⟩
      · refine progress.append (fun _ => ?_) nonzero
        rw [bytes]
        refine slice_congr fun i inside => ?_
        have sector := delivered rfl (i / 2048) (by omega)
        rw [Nat.zero_add]
        refine (congrArg (Sector.byte · i) sector).trans ?_
        rw [discByte, aligned]
        simp
      · have := progress.left
        dsimp only
        omega
      · intro more
        obtain ⟨q, place, here⟩ := progress.place nonzero
        refine ⟨q + t.length.toNat / 2048, ?_, ?_⟩
        · dsimp only
          omega
        · dsimp only
          rw [here, BitVec.ofNat_add, ← BitVec.add_assoc, ← count, BitVec.ofNat_toNat]
          simp
      · dsimp only
        rw [← count, BitVec.ofNat_toNat]
        simp
  · rename_i none
    cases ok
    have zero : t.length.toNat / 2048 = 0 := by
      rw [← count, not_not.mp none]
      rfl
    refine ⟨aligned, by omega, ⟨done, progress⟩, ?_, rfl, rfl, rfl⟩
    rw [zero]
    simp

private theorem readTail_ok (faithful : Faithful read disc) (trusted : Trusted disc boot)
    (aligned : t.offset = 0) (short : t.length.toNat < 2048)
    (guarded : t.length ≠ 0 → boot.filled = true ∨ boot.sectorInBuf ≠ t.block)
    (progress : Progress disc block offset length done t)
    (ok : readTail read boot t = (boot', .ok t')) :
    t'.dest = slice (discByte disc block offset) 0 length.toNat := by
  unfold readTail at ok
  dsimp only at ok
  split at ok
  · rename_i partly
    split at ok
    · cases ok
    · rename_i boot₁ filled
      obtain ⟨-, -, sector⟩ := refill_ok faithful trusted (guarded partly) filled
      cases ok
      have zero : t.offset.toNat = 0 := by rw [aligned]; rfl
      have inside : t.offset.toNat < 2048 := by omega
      have len := partLength_toNat t.length inside
      have all : done + (if t.length < 2048 - t.offset then t.length else 2048 - t.offset).toNat =
          length.toNat := by
        have := progress.left
        omega
      dsimp only
      rw [← all]
      refine progress.append (fun _ => ?_) partly
      rw [sector]
      refine slice_congr fun i inside => ?_
      rw [Nat.zero_add, discByte_inside (by omega), zero, Nat.zero_add]
  · rename_i none
    cases ok
    have zero : t.length.toNat = 0 := by
      rw [not_not.mp none]
      rfl
    rw [progress.dest]
    congr 1
    have := progress.left
    omega

section
variable (Keeps : Cache D → Prop) (refills : ∀ boot block, Keeps boot → Keeps (refill read boot block).1)
  (turns : ∀ boot phys, Keeps boot → Keeps { boot with phys := phys })
include refills

private theorem readHead_keeps (keeps : Keeps boot) : Keeps (readHead read boot t).1 := by
  have after := refills boot t.block keeps
  unfold readHead
  split
  · generalize refill read boot t.block = filled at after ⊢
    obtain ⟨boot', success⟩ := filled
    cases success <;> exact after
  · exact keeps

private theorem readTail_keeps (keeps : Keeps boot) : Keeps (readTail read boot t).1 := by
  have after := refills boot t.block keeps
  unfold readTail
  split
  · generalize refill read boot t.block = filled at after ⊢
    obtain ⟨boot', success⟩ := filled
    cases success <;> exact after
  · exact keeps

omit refills in
include turns in
private theorem readMiddle_keeps (keeps : Keeps boot) : Keeps (readMiddle read boot t).1 := by
  unfold readMiddle
  dsimp only
  split
  · generalize read boot.phys t.block (t.length / 2048).toNat = answer
    obtain ⟨phys, success, buffer⟩ := answer
    cases success <;> exact turns boot phys keeps
  · exact keeps

include turns in
/-- What refills and the drive keep of a cache, a call keeps. -/
theorem cdromRead_keeps (keeps : Keeps boot) :
    Keeps (cdromRead read boot block offset length).1 := by
  have next {part : Cache D → Transfer → Cache D × Except (List Byte) Transfer}
      (part_keeps : ∀ {boot t}, Keeps boot → Keeps (part boot t).1)
      {r : Cache D × Except (List Byte) Transfer} (keeps : Keeps r.1) : Keeps (andThen part r).1 := by
    obtain ⟨boot, dest | t⟩ := r
    · exact keeps
    · exact part_keeps keeps
  exact next (readTail_keeps Keeps refills)
    (next (readMiddle_keeps Keeps turns) (readHead_keeps Keeps refills keeps))

end

private theorem refill_filled (works : ∀ phys block, (read phys block 1).2.1 = true)
    (filled : boot.filled = true ∨ boot.sectorInBuf ≠ block) :
    (refill read boot block).1.filled = true ∧ (refill read boot block).2 = true := by
  have success := works boot.phys block
  unfold refill
  split
  · generalize read boot.phys block 1 = answer at success ⊢
    obtain ⟨phys, ok, buffer⟩ := answer
    cases success
    exact ⟨rfl, rfl⟩
  · rename_i here
    exact ⟨filled.resolve_right here, rfl⟩

/-- A call leaves a cache that can be relied on as it was before. -/
theorem cdromRead_trusted (faithful : Faithful read disc) (trusted : Trusted disc boot) :
    Trusted disc (cdromRead read boot block offset length).1 :=
  cdromRead_keeps (Trusted disc) (fun _ block trusted => refill_trusted faithful block trusted)
    (fun _ _ trusted => trusted) trusted

/-- What a guarded call returns is what the disc has there. -/
theorem cdromRead_delivers (faithful : Faithful read disc) (trusted : Trusted disc boot)
    (guarded : Guarded boot block offset length)
    (ok : (cdromRead read boot block offset length).2 = .ok dest) :
    dest = slice (discByte disc block offset) 0 length.toNat := by
  unfold cdromRead at ok
  rw [skipSectors_eq (Nat.div_le_self _ _)] at ok
  dsimp only at ok
  have small : (BitVec.ofNat 32 (offset.toNat % 2048)).toNat = offset.toNat % 2048 := by
    rw [BitVec.toNat_ofNat]
    omega
  have same : slice (discByte disc (block + BitVec.ofNat 32 (offset.toNat / 2048))
      (BitVec.ofNat 32 (offset.toNat % 2048))) 0 length.toNat = slice (discByte disc block offset) 0 length.toNat :=
    slice_congr fun _ _ => discByte_skip
  rw [← same]
  set first := block + BitVec.ofNat 32 (offset.toNat / 2048)
  set within := BitVec.ofNat 32 (offset.toNat % 2048)
  have part : firstPart block offset length =
      if within ≠ 0 then some first
      else if length.toNat % 2048 ≠ 0 then some (first + BitVec.ofNat 32 (length.toNat / 2048)) else none := by
    have zero : within = 0 ↔ offset.toNat % 2048 = 0 :=
      ⟨fun h => by rw [← small, h]; rfl, fun h => BitVec.eq_of_toNat_eq (small.trans h)⟩
    rw [firstPart]
    simp only [ne_eq, zero, first]
  rcases head : readHead read boot ⟨first, within, length, []⟩ with ⟨boot₁, dest₁ | t₁⟩
  · rw [head] at ok
    cases ok
  rcases middle : readMiddle read boot₁ t₁ with ⟨boot₂, dest₂ | t₂⟩
  · rw [head, andThen, middle] at ok
    cases ok
  rcases tail : readTail read boot₂ t₂ with ⟨boot₃, dest₃ | t₃⟩
  · rw [head, andThen, middle, andThen, tail] at ok
    cases ok
  rw [head, andThen, middle, andThen, tail] at ok
  cases ok
  have guardedHead : within ≠ 0 → boot.filled = true ∨ boot.sectorInBuf ≠ first := by
    intro partly
    refine guarded.imp_right fun other here => other ?_
    rw [part, if_pos partly, here]
  have refills (boot : Cache D) (block : Word) (trusted : Trusted disc boot) :=
    refill_trusted faithful block trusted
  have trusted₁ := readHead_keeps (t := ⟨first, within, length, []⟩) (Trusted disc) refills trusted
  rw [head] at trusted₁
  obtain ⟨aligned₁, ⟨done₁, progress₁⟩, filled, whole⟩ := readHead_ok faithful trusted
    (by rw [small]; omega) guardedHead head
  have trusted₂ : Trusted disc (readMiddle read boot₁ t₁).1 :=
    readMiddle_keeps (Trusted disc) (fun _ _ kept => kept) trusted₁
  rw [middle] at trusted₂
  obtain ⟨aligned₂, rest, ⟨done₂, progress₂⟩, here, keptFilled, -, keptSector⟩ :=
    readMiddle_ok faithful aligned₁ progress₁ middle
  refine readTail_ok faithful trusted₂ aligned₂ (by omega) ?_ progress₂ tail
  intro last
  by_cases partly : within = 0
  · obtain ⟨rfl, rfl⟩ := whole partly
    have more : length.toNat % 2048 ≠ 0 := by
      intro zero
      exact last (BitVec.eq_of_toNat_eq (rest.trans zero))
    rw [keptFilled, keptSector, here]
    refine guarded.imp_right fun other same => other ?_
    rw [part, if_neg (not_not_intro partly), if_pos more, same]
  · exact .inl (keptFilled.trans (filled partly))

/-- A run of guarded calls delivers the disc, from whatever memory it began with. -/
theorem run_delivers {calls : List Request} (faithful : Faithful read disc) (trusted : Trusted disc boot)
    (guarded : GuardedRun read boot calls) : Delivers read disc boot calls := by
  induction calls generalizing boot with
  | nil => trivial
  | cons r rest ih =>
    obtain ⟨first, guarded⟩ := guarded
    refine ⟨fun dest ok => cdromRead_delivers faithful trusted first ok, ?_,
      ih (cdromRead_trusted faithful trusted) guarded⟩
    intro same
    exact trusted (first.resolve_right (not_not_intro same))

end

section
variable {D α : Type} {host : Host D} {boot boot' : Cache D} {w w' : Walk D} {found : Option α}
  {iterFunc : (Nat → Byte) → Option α} {block offset size : Word} {fuel : Nat}

private theorem afterCalls_append {read : BlockRead D} (calls later : List Request) :
    afterCalls read boot (calls ++ later) = afterCalls read (afterCalls read boot calls) later :=
  List.foldl_append

private theorem afterCalls_cons {read : BlockRead D} {r : Request} {rest : List Request} :
    afterCalls read boot (r :: rest) = afterCalls read (r.run read boot).1 rest := rfl

/-- A turn changes the cache by its call only. -/
theorem turnCalls_after : afterCalls host.read w.boot (turnCalls host w) =
    (entryTurn host iterFunc w).elim Prod.fst Walk.boot := by
  unfold turnCalls
  dsimp only
  cases continued : signed (w.entry host) "CE" with
  | true =>
    cases allocated : host.allocates (be32 (w.entry host) ceLen) with
    | true =>
      rw [Bool.and_true, if_pos rfl, afterCalls_cons, Request.run]
      rcases answer : cdromRead host.read w.boot (be32 (w.entry host) ceBlk) (be32 (w.entry host) ceOff)
        (be32 (w.entry host) ceLen) with ⟨boot₁, dest | sua⟩
      · rw [entryTurn_fails continued allocated answer]
        rfl
      · rw [entryTurn_continues continued allocated ⟨rfl, rfl, rfl⟩ answer]
        rfl
    | false =>
      rw [entryTurn_denied continued allocated]
      rfl
  | false =>
    cases stops : signed (w.entry host) "ST" with
    | true =>
      rw [entryTurn_stops continued stops]
      rfl
    | false =>
      cases finds : iterFunc (w.entry host) with
      | some a =>
        rw [entryTurn_finds continued stops finds]
        rfl
      | none =>
        rw [entryTurn_passes continued stops finds, apply_ite (Sum.elim _ _)]
        exact (ite_self w.boot).symm

/-- A walk of System Use entries changes the cache by its calls only. -/
theorem walkCalls_after (walked : run (entryTurn host iterFunc) fuel w = some (boot', found)) :
    afterCalls host.read w.boot (walkCalls host iterFunc fuel w) = boot' := by
  induction fuel generalizing w with
  | zero => cases walked
  | succ fuel ih =>
    rw [walkCalls, afterCalls_append, @turnCalls_after _ _ host w iterFunc]
    cases turn : entryTurn host iterFunc w with
    | inl ended =>
      rw [run_ends turn] at walked
      cases walked
      rfl
    | inr next =>
      rw [run_turns turn] at walked
      exact ih walked

/-- So does a search for an entry. -/
theorem getEntryCalls_after {sig : String} {entry : Option (List Byte)}
    (searched : getEntry host boot block offset size sig fuel = some (boot', entry)) :
    afterCalls host.read boot (getEntryCalls host boot block offset size sig fuel) = boot' := by
  unfold getEntry iterateEntries at searched
  unfold getEntryCalls
  split at searched
  · rename_i allocated
    rw [if_pos allocated, afterCalls_cons, Request.run]
    rcases answer : cdromRead host.read boot block offset size with ⟨boot₁, dest | sua⟩
    · rw [answer] at searched
      cases searched
      rfl
    · rw [answer] at searched
      exact walkCalls_after searched
  · rename_i denied
    cases searched
    rw [if_neg denied]
    rfl

private theorem rockRidgeCalls_after {root : Word} {rootdir : List Byte} {suspSkip skip : Byte} {rr : Bool}
    (looked : rockRidge host boot root rootdir suspSkip fuel = some (.ok (boot', rr, skip))) :
    afterCalls host.read boot (rockRidgeCalls host boot root rootdir fuel) = boot' := by
  unfold rockRidge at looked
  unfold rockRidgeCalls
  dsimp only at looked ⊢
  split at looked
  · rename_i allocated
    rw [if_pos allocated, afterCalls_cons, Request.run]
    split at looked
    · rename_i supported
      rw [if_pos supported]
      obtain ⟨⟨boot₁, entry⟩, searched, made⟩ := Option.map_eq_some_iff.mp looked
      cases made
      exact getEntryCalls_after searched
    · rename_i unsupported
      rw [if_neg unsupported]
      cases looked
      rfl
  · cases looked

/-- A device that `cdrom_create` returns has come about by these calls. -/
theorem createCalls_after {fresh dev : CdromBootDev D}
    (created : cdromCreate host fresh fuel = some (.ok (some dev))) :
    afterCalls host.read fresh.boot (createCalls host fresh fuel) = dev.boot := by
  unfold cdromCreate readVolume at created
  unfold createCalls
  rw [afterCalls_cons, Request.run]
  rcases first : cdromRead host.read fresh.boot 16 0 (BitVec.ofNat 32 voldescSize) with
    ⟨boot₁, dest | voldesc⟩
  · rw [first] at created
    cases created
  rw [first] at created
  dsimp only at created ⊢
  by_cases magic : slice (contents host.stale voldesc) voldescMagic 5 ≠ chars "CD001"
  · rw [if_pos magic] at created
    cases created
  rw [if_neg magic, afterCalls_cons, Request.run]
  rcases second : cdromRead host.read boot₁ (volumeRoot host voldesc) 0 (BitVec.ofNat 32 dirSize) with
    ⟨boot₂, dest | rootdir⟩
  · rw [if_neg magic, second] at created
    cases created
  rw [if_neg magic, second] at created
  obtain ⟨outcome, looked, mapped⟩ := Option.map_eq_some_iff.mp created
  rcases outcome with fault | ⟨boot₃, rr, skip⟩
  · cases mapped
  · cases mapped
    exact rockRidgeCalls_after looked

end

section
variable {D : Type} {read : BlockRead D} {boot : Cache D} {calls : List Request}

/-- Where no read of a sector fails, a cache that can be relied on stays so. -/
theorem guarded_of_filled (works : ∀ phys block, (read phys block 1).2.1 = true)
    (filled : boot.filled = true) : GuardedRun read boot calls := by
  induction calls generalizing boot with
  | nil => trivial
  | cons r rest ih =>
    refine ⟨.inl filled, ih ?_⟩
    exact cdromRead_keeps (fun boot => boot.filled = true)
      (fun _ _ filled => (refill_filled works (.inl filled)).1) (fun _ _ filled => filled) filled

/-- Where no read of a sector fails and the memory of the device does not name sector 16
by chance, every call is guarded. -/
theorem guarded_of_success (works : ∀ phys block, (read phys block 1).2.1 = true)
    (other : boot.sectorInBuf ≠ 16) : GuardedRun read boot (⟨16, 0, BitVec.ofNat 32 voldescSize⟩ :: calls) := by
  refine ⟨.inr fun same => other (Option.some.inj same).symm, guarded_of_filled works ?_⟩
  -- The descriptor is part of one sector, so only the last part of the call reads.
  have skip : skipSectors (0 : Word).toNat 16 0 = (16, 0) := rfl
  have small : ¬BitVec.ofNat 32 voldescSize / 2048 ≠ 0 := by decide
  have some : BitVec.ofNat 32 voldescSize ≠ 0 := by decide
  generalize BitVec.ofNat 32 voldescSize = size at small some ⊢
  let t : Transfer := ⟨16, 0, size, []⟩
  have head : readHead read boot t = (boot, .ok t) := rfl
  have middle : readMiddle read boot t = (boot, .ok t) := if_neg small
  have tail : (readTail read boot t).1 = (refill read boot 16).1 := by
    rw [readTail, if_pos some]
    generalize refill read boot t.block = answer
    obtain ⟨boot', ok⟩ := answer
    cases ok <;> rfl
  have call : (cdromRead read boot 16 0 size).1 = (readTail read boot t).1 := by
    rw [cdromRead, skip]
    dsimp only
    rw [head, andThen, middle, andThen]
  rw [Request.run, call, tail]
  exact (refill_filled works (.inr other)).1

end

section
variable {D : Type} {host : Host D} {fuel : Nat}

/-- Whatever a device's memory held when it was allocated, its calls of `cdrom_read`,
those of `cdrom_create` first, deliver the disc as long as they are guarded, as they are if
no read of a sector fails and that memory does not name sector 16. -/
theorem cd_reads_deliver {fresh dev : CdromBootDev D} {disc : Word → Sector}
    (faithful : Faithful host.read disc) (allocated : fresh.boot.filled = false)
    (created : cdromCreate host fresh fuel = some (.ok (some dev))) :
    afterCalls host.read fresh.boot (createCalls host fresh fuel) = dev.boot ∧
      (∀ later, GuardedRun host.read fresh.boot (createCalls host fresh fuel ++ later) →
        Delivers host.read disc fresh.boot (createCalls host fresh fuel ++ later)) ∧
      ((∀ phys block, (host.read phys block 1).2.1 = true) → fresh.boot.sectorInBuf ≠ 16 →
        ∀ later, GuardedRun host.read fresh.boot (createCalls host fresh fuel ++ later)) := by
  have untouched : Trusted disc fresh.boot := by
    intro filled
    rw [allocated] at filled
    cases filled
  exact ⟨createCalls_after created, fun later guarded => run_delivers faithful untouched guarded,
    fun works other later => guarded_of_success works other⟩

end

/-- A drive without failures. -/
def steadyHost (disc : Word → Sector) : Host Unit where
  read := fun _ block _ => ((), true, fun k => disc (block + BitVec.ofNat 32 k))
  allocates := fun _ => true
  stale := fun _ => 0

/-- A descriptor of a volume with its root directory in sector 17. -/
def descriptor : Sector := fun i => (0 :: chars "CD001" ++ List.replicate 159 0 ++ [17]).getD i 0

/-- A root directory without System Use entries. -/
def plainRoot : Sector := fun i => if i.val = dirLen then 34 else if i.val = dirNamelen then 1 else 0

def bareDisc (block : Word) : Sector := if block = 17 then plainRoot else fun _ => 0

def plainDisc (block : Word) : Sector := if block = 16 then descriptor else bareDisc block

/-- Memory in which `malloc` has left a device with a sector in its buffer. -/
def leftover (tmpbuf : Sector) (sectorInBuf : Word) : CdromBootDev Unit :=
  ⟨⟨(), tmpbuf, sectorInBuf, false⟩, [], [], false, 0⟩

theorem steady_faithful (disc : Word → Sector) : Faithful (steadyHost disc).read disc :=
  fun _ _ _ _ _ _ => rfl

/-- The descriptor of the disc before is taken for that of a disc without one. -/
theorem leftover_descriptor_read :
    ∃ dev dest, cdromCreate (steadyHost bareDisc) (leftover descriptor 16) 1 = some (.ok (some dev)) ∧
      (cdromRead (steadyHost bareDisc).read (leftover descriptor 16).boot 16 0
        (BitVec.ofNat 32 voldescSize)).2 = .ok dest ∧
      dest ≠ slice (discByte bareDisc 16 0) 0 voldescSize := by
  refine ⟨_, _, rfl, rfl, ?_⟩
  decide

/-- A drive that cannot read sector 5, and leaves what it likes in the buffer then. -/
def scratchedHost : Host Unit where
  read := fun _ block _ =>
    if block = 5 then ((), false, fun _ _ => 0xff) else ((), true, fun k => plainDisc (block + BitVec.ofNat 32 k))
  allocates := fun _ => true
  stale := fun _ => 0

private theorem scratched_faithful : Faithful scratchedHost.read plainDisc := by
  intro phys block count success k _
  change (if block = 5 then _ else _ : Unit × Bool × (Nat → Sector)).2.1 = true at success
  change (if block = 5 then _ else _ : Unit × Bool × (Nat → Sector)).2.2 k = _
  by_cases bad : block = 5
  · rw [if_pos bad] at success
    cases success
  · rw [if_neg bad]

/-- Behind the failure another sector is read, and what follows is delivered again. -/
theorem plainDisc_delivered :
    Delivers scratchedHost.read plainDisc (leftover (fun _ => 0) 0).boot
      (createCalls scratchedHost (leftover (fun _ => 0) 0) 1 ++ [⟨5, 0, 1⟩, ⟨16, 0, 1⟩, ⟨17, 0, 1⟩]) := by
  obtain ⟨dev, created⟩ : ∃ dev, cdromCreate scratchedHost (leftover (fun _ => 0) 0) 1 = some (.ok (some dev)) :=
    ⟨_, rfl⟩
  have calls : createCalls scratchedHost (leftover (fun _ => 0) 0) 1 = [⟨16, 0, 189⟩, ⟨17, 0, 33⟩, ⟨17, 34, 0⟩] := by
    rfl
  refine (cd_reads_deliver scratched_faithful rfl created).2.1 _ ?_
  rw [calls]
  exact ⟨.inr (by decide), .inr (by decide), .inl rfl, .inr (by decide), .inr (by decide), .inr (by decide), trivial⟩

end Parthenope.Cdrom
