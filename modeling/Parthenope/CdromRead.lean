import Parthenope.CdromCache

/-! Reads from a drive that does not fail, through a cache that holds the sector it
names. Whether a refill has succeeded makes no difference then: every read delivers
the disc and leaves such a cache. -/
namespace Parthenope.Cdrom
open CString Buffer StepLoop

/-- A drive that reads the disc. -/
structure Serves {D : Type} (read : BlockRead D) (disc : Word → Sector) : Prop where
  faithful : Faithful read disc
  works : ∀ phys block count, (read phys block count).2.1 = true

/-- A cache with the sector in `tmpbuf` that `sector_in_buf` names. -/
def Coherent {D : Type} (disc : Word → Sector) (boot : Cache D) : Prop :=
  boot.tmpbuf = disc boot.sectorInBuf

/-- The bytes of a device by their distance from its beginning. -/
def deviceByte (disc : Word → Sector) (n : Nat) : Byte := (disc (BitVec.ofNat 32 (n / 2048))).byte n

section
variable {D : Type} {read : BlockRead D} {disc : Word → Sector} {boot : Cache D}

/-- A cache with the same contents that counts as filled. -/
def asFilled (boot : Cache D) : Cache D := { boot with filled := true }

private theorem refill_serves (serves : Serves read disc) (boot : Cache D) (block : Word) :
    ∃ boot', refill read boot block = (boot', true) ∧
      refill read (asFilled boot) block = (asFilled boot', true) := by
  have success := serves.works boot.phys block 1
  unfold refill
  by_cases other : boot.sectorInBuf ≠ block
  · rw [if_pos other, if_pos (show (asFilled boot).sectorInBuf ≠ block from other)]
    have same : (asFilled boot).phys = boot.phys := rfl
    rw [same]
    generalize read boot.phys block 1 = answer at success ⊢
    obtain ⟨phys, ok, buffer⟩ := answer
    cases success
    exact ⟨_, rfl, rfl⟩
  · rw [if_neg other, if_neg (show ¬(asFilled boot).sectorInBuf ≠ block from other)]
    exact ⟨boot, rfl, rfl⟩

private theorem readHead_serves (serves : Serves read disc) (boot : Cache D) (t : Transfer) :
    ∃ boot' t', readHead read boot t = (boot', .ok t') ∧
      readHead read (asFilled boot) t = (asFilled boot', .ok t') := by
  obtain ⟨boot', refilled, refilled'⟩ := refill_serves serves boot t.block
  unfold readHead
  split
  · rw [refilled, refilled']
    exact ⟨boot', _, rfl, rfl⟩
  · exact ⟨boot, t, rfl, rfl⟩

private theorem readTail_serves (serves : Serves read disc) (boot : Cache D) (t : Transfer) :
    ∃ boot' t', readTail read boot t = (boot', .ok t') ∧
      readTail read (asFilled boot) t = (asFilled boot', .ok t') := by
  obtain ⟨boot', refilled, refilled'⟩ := refill_serves serves boot t.block
  unfold readTail
  split
  · rw [refilled, refilled']
    exact ⟨boot', _, rfl, rfl⟩
  · exact ⟨boot, t, rfl, rfl⟩

private theorem readMiddle_serves (serves : Serves read disc) (boot : Cache D) (t : Transfer) :
    ∃ boot' t', readMiddle read boot t = (boot', .ok t') ∧
      readMiddle read (asFilled boot) t = (asFilled boot', .ok t') := by
  have success := serves.works boot.phys t.block (t.length / 2048).toNat
  have same : (asFilled boot).phys = boot.phys := rfl
  unfold readMiddle
  rw [same]
  dsimp only
  split
  · generalize read boot.phys t.block (t.length / 2048).toNat = answer at success ⊢
    obtain ⟨phys, ok, buffer⟩ := answer
    cases success
    exact ⟨_, _, rfl, rfl⟩
  · exact ⟨boot, t, rfl, rfl⟩

/-- Every read delivers the disc and leaves a coherent cache. -/
theorem cdromRead_serves (serves : Serves read disc) (coherent : Coherent disc boot)
    (block offset length : Word) :
    ∃ boot', Coherent disc boot' ∧
      cdromRead read boot block offset length = (boot', .ok (slice (discByte disc block offset) 0 length.toNat)) := by
  have both : ∃ boot' dest, cdromRead read boot block offset length = (boot', .ok dest) ∧
      cdromRead read (asFilled boot) block offset length = (asFilled boot', .ok dest) := by
    unfold cdromRead
    rcases skipSectors offset.toNat block offset with ⟨first, within⟩
    obtain ⟨boot₁, t₁, head, head'⟩ := readHead_serves serves boot ⟨first, within, length, []⟩
    obtain ⟨boot₂, t₂, middle, middle'⟩ := readMiddle_serves serves boot₁ t₁
    obtain ⟨boot₃, t₃, tail, tail'⟩ := readTail_serves serves boot₂ t₂
    refine ⟨boot₃, t₃.dest, ?_, ?_⟩
    · dsimp only
      rw [head, andThen, middle, andThen, tail]
      rfl
    · dsimp only
      rw [head', andThen, middle', andThen, tail']
      rfl
  obtain ⟨boot', dest, answer, answer'⟩ := both
  have trusted : Trusted disc (asFilled boot) := fun _ => coherent
  have kept : Trusted disc (cdromRead read (asFilled boot) block offset length).1 :=
    cdromRead_trusted serves.faithful trusted
  have delivered := cdromRead_delivers serves.faithful trusted (.inl rfl) (congrArg Prod.snd answer')
  rw [answer'] at kept
  exact ⟨boot', kept rfl, delivered ▸ answer⟩

private theorem discByte_device (block offset : Word) (i : Nat) :
    discByte disc block offset i = deviceByte disc (block.toNat * 2048 + offset.toNat + i) := by
  have sector : (block.toNat * 2048 + offset.toNat + i) / 2048 = block.toNat + (offset.toNat + i) / 2048 := by
    omega
  have place : (block.toNat * 2048 + offset.toNat + i) % 2048 = (offset.toNat + i) % 2048 := by omega
  rw [discByte, deviceByte, sector, BitVec.ofNat_add, BitVec.ofNat_toNat, BitVec.setWidth_eq, Sector.byte,
    Sector.byte]
  simp only [place]

/-- A read from a coherent device returns 0, writes as many bytes as were asked for, the
device's from the place that was asked for on, and leaves the device coherent. -/
theorem coherent_read_delivers (serves : Serves read disc) (coherent : Coherent disc boot)
    (block offset length : Word) :
    ∃ boot' dest, cdromRead read boot block offset length = (boot', .ok dest) ∧
      dest = slice (deviceByte disc) (block.toNat * 2048 + offset.toNat) length.toNat ∧ Coherent disc boot' := by
  obtain ⟨boot', coherent', answer⟩ := cdromRead_serves serves coherent block offset length
  refine ⟨boot', _, answer, slice_congr fun i _ => ?_, coherent'⟩
  rw [Nat.zero_add, discByte_device]

end

/-- Across the end of the sector in the cache. -/
theorem descriptor_read :
    ∃ boot' dest, cdromRead (steadyHost plainDisc).read (leftover descriptor 16).boot 16 2000 100 =
        (boot', .ok dest) ∧
      dest = slice (deviceByte plainDisc) 34768 100 ∧ Coherent plainDisc boot' := by
  have coherent : Coherent plainDisc (leftover descriptor 16).boot := rfl
  exact coherent_read_delivers ⟨steady_faithful plainDisc, fun _ _ _ => rfl⟩ coherent 16 2000 100

end Parthenope.Cdrom
