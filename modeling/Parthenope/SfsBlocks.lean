import Parthenope.SfsObjects

/-! What the walks over a volume make of a block that they have read. They ask for its
checksum first; then a container is searched for an object, a block of the B-tree for a
node. -/
namespace Parthenope.Sfs
open CString Buffer StepLoop

inductive Verdict
  | invalidChecksum
  | accepted
  deriving DecidableEq

/-- What the callers of `calcchecksum` make of a block; none where it is added up forever. -/
def verdict (block : Nat → Byte) (blocksize : Word) (fuel : Nat) : Option Verdict :=
  (calcchecksum block blocksize fuel).map fun checksum =>
    if checksum = 0 then .invalidChecksum else .accepted

/-- A walk goes on with an accepted block, and gives up at another. -/
def afterVerdict {D τ : Type} (d : D) (found : Option Verdict)
    (accepted : Option (D × Option (Nat → Byte)) ⊕ τ) : Option (D × Option (Nat → Byte)) ⊕ τ :=
  match found with
  | none => .inl none
  | some .invalidChecksum => .inl (some (d, none))
  | some .accepted => accepted

/-- `sfs_findobject` once it has accepted a block. -/
def searchContainer {D : Type} (d : D) (block : Nat → Byte) (dirname : List Byte) (type : Byte) (fuel : Nat) :
    Option (D × Option (Nat → Byte)) ⊕ D × Word :=
  if be32 block sbhId ≠ socId then .inl (some (d, none))
  else
    match nested (objectTurn block dirname type) fuel socObject with
    | none => .inl none
    | some (some o) => .inl (some (d, some o))
    | some none => .inr (d, be32 block socNext)

/-- `get_bnode` once it has accepted a block. -/
def searchNodes {D : Type} (d : D) (block : Nat → Byte) (key : Word) (fuel : Nat) :
    Option (D × Option (Nat → Byte)) ⊕ D × Word × Option Word :=
  match run (scanTurn block key) fuel (be16 block btcNodecount - 1) with
  | none => .inl none
  | some tmp =>
    if block btcIsleaf ≠ 0 then .inl (some (d, some (member block tmp.toNat)))
    else .inr (d, be32 (member block tmp.toNat) bnData, some tmp)

/-- What a read of a block leaves: the disk and the buffer. -/
def readBlock {D : Type} (host : Host D) (self : SfsBootDev) (d : D) (link : Word) : D × (Nat → Byte) :=
  ((sfsLoadsector host self d link).1, (sfsLoadsector host self d link).2.2)

/-- A container is what its checksum and its id say it is. -/
structure Container {D : Type} (host : Host D) (boot : SfsBootDev) (d : D) (link : Word) (fuel : Nat) : Prop where
  more : link ≠ 0
  summed : ∃ checksum, checksum ≠ 0 ∧
    calcchecksum (readBlock host boot d link).2 boot.blocksize fuel = some checksum
  id : be32 (readBlock host boot d link).2 sbhId = socId

section
variable {D : Type} {host : Host D} {self : SfsBootDev} {d : D} {link key checksum tmp : Word}
  {block found : Nat → Byte} {dirname : List Byte} {type : Byte} {fuel : Nat} {above : Option Word}

theorem verdict_accepted_iff {blocksize : Word} : verdict block blocksize fuel = some .accepted ↔
    ∃ checksum, checksum ≠ 0 ∧ calcchecksum block blocksize fuel = some checksum := by
  unfold verdict
  rw [Option.map_eq_some_iff]
  constructor
  · rintro ⟨checksum, summed, accepted⟩
    split at accepted
    · cases accepted
    · rename_i nonzero
      exact ⟨checksum, nonzero, summed⟩
  · rintro ⟨checksum, nonzero, summed⟩
    exact ⟨checksum, summed, if_neg nonzero⟩

theorem containerTurn_over : containerTurn host self dirname type fuel (d, 0) = .inl (some (d, none)) := by
  rw [containerTurn, if_neg (not_not_intro rfl)]

theorem containerTurn_verdict (more : link ≠ 0) : containerTurn host self dirname type fuel (d, link) =
    afterVerdict (readBlock host self d link).1 (verdict (readBlock host self d link).2 self.blocksize fuel)
      (searchContainer (readBlock host self d link).1 (readBlock host self d link).2 dirname type fuel) := by
  rw [containerTurn, if_pos more, verdict, readBlock]
  rcases sfsLoadsector host self d link with ⟨d', read, block⟩
  dsimp only
  cases calcchecksum block self.blocksize fuel with
  | none => rfl
  | some checksum =>
    dsimp only [Option.map_some]
    split <;> rfl

theorem containerTurn_unsummed (more : link ≠ 0)
    (endless : calcchecksum (readBlock host self d link).2 self.blocksize fuel = none) :
    containerTurn host self dirname type fuel (d, link) = .inl none := by
  rw [containerTurn_verdict more, verdict, endless]
  rfl

theorem containerTurn_invalid (more : link ≠ 0)
    (summed : calcchecksum (readBlock host self d link).2 self.blocksize fuel = some checksum)
    (invalid : checksum = 0 ∨ be32 (readBlock host self d link).2 sbhId ≠ socId) :
    containerTurn host self dirname type fuel (d, link) =
      .inl (some ((readBlock host self d link).1, none)) := by
  rw [containerTurn_verdict more, verdict, summed, Option.map_some]
  split
  · rfl
  · rename_i valid
    exact if_pos (invalid.resolve_left valid)

private theorem containerTurn_container (container : Container host self d link fuel) :
    containerTurn host self dirname type fuel (d, link) =
      searchContainer (readBlock host self d link).1 (readBlock host self d link).2 dirname type fuel := by
  rw [containerTurn_verdict container.more, verdict_accepted_iff.mpr container.summed]
  rfl

theorem containerTurn_undone (container : Container host self d link fuel)
    (endless : nested (objectTurn (readBlock host self d link).2 dirname type) fuel socObject = none) :
    containerTurn host self dirname type fuel (d, link) = .inl none := by
  rw [containerTurn_container container, searchContainer, if_neg (not_not_intro container.id), endless]

theorem containerTurn_found (container : Container host self d link fuel)
    (ended : nested (objectTurn (readBlock host self d link).2 dirname type) fuel socObject = some (some found)) :
    containerTurn host self dirname type fuel (d, link) =
      .inl (some ((readBlock host self d link).1, some found)) := by
  rw [containerTurn_container container, searchContainer, if_neg (not_not_intro container.id), ended]

theorem containerTurn_next (container : Container host self d link fuel)
    (ended : nested (objectTurn (readBlock host self d link).2 dirname type) fuel socObject = some none) :
    containerTurn host self dirname type fuel (d, link) =
      .inr ((readBlock host self d link).1, be32 (readBlock host self d link).2 socNext) := by
  rw [containerTurn_container container, searchContainer, if_neg (not_not_intro container.id), ended]

theorem bnodeTurn_unread (unread : (sfsLoadsector host self d link).2.1 = false) :
    bnodeTurn host self key fuel (d, link, above) = .inl (some ((readBlock host self d link).1,
      above.map fun tmp => member (readBlock host self d link).2 tmp.toNat)) := by
  rw [bnodeTurn, readBlock]
  cases loaded : sfsLoadsector host self d link with
  | mk d' rest =>
    obtain ⟨result, block⟩ := rest
    rw [loaded] at unread
    obtain rfl : result = false := unread
    rfl

theorem bnodeTurn_verdict (read : (sfsLoadsector host self d link).2.1 = true) :
    bnodeTurn host self key fuel (d, link, above) =
      afterVerdict (readBlock host self d link).1 (verdict (readBlock host self d link).2 self.blocksize fuel)
        (searchNodes (readBlock host self d link).1 (readBlock host self d link).2 key fuel) := by
  rw [bnodeTurn, verdict, readBlock]
  cases loaded : sfsLoadsector host self d link with
  | mk d' rest =>
    obtain ⟨result, block⟩ := rest
    rw [loaded] at read
    obtain rfl : result = true := read
    dsimp only
    cases calcchecksum block self.blocksize fuel with
    | none => rfl
    | some checksum =>
      dsimp only [Option.map_some]
      split <;> rfl

/-- What the search of a node returns is the node of a leaf. -/
theorem searchNodes_returns {d' : D} (ends : searchNodes d block key fuel = .inl (some (d', some found))) :
    ∃ tmp, block btcIsleaf ≠ 0 ∧ run (scanTurn block key) fuel (be16 block btcNodecount - 1) = some tmp ∧
      found = member block tmp.toNat := by
  unfold searchNodes at ends
  cases scanned : run (scanTurn block key) fuel (be16 block btcNodecount - 1) with
  | none =>
    rw [scanned] at ends
    cases ends
  | some tmp =>
    rw [scanned] at ends
    dsimp only at ends
    split at ends
    · rename_i last
      cases ends
      exact ⟨tmp, last, rfl, rfl⟩
    · cases ends

/-- The search of a node gets done, with a node, if and only if the scan ends. -/
theorem searchNodes_done_iff :
    (searchNodes d block key fuel ≠ .inl none ∧
      ∀ r, searchNodes d block key fuel = .inl (some r) → r.2 ≠ none) ↔
      ∃ tmp, run (scanTurn block key) fuel (be16 block btcNodecount - 1) = some tmp := by
  unfold searchNodes
  cases run (scanTurn block key) fuel (be16 block btcNodecount - 1) with
  | none => simp
  | some tmp =>
    dsimp only
    refine iff_of_true ?_ ⟨tmp, rfl⟩
    split
    · refine ⟨by simp, ?_⟩
      rintro r same
      cases same
      exact Option.some_ne_none _
    · simp

/-- After the verdict a walk gets done, with a result, if and only if the block is accepted
and the rest of the turn does. -/
theorem afterVerdict_done_iff {τ : Type} {v : Option Verdict} (rest : Option (D × Option (Nat → Byte)) ⊕ τ) :
    (afterVerdict d v rest ≠ .inl none ∧ ∀ r, afterVerdict d v rest = .inl (some r) → r.2 ≠ none) ↔
      v = some .accepted ∧ rest ≠ .inl none ∧ ∀ r, rest = .inl (some r) → r.2 ≠ none := by
  rcases v with _ | _ | _ <;> simp [afterVerdict]

/-- A turn at a valid block, with the node that the scan finds. -/
theorem bnodeTurn_valid (d : D) (bnode : Option Word)
    (read : (sfsLoadsector host self d link).2 = (true, block))
    (summed : calcchecksum block self.blocksize fuel = some checksum) (valid : checksum ≠ 0)
    (scanned : run (scanTurn block key) fuel (be16 block btcNodecount - 1) = some tmp) :
    bnodeTurn host self key fuel (d, link, bnode) =
      if block btcIsleaf ≠ 0 then
        .inl (some ((sfsLoadsector host self d link).1, some (member block tmp.toNat)))
      else .inr ((sfsLoadsector host self d link).1, be32 (member block tmp.toNat) bnData, some tmp) := by
  have buffer : (readBlock host self d link).2 = block := congrArg Prod.snd read
  rw [bnodeTurn_verdict (congrArg Prod.fst read), buffer, verdict_accepted_iff.mpr ⟨checksum, valid, summed⟩,
    afterVerdict, searchNodes, scanned]
  rfl

end

end Parthenope.Sfs
