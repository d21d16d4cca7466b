import Parthenope.SfsTree

/-! Reads that fail while `get_bnode` descends the B-tree. The descent ends there, with the
node of the block above still held, in a buffer that has been read into since. -/
namespace Parthenope.Sfs
open CString Buffer StepLoop

/-- The node that the scan of a leaf finds, the leaf being read at this state of the descent. -/
def LeafNode {D : Type} (host : Host D) (self : SfsBootDev) (key : Word) (s : D × Word × Option Word)
    (node : Nat → Byte) : Prop :=
  ∃ block fuel tmp, (sfsLoadsector host self s.1 s.2.1).2 = (true, block) ∧ block btcIsleaf ≠ 0 ∧
    run (scanTurn block key) fuel (be16 block btcNodecount - 1) = some tmp ∧ node = member block tmp.toNat

/-- The descent for a key comes to a state. -/
def Descends {D : Type} (host : Host D) (self : SfsBootDev) (d : D) (key : Word) (s : D × Word × Option Word) :
    Prop :=
  ∃ fuel, Reaches (bnodeTurn host self key fuel) (d, self.extentbnoderoot, none) s

/-- Whatever reads fail, `get_bnode` returns nodes of leaves only, and NULL where a read of
the descent fails. -/
structure NodesOfLeaves {D : Type} (host : Host D) (boot : SfsBootDev) (d : D) (key : Word) : Prop where
  leaf : ∀ fuel d' node, getBnode host boot d key fuel = some (d', some node) →
    ∃ s, Descends host boot d key s ∧ LeafNode host boot key s node
  unread : ∀ s, Descends host boot d key s → (sfsLoadsector host boot s.1 s.2.1).2.1 = false →
    ∃ fuel d', getBnode host boot d key fuel = some (d', none)

section
variable {D : Type} {host : Host D} {self : SfsBootDev} {d d' : D} {key link : Word} {fuel : Nat}
  {above : Option Word} {s : D × Word × Option Word} {found : Option (Nat → Byte)} {node : Nat → Byte}

/-- Where a block has been read, a node that is returned is that of a leaf. -/
theorem bnodeTurn_returns (read : (sfsLoadsector host self d link).2.1 = true)
    (ends : bnodeTurn host self key fuel (d, link, above) = .inl (some (d', some node))) :
    LeafNode host self key (d, link, above) node := by
  rw [bnodeTurn_verdict read] at ends
  cases found : verdict (readBlock host self d link).2 self.blocksize fuel with
  | none =>
    rw [found] at ends
    cases ends
  | some v =>
    rw [found] at ends
    cases v with
    | invalidChecksum => cases ends
    | accepted =>
      obtain ⟨tmp, last, scanned, same⟩ := searchNodes_returns ends
      exact ⟨(readBlock host self d link).2, fuel, tmp, Prod.ext read rfl, last, scanned, same⟩

/-- Failing reads are told if and only if every read below the root succeeds. -/
theorem nodesOfLeaves_iff (host : Host D) (self : SfsBootDev) (d : D) (key : Word) :
    NodesOfLeaves host self d key ↔
      ∀ d' link tmp, Descends host self d key (d', link, some tmp) →
        (sfsLoadsector host self d' link).2.1 = true := by
  constructor
  · intro nodes d' link tmp descends
    by_contra failed
    have unread := Bool.eq_false_of_not_eq_true failed
    obtain ⟨fuel, reached⟩ := descends
    obtain ⟨n, d'', null⟩ := nodes.unread _ ⟨fuel, reached⟩ unread
    obtain ⟨m, held⟩ := nested_reaches bnodeTurn_steady reached (bnodeTurn_unread unread)
    cases nested_unique bnodeTurn_steady null held
  · intro reads
    constructor
    · intro fuel d' node found
      obtain ⟨⟨d'', link, above⟩, reached, ends⟩ := nested_exit found
      refine ⟨_, ⟨fuel, reached⟩, bnodeTurn_returns ?_ ends⟩
      by_contra failed
      have unread := Bool.eq_false_of_not_eq_true failed
      rw [bnodeTurn_unread unread] at ends
      cases above with
      | none => cases ends
      | some tmp => exact failed (reads _ _ _ ⟨fuel, reached⟩)
    · rintro ⟨d', link, above⟩ ⟨fuel, reached⟩ unread
      cases above with
      | none =>
        obtain ⟨n, null⟩ := nested_reaches bnodeTurn_steady reached (bnodeTurn_unread unread)
        exact ⟨n, _, null⟩
      | some tmp =>
        have read := reads _ _ _ ⟨fuel, reached⟩
        rw [unread] at read
        cases read

end

/-- The tree of two levels, with a block below the root that cannot be read. -/
def brokenHost : Host Unit where
  loadsector := fun _ sectn _ _ =>
    ((), sectn ≠ 20, fun i => if sectn = 20 then 0 else treeSectors (sectn + BitVec.ofNat 32 (i / 512)) (i % 512))
  stale := fun _ => 0

/-- A node is returned all the same, out of what the buffer is left with. -/
theorem broken_node_returned : ¬NodesOfLeaves brokenHost smallVolume () 3 := by
  intro nodes
  have turned : (bnodeTurn brokenHost smallVolume 3 200 ((), 2, none)).getRight? = some ((), 20, some 16) := by
    decide +kernel
  have reached : Descends brokenHost smallVolume () 3 ((), 20, some 16) :=
    ⟨200, .turn (.start _) (Sum.getRight?_eq_some_iff.mp turned)⟩
  obtain ⟨fuel, d, null⟩ := nodes.unread _ reached (by decide)
  have found : (getBnode brokenHost smallVolume () 3 200).any (fun r => r.2.isSome) = true := by decide +kernel
  obtain ⟨r, held, some⟩ := (Option.any_eq_true _ _).mp found
  cases nested_unique bnodeTurn_steady null held
  cases some

end Parthenope.Sfs
