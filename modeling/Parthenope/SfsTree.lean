import Parthenope.SearchTree
import Parthenope.SfsBlocks
import Parthenope.SfsLoad

/-! The extents of a volume as a search tree. `get_bnode` looks through the nodes of a
block from the last one on, whose size the block tells, and finds the extent with the
greatest key that is not greater than the one searched. -/
namespace Parthenope.Sfs
open CString Buffer StepLoop SearchTree

def nodeKey (node : Nat → Byte) : Nat := (be32 node bnKey).toNat

def nodeData (node : Nat → Byte) : Word := be32 node bnData

def nodePlace (block : Nat → Byte) (i : Nat) : Nat := btcBnode + i * (block btcNodesize).toNat

/-- The nodes of a block. -/
def blockNodes (block : Nat → Byte) : List (Nat → Byte) :=
  (List.range (be16 block btcNodecount).toNat).map fun i => member block (nodePlace block i)

/-- A block of the tree that can be read and has a checksum other than zero. -/
def TreeBlock {D : Type} (host : Host D) (self : SfsBootDev) (link : Word) (leaf : Bool)
    (nodes : List (Nat → Byte)) : Prop :=
  ∃ block, (∀ d, (sfsLoadsector host self d link).2 = (true, block)) ∧
    (∃ fuel checksum, calcchecksum block self.blocksize fuel = some checksum ∧ checksum ≠ 0) ∧
    leaf = decide (block btcIsleaf ≠ 0) ∧ nodes = blockNodes block

/-- A well-formed tree from a block on, with the nodes of its leaves. -/
abbrev BTree {D : Type} (host : Host D) (self : SfsBootDev) : Word → List (Nat → Byte) → Prop :=
  Tree (TreeBlock host self) nodeKey nodeData

section
variable {D : Type} {host : Host D} {self : SfsBootDev} {d : D} {block leaf : Nat → Byte} {key link : Word}
  {i : Nat} {leaves nodes : List (Nat → Byte)} {bnode : Option Word}

private theorem scanTurn_at (small : i < 2 ^ 16) :
    scanTurn block key (BitVec.ofNat 16 i) =
      if nodeKey (member block (nodePlace block i)) ≤ key.toNat then .inl (BitVec.ofNat 32 (nodePlace block i))
      else .inr (BitVec.ofNat 16 i - 1) := by
  have index : (BitVec.ofNat 16 i).toNat = i := by
    rw [BitVec.toNat_ofNat, Nat.mod_eq_of_lt small]
  rw [scanTurn, index]
  rfl

private theorem nodePlace_toNat (small : i < 2 ^ 16) :
    (BitVec.ofNat 32 (nodePlace block i)).toNat = nodePlace block i := by
  have size := (block btcNodesize).isLt
  have : i * (block btcNodesize).toNat ≤ 2 ^ 16 * 2 ^ 8 := Nat.mul_le_mul (Nat.le_of_lt small) (Nat.le_of_lt size)
  rw [BitVec.toNat_ofNat, Nat.mod_eq_of_lt]
  rw [nodePlace, btcBnode]
  omega

/-- The scan from a node on finds the last one up to there with a key that is not greater. -/
theorem scan_floor (small : i < 2 ^ 16)
    (found : floor nodeKey key.toNat ((List.range (i + 1)).map fun j => member block (nodePlace block j)) =
      some leaf) :
    ∃ fuel tmp, run (scanTurn block key) fuel (BitVec.ofNat 16 i) = some tmp ∧ member block tmp.toNat = leaf := by
  induction i with
  | zero =>
    rw [floor, List.range_one, List.map_singleton, List.reverse_singleton, List.find?_singleton] at found
    split at found
    · rename_i le
      cases found
      refine ⟨1, _, run_ends ((scanTurn_at small).trans (if_pos (of_decide_eq_true le))), ?_⟩
      rw [nodePlace_toNat small]
    · cases found
  | succ i ih =>
    rw [floor, List.range_succ, List.map_append, List.map_singleton, List.reverse_concat, List.find?_cons] at found
    by_cases le : nodeKey (member block (nodePlace block (i + 1))) ≤ key.toNat
    · rw [decide_eq_true le] at found
      cases found
      refine ⟨1, _, run_ends ((scanTurn_at small).trans (if_pos le)), ?_⟩
      rw [nodePlace_toNat small]
    · rw [decide_eq_false le] at found
      obtain ⟨fuel, tmp, scanned, same⟩ := ih (by omega) found
      have before : BitVec.ofNat 16 (i + 1) - 1 = BitVec.ofNat 16 i := by
        rw [BitVec.ofNat_add]
        exact BitVec.add_sub_cancel _ _
      have turns : scanTurn block key (BitVec.ofNat 16 (i + 1)) = .inr (BitVec.ofNat 16 i) := by
        rw [scanTurn_at small, if_neg le, before]
      refine ⟨fuel + 1, tmp, ?_, same⟩
      rw [run_turns turns]
      exact scanned

/-- The scan of a block finds the last of its nodes with a key that is not greater. -/
theorem scan_block (found : floor nodeKey key.toNat (blockNodes block) = some leaf) :
    ∃ fuel tmp, run (scanTurn block key) fuel (be16 block btcNodecount - 1) = some tmp ∧
      member block tmp.toNat = leaf := by
  cases count : (be16 block btcNodecount).toNat with
  | zero =>
    rw [blockNodes, count] at found
    cases found
  | succ i =>
    have small := (be16 block btcNodecount).isLt
    have last : be16 block btcNodecount - 1 = BitVec.ofNat 16 i := by
      apply BitVec.eq_of_toNat_eq
      rw [BitVec.toNat_sub, count, BitVec.toNat_ofNat]
      change (2 ^ 16 - 1 + (i + 1)) % 2 ^ 16 = i % 2 ^ 16
      omega
    rw [blockNodes, count] at found
    rw [last]
    exact scan_floor (by omega) found

/-- `get_bnode` goes where the search of the tree leads. -/
theorem bnode_leads (leads : Leads (TreeBlock host self) nodeKey nodeData key.toNat link leaf) (d : D)
    (bnode : Option Word) :
    ∃ fuel d', nested (bnodeTurn host self key) fuel (d, link, bnode) = some (d', some leaf) := by
  have turns {link : Word} {isleaf : Bool} {nodes : List (Nat → Byte)} {node : Nat → Byte}
      (holds : TreeBlock host self link isleaf nodes) (found : floor nodeKey key.toNat nodes = some node)
      (d : D) (bnode : Option Word) :
      ∃ fuel d' tmp, bnodeTurn host self key fuel (d, link, bnode) =
        if isleaf = true then .inl (some (d', some node)) else .inr (d', nodeData node, some tmp) := by
    obtain ⟨block, reads, ⟨n, checksum, summed, valid⟩, last, rfl⟩ := holds
    obtain ⟨m, tmp, scanned, rfl⟩ := scan_block found
    refine ⟨max n m, (sfsLoadsector host self d link).1, tmp, ?_⟩
    rw [bnodeTurn_valid d bnode (reads d) (checksum_more summed (le_max_left n m)) valid
      (run_mono scanned (le_max_right n m)), last]
    simp only [decide_eq_true_eq]
    rfl
  induction leads generalizing d bnode with
  | leaf holds found =>
    obtain ⟨fuel, d', tmp, ends⟩ := turns holds found d bnode
    exact ⟨_, d', nested_now bnodeTurn_steady ends⟩
  | inner holds found _ ih =>
    obtain ⟨fuel, d', tmp, further⟩ := turns holds found d bnode
    obtain ⟨m, d'', rest⟩ := ih d' (some tmp)
    exact ⟨_, d'', nested_before bnodeTurn_steady further rest⟩

/-- `get_bnode` finds the extent with the greatest key that is not greater than the one
searched, and so every extent of the tree by its own key. -/
theorem getBnode_finds_greatest (tree : BTree host self self.extentbnoderoot leaves)
    (reaches : ∃ node ∈ leaves, be32 node bnKey ≤ key) (d : D) :
    ∃ fuel d' node, getBnode host self d key fuel = some (d', some node) ∧ node ∈ leaves ∧
      be32 node bnKey ≤ key ∧ (∀ other ∈ leaves, be32 other bnKey ≤ key → be32 other bnKey ≤ be32 node bnKey) ∧
      ∀ other ∈ leaves, be32 other bnKey = key → other = node := by
  obtain ⟨least, member, small⟩ := reaches
  obtain ⟨node, leads, isFloor⟩ := tree.leads member (BitVec.le_def.mp small)
  obtain ⟨fuel, d', found⟩ := bnode_leads leads d none
  refine ⟨fuel, d', node, found, isFloor.member, BitVec.le_def.mpr isFloor.le, ?_, ?_⟩
  · intro other member' below
    exact BitVec.le_def.mpr (isFloor.greatest other member' (BitVec.le_def.mp below))
  · intro other member' same
    exact (isFloor.unique tree.sorted member' (congrArg BitVec.toNat same)).symm

end

/-- A tree of two levels with extents from the blocks 3, 5 and 9 on. -/
def rootNodes : List Byte :=
  List.replicate 12 0 ++ [0, 2, 0, 8] ++ [0, 0, 0, 3, 0, 0, 0, 20] ++ [0, 0, 0, 9, 0, 0, 0, 21]

def leftNodes : List Byte :=
  List.replicate 12 0 ++ [0, 2, 1, 14] ++ [0, 0, 0, 3, 0, 0, 0, 5, 0, 0, 0, 0, 0, 1] ++
    [0, 0, 0, 5, 0, 0, 0, 9, 0, 0, 0, 0, 0, 1]

def rightNodes : List Byte :=
  List.replicate 12 0 ++ [0, 1, 1, 14] ++ [0, 0, 0, 9, 0, 0, 0, 0, 0, 0, 0, 0, 0, 1]

def treeSectors (sectn : Word) (i : Nat) : Byte :=
  if sectn = 2 then padded 32 rootNodes i
  else if sectn = 20 then padded 44 leftNodes i
  else if sectn = 21 then padded 30 rightNodes i
  else 0

def treeBlock (link : Word) : Nat → Byte := (sfsLoadsector (steadyHost treeSectors) smallVolume () link).2.2

private theorem treeBlock_holds (link : Word) (isleaf : Bool)
    (summed : (calcchecksum (treeBlock link) smallVolume.blocksize 200).any (· != 0) = true)
    (last : isleaf = decide (treeBlock link btcIsleaf ≠ 0)) :
    TreeBlock (steadyHost treeSectors) smallVolume link isleaf (blockNodes (treeBlock link)) := by
  obtain ⟨checksum, same, valid⟩ := (Option.any_eq_true _ _).mp summed
  exact ⟨treeBlock link, fun ⟨⟩ => rfl, ⟨200, checksum, same, bne_iff_ne.mp valid⟩, last, rfl⟩

private theorem treeBlock_nodes (link : Word) (count : Nat)
    (counted : (be16 (treeBlock link) btcNodecount).toNat = count) :
    blockNodes (treeBlock link) =
      (List.range count).map fun i => member (treeBlock link) (nodePlace (treeBlock link) i) := by
  rw [blockNodes, counted]

private theorem rootNodes_listed : ∃ first second, blockNodes (treeBlock 2) = [first, second] ∧
    nodeKey first = 3 ∧ nodeData first = 20 ∧ nodeKey second = 9 ∧ nodeData second = 21 :=
  ⟨_, _, treeBlock_nodes 2 2 (by decide), by decide, by decide,
    by decide, by decide⟩

private theorem leftNodes_listed : ∃ first second, blockNodes (treeBlock 20) = [first, second] ∧
    nodeKey first = 3 ∧ nodeKey second = 5 :=
  ⟨_, _, treeBlock_nodes 20 2 (by decide), by decide, by decide⟩

private theorem rightNodes_listed : ∃ only, blockNodes (treeBlock 21) = [only] ∧ nodeKey only = 9 :=
  ⟨_, treeBlock_nodes 21 1 (by decide), by decide⟩

/-- What is between the extents is found with the extent before it, over both levels. -/
theorem twoLevels_found :
    ∃ fuel d node, getBnode (steadyHost treeSectors) smallVolume () 7 fuel = some (d, some node) ∧
      be32 node bnKey = 5 := by
  obtain ⟨a, b, root, keyA, dataA, keyB, dataB⟩ := rootNodes_listed
  obtain ⟨three, five, left, key3, key5⟩ := leftNodes_listed
  obtain ⟨nine, right, key9⟩ := rightNodes_listed
  have rootHolds := treeBlock_holds 2 false (by decide +kernel) (by decide)
  have leftHolds := treeBlock_holds 20 true (by decide +kernel) (by decide)
  have rightHolds := treeBlock_holds 21 true (by decide +kernel) (by decide)
  rw [root] at rootHolds
  rw [left] at leftHolds
  rw [right] at rightHolds
  let below := fun n => if nodeKey n = 3 then [three, five] else [nine]
  have belowA : below a = [three, five] := if_pos keyA
  have belowB : below b = [nine] := if_neg (by omega)
  have tree : BTree (steadyHost treeSectors) smallVolume smallVolume.extentbnoderoot ([a, b].flatMap below) := by
    refine .inner rootHolds (List.cons_ne_nil _ _) ?_ ?_ ?_ ?_
    · simp [keyA, keyB]
    · intro n inside
      rcases List.mem_pair.mp inside with rfl | rfl
      · rw [dataA, belowA]
        exact .leaf leftHolds (List.cons_ne_nil _ _) (by simp [key3, key5])
      · rw [dataB, belowB]
        exact .leaf rightHolds (List.cons_ne_nil _ _) (List.pairwise_singleton _ _)
    · intro n inside
      rcases List.mem_pair.mp inside with rfl | rfl
      · rw [belowA, keyA, ← key3]
        rfl
      · rw [belowB, keyB, ← key9]
        rfl
    · simp [belowA, keyB, key3, key5]
  rw [List.flatMap_cons, List.flatMap_cons, List.flatMap_nil, belowA, belowB] at tree
  have below7 {node : Nat → Byte} (le : nodeKey node ≤ 7) : be32 node bnKey ≤ (7 : Word) := BitVec.le_def.mpr le
  obtain ⟨fuel, d, node, found, member, small, greatest, -⟩ :=
    getBnode_finds_greatest tree ⟨three, List.mem_cons_self, below7 (by omega)⟩ ()
  refine ⟨fuel, d, node, found, BitVec.eq_of_toNat_eq ?_⟩
  have le : nodeKey node ≤ 7 := BitVec.le_def.mp small
  have ge : nodeKey five ≤ nodeKey node := BitVec.le_def.mp (greatest five (by simp) (below7 (by omega)))
  change nodeKey node = 5
  have cases : node = three ∨ node = five ∨ node = nine := by simpa using member
  rcases cases with rfl | rfl | rfl <;> omega

end Parthenope.Sfs
