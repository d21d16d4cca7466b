import Mathlib.Data.Finite.Prod
import Mathlib.Data.Fintype.Pi
import Parthenope.SfsBlocks
import Parthenope.SfsLoad

/-! When loading a file from a Smart File System comes to an end. The walks over the
containers of a directory, down the B-tree and along the extents of a file are loops
over finitely many states: each ends if its turns get done and it comes back to none. -/
namespace Parthenope.Sfs
open CString Buffer StepLoop

section
variable {block : Nat → Byte} {blocksize key : Word} {i : BitVec 16}

theorem checksumTurn_next {s t : Nat × Word × Word} (turns : checksumTurn block s = .inr t) :
    0 < s.2.2.toNat ∧ t.1 = s.1 + 4 ∧ t.2.2 = s.2.2 - 4 := by
  obtain ⟨data, checksum, left⟩ := s
  rw [checksumTurn] at turns
  split at turns
  · rename_i positive
    cases turns
    exact ⟨BitVec.lt_def.mp positive, rfl, rfl⟩
  · cases turns

/-- The checksum is added up if and only if the size left comes to zero. -/
theorem checksum_ends_iff :
    (∃ fuel r, calcchecksum block blocksize fuel = some r) ↔ blocksize.toNat % 4 = 0 := by
  have four (x : Word) : (x - 4).toNat = (x.toNat + (2 ^ 32 - 4)) % 2 ^ 32 := by
    rw [BitVec.toNat_sub, Nat.add_comm]
    rfl
  have keeps (s t : Nat × Word × Word) (turns : checksumTurn block s = .inr t) :
      t.2.2.toNat % 4 = s.2.2.toNat % 4 := by
    rw [(checksumTurn_next turns).2.2, four]
    omega
  constructor
  · rintro ⟨fuel, r, summed⟩
    obtain ⟨⟨data, checksum, left⟩, reached, ends⟩ := run_exit summed
    have same : left.toNat % 4 = blocksize.toNat % 4 := by
      refine reached.invariant (fun s => s.2.2.toNat % 4 = blocksize.toNat % 4) ?_ rfl
      exact fun s t inv turns => (keeps s t turns).trans inv
    rw [checksumTurn] at ends
    split at ends
    · cases ends
    · rename_i zero
      have none : ¬0 < left.toNat := fun positive => zero (BitVec.lt_def.mpr positive)
      omega
  · intro whole
    refine ⟨blocksize.toNat + 1, run_terminates (checksumTurn block) (fun s => s.2.2.toNat % 4 = 0)
      (fun s => s.2.2.toNat) ?_ ?_ whole (Nat.lt_succ_self _)⟩
    · exact fun s t inv turns => (keeps s t turns).trans inv
    · intro s t inv turns
      obtain ⟨positive, -, same⟩ := checksumTurn_next turns
      have := s.2.2.isLt
      rw [same, four]
      omega

/-- The scan of a node goes through all numbers of 16 bits, and ends at one of them if
there is a key not greater than the one searched. -/
theorem scan_ends_iff :
    (∃ fuel r, run (scanTurn block key) fuel i = some r) ↔
      ∃ j : BitVec 16, be32 (member block (btcBnode + j.toNat * (block btcNodesize).toNat)) bnKey ≤ key := by
  constructor
  · rintro ⟨fuel, r, scanned⟩
    obtain ⟨j, -, ends⟩ := run_exit scanned
    refine ⟨j, ?_⟩
    rw [scanTurn] at ends
    split at ends
    · assumption
    · cases ends
  · rintro ⟨j, below⟩
    refine ⟨(i - j).toNat + 1, run_terminates (scanTurn block key) (fun _ => True)
      (fun i => (i - j).toNat) (fun _ _ _ _ => trivial) ?_ trivial (Nat.lt_succ_self _)⟩
    intro i t _ turns
    rw [scanTurn] at turns
    split at turns
    · cases turns
    · rename_i above
      cases turns
      have apart : i - j ≠ 0 := by
        intro zero
        exact above (sub_eq_zero.mp zero ▸ below)
      have positive : 0 < (i - j).toNat := BitVec.lt_def.mp ((BitVec.pos_iff_ne_zero _).mpr apart)
      have one : (1 : BitVec 16) ≤ i - j := BitVec.le_def.mpr positive
      have less : (i - j - 1).toNat = (i - j).toNat - 1 := BitVec.toNat_sub_of_le one
      rw [sub_right_comm, less]
      omega

end

variable {D : Type}

/-- The turn for a container gets done: its size is a number of words, and if it is a
container its objects come to an end. -/
def ContainerSound (host : Host D) (self : SfsBootDev) (dirname : List Byte) (type : Byte) (s : D × Word) : Prop :=
  s.2 ≠ 0 → self.blocksize.toNat % 4 = 0 ∧
    ∀ fuel, Container host self s.1 s.2 fuel → ObjectsEnd (readBlock host self s.1 s.2).2 dirname type socObject

/-- The search of a directory comes back to no container, and each of them is sound. -/
def DirectorySound (host : Host D) (self : SfsBootDev) (dirname : List Byte) (type : Byte) (s : D × Word) : Prop :=
  ∀ fuel, Forward (containerTurn host self dirname type fuel) s ∧
    ∀ t, Reaches (containerTurn host self dirname type fuel) s t → ContainerSound host self dirname type t

/-- Every directory along a path can be searched. -/
def PathSound (host : Host D) (self : SfsBootDev) : List (List Byte) → D → (Nat → Byte) → Prop
  | [], _, _ => True
  | [filename], d, root => DirectorySound host self filename 0 (d, be32 root soFirstdirblock)
  | directory :: rest, d, root =>
    DirectorySound host self directory otypeDir (d, be32 root soFirstdirblock) ∧
    ∀ fuel d' o, sfsFindobject host self d root directory otypeDir fuel = some (d', some o) →
      PathSound host self rest d' o

section
variable {host : Host D} {self : SfsBootDev} {dirname : List Byte} {type : Byte} {s : D × Word} {d : D}
  {cwd root : Nat → Byte} {names : List (List Byte)} {link : Word} {fuel more : Nat}

theorem Container.same (container : Container host self d link fuel)
    (ended : calcchecksum (readBlock host self d link).2 self.blocksize more ≠ none) :
    Container host self d link more := by
  obtain ⟨nonzero, ⟨checksum, valid, summed⟩, id⟩ := container
  obtain ⟨other, summed'⟩ := Option.ne_none_iff_exists'.mp ended
  cases run_unique summed summed'
  exact ⟨nonzero, ⟨checksum, valid, summed'⟩, id⟩

private theorem Container.keep (container : Container host self d link fuel) (enough : fuel ≤ more) :
    Container host self d link more := by
  obtain ⟨checksum, -, summed⟩ := container.summed
  refine container.same ?_
  rw [checksum_more summed enough]
  exact Option.some_ne_none checksum

private theorem containerTurn_done_iff :
    (∃ fuel, containerTurn host self dirname type fuel s ≠ .inl none) ↔
      ContainerSound host self dirname type s := by
  obtain ⟨d, link⟩ := s
  constructor
  · rintro ⟨fuel, done⟩ nonzero
    have summed : calcchecksum (readBlock host self d link).2 self.blocksize fuel ≠ none :=
      fun endless => done (containerTurn_unsummed nonzero endless)
    obtain ⟨checksum, ended⟩ := Option.ne_none_iff_exists'.mp summed
    refine ⟨checksum_ends_iff.mp ⟨fuel, checksum, ended⟩, fun n container => ?_⟩
    cases walked : nested (objectTurn (readBlock host self d link).2 dirname type) fuel socObject with
    | none => exact absurd (containerTurn_undone (container.same summed) walked) done
    | some found => exact objects_end_iff.mp ⟨fuel, found, walked⟩
  · intro sound
    by_cases nonzero : link = 0
    · subst nonzero
      refine ⟨0, ?_⟩
      rw [containerTurn_over]
      simp
    · obtain ⟨whole, objects⟩ := sound nonzero
      have ⟨fuel, checksum, summed⟩ : ∃ fuel checksum,
          calcchecksum (readBlock host self d link).2 self.blocksize fuel = some checksum :=
        checksum_ends_iff.mpr whole
      by_cases invalid : checksum = 0 ∨ be32 (readBlock host self d link).2 sbhId ≠ socId
      · refine ⟨fuel, ?_⟩
        rw [containerTurn_invalid nonzero summed invalid]
        simp
      · rw [not_or, not_not] at invalid
        have container : Container host self d link fuel := ⟨nonzero, ⟨checksum, invalid.1, summed⟩, invalid.2⟩
        obtain ⟨n, found, walked⟩ := objects_end_iff.mpr (objects fuel container)
        have container' := container.keep (le_max_left fuel n)
        have walked' := nested_more objectTurn_steady walked (le_max_right fuel n)
        refine ⟨max fuel n, ?_⟩
        cases found with
        | none =>
          rw [containerTurn_next container' walked']
          exact Sum.inr_ne_inl
        | some o =>
          rw [containerTurn_found container' walked']
          simp

private theorem findobject_ends_iff [Finite D] :
    (∃ fuel r, sfsFindobject host self d cwd dirname type fuel = some r) ↔
      DirectorySound host self dirname type (d, be32 cwd soFirstdirblock) := by
  unfold sfsFindobject DirectorySound
  rw [nested_ends_iff containerTurn_steady (Set.toFinite _), forward_settle containerTurn_steady]
  constructor
  · rintro ⟨forward, done⟩ fuel
    exact ⟨forward fuel, fun t reached => containerTurn_done_iff.mp (done fuel t reached)⟩
  · intro sound
    exact ⟨fun fuel => (sound fuel).1, fun fuel t reached => containerTurn_done_iff.mpr ((sound fuel).2 t reached)⟩

private theorem findComponents_ends_iff [Finite D] :
    (∃ fuel r, findComponents host self fuel names d root = some r) ↔ PathSound host self names d root := by
  induction names generalizing d root with
  | nil => exact ⟨fun _ => trivial, fun _ => ⟨0, _, rfl⟩⟩
  | cons directory rest ih =>
    cases rest with
    | nil => exact findobject_ends_iff
    | cons name rest =>
      constructor
      · rintro ⟨fuel, r, found⟩
        rw [findComponents] at found
        · cases searched : sfsFindobject host self d root directory otypeDir fuel with
          | none =>
            rw [searched] at found
            cases found
          | some step =>
            refine ⟨findobject_ends_iff.mp ⟨fuel, step, searched⟩, fun n d' o other => ?_⟩
            cases nested_unique containerTurn_steady searched other
            rw [searched] at found
            exact ih.mp ⟨fuel, r, found⟩
        · exact List.cons_ne_nil _ _
      · rintro ⟨sound, further⟩
        obtain ⟨fuel, ⟨d', _ | o⟩, searched⟩ := findobject_ends_iff.mpr sound
        · refine ⟨fuel, (d', none), ?_⟩
          rw [findComponents, searched]
          exact List.cons_ne_nil _ _
        · obtain ⟨n, r, found⟩ := ih.mpr (further fuel d' o searched)
          refine ⟨max fuel n, r, ?_⟩
          rw [findComponents, findobject_more searched (le_max_left fuel n)]
          · exact findComponents_more found (le_max_right fuel n)
          · exact List.cons_ne_nil _ _

end

/-- The turn for a block of the B-tree finds a node: the block can be read and is
valid, and a key in reach of the scan is not greater than the one searched. A block that
cannot be read leaves the node found before. -/
def NodeSound (host : Host D) (self : SfsBootDev) (key : Word) (s : D × Word × Option Word) : Prop :=
  ((sfsLoadsector host self s.1 s.2.1).2.1 = false → s.2.2 ≠ none) ∧
  ((sfsLoadsector host self s.1 s.2.1).2.1 = true → self.blocksize.toNat % 4 = 0 ∧
    (∀ fuel, calcchecksum (readBlock host self s.1 s.2.1).2 self.blocksize fuel ≠ some 0) ∧
    ∃ j : BitVec 16, be32 (member (readBlock host self s.1 s.2.1).2
      (btcBnode + j.toNat * ((readBlock host self s.1 s.2.1).2 btcNodesize).toNat)) bnKey ≤ key)

/-- The descent for a key comes back to no block, and finds a node in each. -/
def DescentSound (host : Host D) (self : SfsBootDev) (key : Word) (s : D × Word × Option Word) : Prop :=
  ∀ fuel, Forward (bnodeTurn host self key fuel) s ∧
    ∀ t, Reaches (bnodeTurn host self key fuel) s t → NodeSound host self key t

/-- The loop over the extents comes back to none that has had nothing read, and each
extent it comes to is found. -/
def ExtentsSound (host : Host D) (self : SfsBootDev) (size : Word) (s : Word × Loading D) : Prop :=
  ∀ fuel,
    (∀ t u, Reaches (extentTurn host self size fuel) s t → extentTurn host self size fuel t = .inr u →
      u.2.2.1 = t.2.2.1 → ¬Reaches (extentTurn host self size fuel) u t) ∧
    ∀ t, Reaches (extentTurn host self size fuel) s t → t.1 ≠ 0 ∧ t.2.2.1 < size →
      DescentSound host self t.1 (t.2.1, self.extentbnoderoot, none)

section
variable {host : Host D} {self : SfsBootDev} {key size next : Word} {d : D} {s : D × Word × Option Word}
  {fuel blocks : Nat}

private theorem bnodeTurn_done_iff :
    (∃ fuel, bnodeTurn host self key fuel s ≠ .inl none ∧
      ∀ r, bnodeTurn host self key fuel s = .inl (some r) → r.2 ≠ none) ↔ NodeSound host self key s := by
  obtain ⟨d, next, bnode⟩ := s
  unfold NodeSound
  dsimp only
  cases read : (sfsLoadsector host self d next).2.1 with
  | false =>
    simp only [bnodeTurn_unread read]
    constructor
    · rintro ⟨fuel, -, found⟩
      refine ⟨fun _ nothing => ?_, fun unread => (by cases unread)⟩
      exact found _ rfl (by rw [nothing]; rfl)
    · rintro ⟨some, -⟩
      refine ⟨0, by simp, fun r same => ?_⟩
      cases same
      simp only [ne_eq, Option.map_eq_none_iff]
      exact some trivial
  | true =>
    simp only [bnodeTurn_verdict read, afterVerdict_done_iff, searchNodes_done_iff, verdict_accepted_iff]
    generalize (readBlock host self d next).2 = block
    constructor
    · rintro ⟨fuel, ⟨checksum, valid, summed⟩, tmp, scanned⟩
      refine ⟨fun unread => (by cases unread), fun _ => ⟨checksum_ends_iff.mp ⟨fuel, checksum, summed⟩, ?_, ?_⟩⟩
      · intro n zero
        exact valid (run_unique summed zero)
      · exact scan_ends_iff.mp ⟨fuel, tmp, scanned⟩
    · rintro ⟨-, sound⟩
      obtain ⟨whole, valid, keys⟩ := sound trivial
      have ⟨n, checksum, summed⟩ : ∃ fuel checksum, calcchecksum block self.blocksize fuel = some checksum :=
        checksum_ends_iff.mpr whole
      have ⟨m, tmp, scanned⟩ : ∃ fuel tmp,
          run (scanTurn block key) fuel (be16 block btcNodecount - 1) = some tmp :=
        scan_ends_iff.mpr keys
      have nonzero : checksum ≠ 0 := fun zero => valid n (zero ▸ summed)
      exact ⟨max n m, ⟨checksum, nonzero, checksum_more summed (le_max_left n m)⟩,
        tmp, run_mono scanned (le_max_right n m)⟩

/-- The descent finds a node if and only if it gets on and finds one in each block. -/
theorem getBnode_finds_iff [Finite D] :
    (∃ fuel d' sebn, getBnode host self d key fuel = some (d', some sebn)) ↔
      DescentSound host self key (d, self.extentbnoderoot, none) := by
  have steady : Steady (bnodeTurn host self key) := bnodeTurn_steady
  have finds := nested_good_iff (s := (d, self.extentbnoderoot, none)) steady (Set.toFinite _)
    fun r => r.2 ≠ none
  unfold getBnode DescentSound
  constructor
  · rintro ⟨fuel, d', sebn, ended⟩ n
    obtain ⟨forward, sound⟩ := finds.mp ⟨fuel, _, ended, Option.some_ne_none sebn⟩
    exact ⟨forward n, fun t reached => bnodeTurn_done_iff.mp (sound n t reached)⟩
  · intro sound
    obtain ⟨fuel, ⟨d', _ | sebn⟩, ended, found⟩ := finds.mpr ⟨fun fuel => (sound fuel).1,
      fun fuel t reached => bnodeTurn_done_iff.mpr ((sound fuel).2 t reached)⟩
    · exact absurd rfl found
    · exact ⟨fuel, d', sebn, ended⟩

end

section
variable {host : Host D} {self : SfsBootDev} {size : Word} {d : D} {s u : Word × Loading D} {fuel : Nat}

/-- A turn that goes on has an extent to read, and has read as much as before or more. -/
theorem extentTurn_done_iff [Finite D] :
    (∃ fuel, extentTurn host self size fuel s ≠ .inl none ∧
      ∀ r, extentTurn host self size fuel s = .inl (some r) → r.isOk = true) ↔
      (s.1 ≠ 0 ∧ s.2.2.1 < size → DescentSound host self s.1 (s.2.1, self.extentbnoderoot, none)) := by
  obtain ⟨link, d, readed, filebuffer⟩ := s
  unfold extentTurn
  dsimp only
  by_cases further : link ≠ 0 ∧ readed < size
  · rw [← getBnode_finds_iff]
    simp only [if_pos further]
    constructor
    · rintro ⟨fuel, done, faultless⟩ -
      rcases found : getBnode host self d link fuel with _ | ⟨d', _ | sebn⟩
      · rw [found] at done
        exact absurd rfl done
      · rw [found] at faultless
        cases faultless _ rfl
      · exact ⟨fuel, d', sebn, found⟩
    · intro finds
      obtain ⟨fuel, d', sebn, found⟩ := finds further
      refine ⟨fuel, ?_⟩
      rw [found]
      exact ⟨Sum.inr_ne_inl, fun r same => (by cases same)⟩
  · simp only [if_neg further]
    refine ⟨fun _ sound => absurd sound further, fun _ => ⟨0, by simp, fun r same => ?_⟩⟩
    cases same
    rfl

/-- Only a turn that reads nothing can be come back to. -/
theorem extents_forward_iff :
    Forward (extentTurn host self size fuel) s ↔
      ∀ t u, Reaches (extentTurn host self size fuel) s t → extentTurn host self size fuel t = .inr u →
        u.2.2.1 = t.2.2.1 → ¬Reaches (extentTurn host self size fuel) u t := by
  constructor
  · exact fun forward t u reached turns _ => forward t u reached turns
  · intro idle t u reached turns back
    have later : u.2.2.1.toNat ≤ t.2.2.1.toNat := by
      refine back.invariant (fun v => u.2.2.1.toNat ≤ v.2.2.1.toNat) ?_ le_rfl
      exact fun v w below next => below.trans (extentTurn_next next).2.1
    have same := BitVec.eq_of_toNat_eq (le_antisymm later (extentTurn_next turns).2.1)
    exact idle t u reached turns same back

private theorem loading_ends_iff [Finite D] :
    (∃ fuel r, nested (extentTurn host self size) fuel s = some (.ok r)) ↔ ExtentsSound host self size s := by
  have steady : Steady (extentTurn host self size) := extentTurn_steady
  have ends := nested_good_iff (s := s) steady (Set.toFinite _) fun r => r.isOk = true
  unfold ExtentsSound
  constructor
  · rintro ⟨fuel, r, ended⟩ n
    obtain ⟨forward, sound⟩ := ends.mp ⟨fuel, _, ended, rfl⟩
    exact ⟨extents_forward_iff.mp (forward n), fun t reached => extentTurn_done_iff.mp (sound n t reached)⟩
  · intro sound
    obtain ⟨fuel, r, ended, faultless⟩ := ends.mpr ⟨fun fuel => extents_forward_iff.mpr (sound fuel).1,
      fun fuel t reached => extentTurn_done_iff.mpr ((sound fuel).2 t reached)⟩
    cases r with
    | error fault => cases faultless
    | ok r => exact ⟨fuel, r, ended⟩

/-- Loading a file ends, and reads no node at the null pointer, if and only if the
directories along its path can be searched and, where a file is found, its extents can
be followed. -/
theorem loadfile_ends_iff [Finite D] (host : Host D) (self : SfsBootDev) (d : D) (filename : List Byte)
    (filebuffer : Option (ByteMemory.Memory 32)) :
    (∃ fuel r, sfsLoadfile host self d filename filebuffer fuel = some (.ok r)) ↔
      PathSound host self (pathComponents filename) d self.root ∧
      ∀ fuel d' o, sfsFind host self d filename fuel = some (d', some o) →
        ExtentsSound host self (be32 o soSize) (be32 o soData, d', 0, filebuffer) := by
  constructor
  · rintro ⟨fuel, r, ended⟩
    unfold sfsLoadfile at ended
    rcases searched : sfsFind host self d filename fuel with _ | ⟨d', _ | o⟩
    · rw [searched] at ended
      cases ended
    · refine ⟨findComponents_ends_iff.mp ⟨fuel, _, searched⟩, fun n d'' o other => ?_⟩
      have same := (find_more searched (le_max_left fuel n)).symm.trans (find_more other (le_max_right fuel n))
      cases same
    · refine ⟨findComponents_ends_iff.mp ⟨fuel, _, searched⟩, fun n d'' o' other => ?_⟩
      have same := (find_more searched (le_max_left fuel n)).symm.trans (find_more other (le_max_right fuel n))
      cases same
      rw [searched] at ended
      obtain ⟨outcome, loaded, mapped⟩ := Option.map_eq_some_iff.mp ended
      cases outcome with
      | error fault => cases mapped
      | ok r => exact loading_ends_iff.mp ⟨fuel, r, loaded⟩
  · rintro ⟨sound, extents⟩
    obtain ⟨fuel, ⟨d', _ | o⟩, searched⟩ := findComponents_ends_iff.mpr sound
    · refine ⟨fuel, (d', -1, filebuffer), ?_⟩
      rw [sfsLoadfile, sfsFind, searched]
    · obtain ⟨n, ⟨d'', readed, m⟩, loaded⟩ := loading_ends_iff.mpr (extents fuel d' o searched)
      refine ⟨max fuel n, (d'', readed.toInt, m), ?_⟩
      rw [sfsLoadfile, find_more searched (le_max_left fuel n)]
      dsimp only
      rw [nested_more extentTurn_steady loaded (le_max_right fuel n)]
      rfl

end

/-- A root block with the root object container in block 1 and the B-tree in block 2,
and the root object container, whose directory begins in block 3. -/
def rootBlock : List Byte :=
  [0x53, 0x46, 0x53, 0, 172, 185, 170, 252] ++ List.replicate 46 0 ++ [2, 0] ++ List.replicate 48 0 ++
    [0, 0, 0, 1, 0, 0, 0, 2]

def rootContainer : List Byte :=
  chars "OBJC" ++ [48, 75, 181, 183, 0, 0, 0, 1] ++ List.replicate 19 0 ++ [1] ++ List.replicate 11 0 ++ [3] ++
    [0, 0, 0, 0, 128, 114, 0, 0]

/-- A volume with the blocks given as B-tree and as root directory. -/
def volume (tree directory : List Byte) (sectn : Word) (i : Nat) : Byte :=
  if sectn = 0 then padded 112 rootBlock i
  else if sectn = 1 then padded 52 rootContainer i
  else if sectn = 2 then padded 20 tree i
  else if sectn = 3 then padded 52 directory i
  else 0

/-- An empty container that is its own successor. -/
def ringSectors : Word → Nat → Byte := volume [] (chars "OBJC" ++ List.replicate 15 0 ++ [3])

/-- A B-tree whose only key is greater than the first block of the file `a`. Its nodes
have the size zero, so that every number is a node with that key. -/
def highSectors : Word → Nat → Byte :=
  volume (List.replicate 13 0 ++ [1, 1, 0, 0, 0, 0, 9]) smallContainer

/-- The device for a volume, where one is made. -/
def opened (sectors : Word → Nat → Byte) : SfsBootDev :=
  (sfsCreate (steadyHost sectors) () 0 512).2.getD smallVolume

private theorem opened_created {sectors : Word → Nat → Byte}
    (made : (sfsCreate (steadyHost sectors) () 0 512).2.isSome = true) :
    (sfsCreate (steadyHost sectors) () 0 512).2 = some (opened sectors) := by
  obtain ⟨boot, same⟩ := Option.isSome_iff_exists.mp made
  rw [opened, same]
  rfl

example : (opened highSectors).blocksize = 512 ∧ (opened highSectors).extentbnoderoot = 2 := by decide +kernel

private theorem ring_searched (fuel : Nat) :
    sfsFind (steadyHost ringSectors) (opened ringSectors) () (chars "a") fuel = none := by
  have first : be32 (opened ringSectors).root soFirstdirblock = 3 := by decide
  have again : (containerTurn (steadyHost ringSectors) (opened ringSectors) (chars "a") 0 200
      ((), 3)).getRight? = some ((), 3) := by decide +kernel
  have stuck := Sum.getRight?_eq_some_iff.mp again
  have path : pathComponents (chars "a") = [chars "a"] := by decide
  rw [sfsFind, path, findComponents, sfsFindobject, first]
  exact nested_stuck containerTurn_steady stuck fuel

/-- In the second volume no fuel is enough for the scan. -/
theorem high_scanned (fuel : Nat) : getBnode (steadyHost highSectors) (opened highSectors) () 3 fuel = none := by
  let block := (readBlock (steadyHost highSectors) (opened highSectors) () 2).2
  have place : (opened highSectors).extentbnoderoot = 2 := by decide
  have valid : (calcchecksum block (opened highSectors).blocksize 200).any (· != 0) = true := by decide +kernel
  have size : (block btcNodesize).toNat = 0 := by decide
  have only : be32 (member block btcBnode) bnKey = 9 := by decide
  have endless (i : BitVec 16) (n : Nat) : run (scanTurn block 3) n i = none := by
    cases scanned : run (scanTurn block 3) n i with
    | none => rfl
    | some tmp =>
      obtain ⟨j, below⟩ := scan_ends_iff.mp ⟨n, tmp, scanned⟩
      rw [size, Nat.mul_zero, Nat.add_zero, only] at below
      exact absurd below (by decide)
  obtain ⟨checksum, known, nonzero⟩ := (Option.any_eq_true _ _).mp valid
  apply nested_undone
  rw [place, bnodeTurn_verdict rfl, verdict]
  cases summed : calcchecksum block (opened highSectors).blocksize fuel with
  | none => rfl
  | some other =>
    cases run_unique known summed
    rw [Option.map_some, if_neg (bne_iff_ne.mp nonzero), afterVerdict, searchNodes, endless]

/-- A container that is its own successor is searched for ever, and so is a node of the
B-tree without a key that is small enough. -/
theorem corrupt_volumes_never_end :
    (∃ self, (sfsCreate (steadyHost ringSectors) () 0 512).2 = some self ∧
      ¬∃ fuel r, sfsLoadfile (steadyHost ringSectors) self () (chars "a") none fuel = some r) ∧
    ∃ self, (sfsCreate (steadyHost highSectors) () 0 512).2 = some self ∧
      ¬∃ fuel r, sfsLoadfile (steadyHost highSectors) self () (chars "a") none fuel = some r := by
  have ring : (sfsCreate (steadyHost ringSectors) () 0 512).2.isSome = true := by decide
  have high : (sfsCreate (steadyHost highSectors) () 0 512).2.isSome = true := by decide
  have object : ∃ o, sfsFind (steadyHost highSectors) (opened highSectors) () (chars "a") 200 = some ((), some o) ∧
      be32 o soData = 3 ∧ be32 o soSize = 600 :=
    object_fields (by decide +kernel)
  have undone (fuel : Nat) :
      extentTurn (steadyHost highSectors) (opened highSectors) 600 fuel (3, (), 0, none) = .inl none := by
    have further : (3 : Word) ≠ 0 ∧ (0 : Word) < 600 := by decide
    rw [extentTurn, if_pos further, high_scanned]
  refine ⟨⟨opened ringSectors, opened_created ring, ?_⟩, opened highSectors, opened_created high, ?_⟩
  · rintro ⟨fuel, r, ended⟩
    rw [sfsLoadfile, ring_searched] at ended
    cases ended
  · rintro ⟨fuel, r, ended⟩
    obtain ⟨o, found, data, size⟩ := object
    have later := loadfile_more ended (le_max_right 200 fuel)
    rw [sfsLoadfile, find_more found (le_max_left 200 fuel)] at later
    dsimp only at later
    rw [data, size, nested_undone (undone _)] at later
    cases later

/-- The file of the small volume is loaded, so that its walks are sound. -/
theorem smallVolume_sound :
    PathSound (steadyHost smallSectors) smallVolume (pathComponents (chars "a")) () smallVolume.root ∧
      ∀ fuel d o, sfsFind (steadyHost smallSectors) smallVolume () (chars "a") fuel = some (d, some o) →
        ExtentsSound (steadyHost smallSectors) smallVolume (be32 o soSize) (be32 o soData, d, 0, none) := by
  have evaluated : (sfsLoadfile (steadyHost smallSectors) smallVolume () (chars "a") none 200).any (·.isOk) =
      true := by
    decide +kernel
  obtain ⟨outcome, ended, faultless⟩ := (Option.any_eq_true _ _).mp evaluated
  cases outcome with
  | error fault => cases faultless
  | ok r => exact (loadfile_ends_iff _ _ _ _ _).mp ⟨200, r, ended⟩

end Parthenope.Sfs
