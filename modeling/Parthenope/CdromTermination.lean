import Parthenope.CdromCache
import Parthenope.CdromWalk

/-! When opening a CD and loading a file from it come to an end. A directory is a loop
over offsets that only grow, so that it ends where each of its turns does: where the
walks for the names get on and no offset leaves the range of an `int`. -/
namespace Parthenope.Cdrom
open CString Buffer StepLoop

variable {D : Type}

/-- The turn for the record at an offset gets done: the walk for its name gets on, and
the offsets that are computed stay in the range of an `int`. -/
def RecordSound (host : Host D) (dev : CdromBootDev D) (block size : Word) (s : Cache D × Nat) : Prop :=
  ∀ boot bytes, (s.2 : Int) < size.toInt →
    cdromRead host.read s.1 block (BitVec.ofNat 32 s.2) (BitVec.ofNat 32 dirSize) = (boot, .ok bytes) →
    (contents host.stale bytes dirLen = 0 → (s.2 / 2048 + 1) * 2048 < 2 ^ 31) ∧
    (contents host.stale bytes dirLen ≠ 0 →
      suaStart (contents host.stale bytes) + (s.2 + dev.suspSkip.toNat) < 2 ^ 31 ∧
      (dev.rr = true → Settles host boot block
        (BitVec.ofNat 32 (suaStart (contents host.stale bytes) + (s.2 + dev.suspSkip.toNat)))
        (suaSize (contents host.stale bytes)) "NM") ∧
      ∀ fuel boot' fname,
        recordName host dev boot block s.2 (contents host.stale bytes) fuel = some (boot', some fname) →
          s.2 + (contents host.stale bytes dirLen).toNat < 2 ^ 31)

section
variable {host : Host D} {dev : CdromBootDev D} {element : List Byte} {last : Bool} {block size : Word}
  {s s' : Cache D × Nat} {fuel more : Nat}

/-- A turn that goes on has gone on to a later offset. -/
theorem recordTurn_next (next : recordTurn host dev element last block size fuel s = .inr s') :
    s.2 < s'.2 ∧ s'.2 < 2 ^ 31 := by
  obtain ⟨boot, place⟩ := s
  unfold recordTurn at next
  dsimp only at next
  split at next
  · split at next
    · cases next
    · split at next
      · split at next
        · cases next
          dsimp only
          omega
        · cases next
      · rename_i bytes _ nonzero
        have some : (contents host.stale bytes dirLen).toNat ≠ 0 := by
          intro zero
          exact nonzero (BitVec.eq_of_toNat_eq zero)
        split at next
        · split at next
          · cases next
          · cases next
          · split at next
            · cases next
            · split at next
              · cases next
              · cases next
                dsimp only
                omega
        · cases next
  · cases next

/-- Only the name of a record depends on fuel. -/
theorem recordTurn_steady : Steady (recordTurn host dev element last block size) := by
  rintro ⟨boot, place⟩ n m enough done
  by_cases inside : (place : Int) < size.toInt
  · rcases answer : cdromRead host.read boot block (BitVec.ofNat 32 place) (BitVec.ofNat 32 dirSize) with
      ⟨boot', dest | bytes⟩
    · simp only [recordTurn, if_pos inside, answer]
    · by_cases zero : contents host.stale bytes dirLen = 0
      · simp only [recordTurn, if_pos inside, answer, if_pos zero]
      · by_cases fits : suaStart (contents host.stale bytes) + (place + dev.suspSkip.toNat) < 2 ^ 31
        · cases named : recordName host dev boot' block place (contents host.stale bytes) n with
          | none =>
            refine absurd ?_ done
            simp only [recordTurn, if_pos inside, answer, if_neg zero, if_pos fits, named]
          | some r =>
            simp only [recordTurn, if_pos inside, answer, if_neg zero, if_pos fits, named,
              recordName_more named enough]
        · simp only [recordTurn, if_pos inside, answer, if_neg zero, if_neg fits]
  · simp only [recordTurn, if_neg inside]

/-- A turn gets done, and without a fault, if and only if its record is sound. -/
theorem recordTurn_done_iff [Finite D] :
    (∃ fuel, recordTurn host dev element last block size fuel s ≠ .inl none ∧
      ∀ fault, recordTurn host dev element last block size fuel s ≠ .inl (some (.error fault))) ↔
      RecordSound host dev block size s := by
  obtain ⟨boot, place⟩ := s
  constructor
  · rintro ⟨fuel, done, faultless⟩ boot' bytes inside answer
    constructor
    · intro zero
      by_contra beyond
      apply faultless .offsetOverflow
      simp only [recordTurn, if_pos inside, answer, if_pos zero, if_neg beyond]
    · intro nonzero
      have fits : suaStart (contents host.stale bytes) + (place + dev.suspSkip.toNat) < 2 ^ 31 := by
        by_contra beyond
        apply faultless .offsetOverflow
        simp only [recordTurn, if_pos inside, answer, if_neg nonzero, if_neg beyond]
      cases named : recordName host dev boot' block place (contents host.stale bytes) fuel with
      | none =>
        refine absurd ?_ done
        simp only [recordTurn, if_pos inside, answer, if_neg nonzero, if_pos fits, named]
      | some r =>
        refine ⟨fits, recordName_ends_iff.mp ⟨fuel, r, named⟩, ?_⟩
        intro n boot'' fname named'
        have same : r = (boot'', some fname) := by
          have one := recordName_more named (le_max_left fuel n)
          have two := recordName_more named' (le_max_right fuel n)
          exact Option.some.inj (one.symm.trans two)
        by_contra beyond
        apply faultless .offsetOverflow
        simp only [recordTurn, if_pos inside, answer, if_neg nonzero, if_pos fits, named, same,
          if_pos (Nat.le_of_not_lt beyond)]
  · intro sound
    by_cases inside : (place : Int) < size.toInt
    · rcases answer : cdromRead host.read boot block (BitVec.ofNat 32 place) (BitVec.ofNat 32 dirSize) with
        ⟨boot', dest | bytes⟩
      · refine ⟨0, ?_⟩
        simp [recordTurn, if_pos inside, answer]
      · obtain ⟨skips, named⟩ := sound boot' bytes inside answer
        by_cases zero : contents host.stale bytes dirLen = 0
        · refine ⟨0, ?_⟩
          simp only [recordTurn, if_pos inside, answer, if_pos zero, if_pos (skips zero)]
          exact ⟨Sum.inr_ne_inl, fun _ => Sum.inr_ne_inl⟩
        · obtain ⟨fits, settles, next⟩ := named zero
          obtain ⟨fuel, ⟨boot'', fname⟩, found⟩ := recordName_ends_iff.mpr settles
          refine ⟨fuel, ?_⟩
          simp only [recordTurn, if_pos inside, answer, if_neg zero, if_pos fits, found]
          cases fname with
          | none => simp
          | some fname =>
            have within := next fuel boot'' fname found
            dsimp only
            rw [if_neg (Nat.not_le.mpr within)]
            split <;> simp
    · refine ⟨0, ?_⟩
      simp [recordTurn, if_neg inside]

/-- Offsets grow in the whole search. -/
theorem recordTurn_forward [Finite D] :
    {t | ∃ n, Reaches (recordTurn host dev element last block size n) s t}.Finite ∧
      Forward (settle (recordTurn host dev element last block size)) s := by
  have grows {t u : Cache D × Nat} (next : settle (recordTurn host dev element last block size) t = .inr u) :
      t.2 < u.2 ∧ u.2 < 2 ^ 31 := by
    obtain ⟨n, same⟩ := settle_some (next ▸ Sum.inr_ne_inl)
    exact recordTurn_next (same.trans next)
  constructor
  · refine (Set.finite_univ.prod (Set.finite_Iic (s.2 + 2 ^ 31))).subset ?_
    intro t reached
    have comes := (reaches_settle recordTurn_steady).mpr reached
    have bounded : t.2 ≤ s.2 + 2 ^ 31 := by
      refine comes.invariant (fun t => t.2 ≤ s.2 + 2 ^ 31) ?_ (Nat.le_add_right _ _)
      intro t u _ next
      have := (grows next).2
      omega
    exact ⟨Set.mem_univ _, bounded⟩
  · intro t u _ next back
    have later : u.2 ≤ t.2 := by
      refine back.invariant (fun v => u.2 ≤ v.2) ?_ le_rfl
      intro v w below next
      exact below.trans (grows next).1.le
    exact absurd (grows next).1 (Nat.not_lt.mpr later)

/-- The search of a directory ends without a fault if and only if every record it comes
to is sound. -/
theorem directory_ends_iff [Finite D] :
    (∃ fuel r, nested (recordTurn host dev element last block size) fuel s = some (.ok r)) ↔
      ∀ fuel t, Reaches (recordTurn host dev element last block size fuel) s t →
        RecordSound host dev block size t := by
  have ⟨finite, forward⟩ :
      {t | ∃ n, Reaches (recordTurn host dev element last block size n) s t}.Finite ∧
        Forward (settle (recordTurn host dev element last block size)) s := recordTurn_forward
  have ends := nested_good_iff recordTurn_steady finite fun r => r.isOk = true
  constructor
  · rintro ⟨fuel, r, ended⟩ n t reached
    obtain ⟨m, done, good⟩ := (ends.mp ⟨fuel, _, ended, rfl⟩).2 n t reached
    apply recordTurn_done_iff.mp
    refine ⟨m, done, fun fault faulty => ?_⟩
    cases good _ faulty
  · intro sound
    have done (n : Nat) (t : Cache D × Nat)
        (reached : Reaches (recordTurn host dev element last block size n) s t) :
        ∃ m, recordTurn host dev element last block size m t ≠ .inl none ∧
          ∀ r, recordTurn host dev element last block size m t = .inl (some r) → r.isOk = true := by
      obtain ⟨m, done, faultless⟩ := recordTurn_done_iff.mpr (sound n t reached)
      refine ⟨m, done, fun r same => ?_⟩
      cases r with
      | error fault => exact absurd same (faultless fault)
      | ok _ => rfl
    obtain ⟨fuel, r, ended, good⟩ := ends.mpr ⟨(forward_settle recordTurn_steady).mp forward, done⟩
    cases r with
    | error fault => cases good
    | ok r => exact ⟨fuel, r, ended⟩

end

/-- Every directory on the way along a path can be searched. -/
def PathSound (host : Host D) (dev : CdromBootDev D) :
    List (List Byte) → Cache D → Word → Word → Prop
  | [], _, _, _ => True
  | element :: rest, boot, block, size =>
    (∀ fuel t, Reaches (recordTurn host dev element rest.isEmpty block size fuel) (boot, 0) t →
      RecordSound host dev block size t) ∧
    ∀ fuel boot' block' size',
      nested (recordTurn host dev element rest.isEmpty block size) fuel (boot, 0) =
        some (.ok (boot', some (block', size'))) →
      PathSound host dev rest boot' block' size'

section
variable {host : Host D} {dev : CdromBootDev D} {elements : List (List Byte)} {boot : Cache D}
  {block size : Word} {fuel more : Nat} {r : Outcome D}

theorem findElements_more (found : findElements host dev fuel elements boot block size = some r)
    (enough : fuel ≤ more) : findElements host dev more elements boot block size = some r := by
  induction elements generalizing boot block size with
  | nil => exact found
  | cons element rest ih =>
    rw [findElements] at found ⊢
    cases searched : nested (recordTurn host dev element rest.isEmpty block size) fuel (boot, 0) with
    | none =>
      rw [searched] at found
      cases found
    | some outcome =>
      rw [nested_more recordTurn_steady searched enough]
      rw [searched] at found
      rcases outcome with fault | ⟨boot', _ | ⟨block', size'⟩⟩
      · exact found
      · exact found
      · exact ih found

/-- Following a path ends without a fault if and only if its directories can be searched. -/
theorem findElements_ends_iff [Finite D] :
    (∃ fuel r, findElements host dev fuel elements boot block size = some (.ok r)) ↔
      PathSound host dev elements boot block size := by
  induction elements generalizing boot block size with
  | nil => exact ⟨fun _ => trivial, fun _ => ⟨0, _, rfl⟩⟩
  | cons element rest ih =>
    constructor
    · rintro ⟨fuel, r, found⟩
      rw [findElements] at found
      cases searched : nested (recordTurn host dev element rest.isEmpty block size) fuel (boot, 0) with
      | none =>
        rw [searched] at found
        cases found
      | some outcome =>
        rw [searched] at found
        rcases outcome with fault | ⟨boot', _ | ⟨block', size'⟩⟩
        · cases found
        · refine ⟨directory_ends_iff.mp ⟨fuel, _, searched⟩, ?_⟩
          intro fuel' boot'' block'' size'' other
          cases nested_unique recordTurn_steady searched other
        · refine ⟨directory_ends_iff.mp ⟨fuel, _, searched⟩, ?_⟩
          intro fuel' boot'' block'' size'' other
          cases nested_unique recordTurn_steady searched other
          exact ih.mp ⟨fuel, r, found⟩
    · rintro ⟨records, further⟩
      obtain ⟨fuel, ⟨boot', _ | ⟨block', size'⟩⟩, searched⟩ := directory_ends_iff.mpr records
      · refine ⟨fuel, (boot', none), ?_⟩
        rw [findElements, searched]
      · obtain ⟨fuel', r, found⟩ := ih.mpr (further fuel boot' block' size' searched)
        refine ⟨max fuel fuel', r, ?_⟩
        rw [findElements, nested_more recordTurn_steady searched (le_max_left fuel fuel')]
        exact findElements_more found (le_max_right fuel fuel')

end

/-- The System Use area of the root directory can be looked through. -/
def RootSound (host : Host D) (boot : Cache D) (root : Word) (rootdir : List Byte) : Prop :=
  host.allocates (rootSuaSize (contents host.stale rootdir)) = true ∧
  ∀ boot' result,
    cdromRead host.read boot root (BitVec.ofNat 32 (rootSuaStart (contents host.stale rootdir)))
      (rootSuaSize (contents host.stale rootdir)) = (boot', result) →
    signed (contents host.stale (written result)) "SP" = true →
    Settles host boot' root (BitVec.ofNat 32 (rootSuaStart (contents host.stale rootdir)))
      (rootSuaSize (contents host.stale rootdir)) "RR"

/-- The device can be set up, if the disc has a volume. -/
def CreateSound (host : Host D) (fresh : CdromBootDev D) : Prop :=
  ∀ boot voldesc rootdir, readVolume host fresh.boot = some (boot, voldesc, rootdir) →
    RootSound host boot (volumeRoot host voldesc) rootdir

/-- A path within the limit whose directories can be searched. -/
def FileSound (host : Host D) (dev : CdromBootDev D) (filename : List Byte) : Prop :=
  (pathElements filename).length ≤ isoMaxDepth + 1 ∧
  PathSound host dev (pathElements filename) dev.boot (volumeRoot host dev.voldesc)
    (volumeRootSize host dev.voldesc)

/-- `cdrom_create`, and then `load_file` of the device if there is one. -/
def openAndLoad (host : Host D) (fresh : CdromBootDev D) (filename : List Byte) (fuel : Nat) :
    Option (Except Fault (Option (Int × List Byte))) :=
  match cdromCreate host fresh fuel with
  | some (.ok (some dev)) => (fsCdromLoadFile host dev filename fuel).map (·.map fun r => some r.2)
  | some (.ok none) => some (.ok none)
  | some (.error fault) => some (.error fault)
  | none => none

section
variable {host : Host D} {dev fresh : CdromBootDev D} {boot : Cache D} {root : Word} {rootdir : List Byte}
  {suspSkip : Byte} {filename : List Byte} {fuel more : Nat}

private theorem rockRidge_ends_iff [Finite D] :
    (∃ fuel r, rockRidge host boot root rootdir suspSkip fuel = some (.ok r)) ↔
      RootSound host boot root rootdir := by
  unfold rockRidge RootSound
  dsimp only
  cases host.allocates (rootSuaSize (contents host.stale rootdir)) with
  | false => simp
  | true =>
    rcases cdromRead host.read boot root (BitVec.ofNat 32 (rootSuaStart (contents host.stale rootdir)))
      (rootSuaSize (contents host.stale rootdir)) with ⟨boot', result⟩
    by_cases marked : signed (contents host.stale (written result)) "SP" = true
    · constructor
      · rintro ⟨fuel, r, looked⟩
        rw [if_pos rfl, if_pos marked] at looked
        obtain ⟨found, searched, -⟩ := Option.map_eq_some_iff.mp looked
        refine ⟨rfl, fun boot₁ result₁ answer _ => ?_⟩
        cases answer
        exact getEntry_ends_iff.mp ⟨fuel, found, searched⟩
      · rintro ⟨-, settles⟩
        obtain ⟨fuel, found, searched⟩ := getEntry_ends_iff.mpr (settles _ _ rfl marked)
        refine ⟨fuel, (found.1, found.2.isSome, contents host.stale (written result) (suspData + 2)), ?_⟩
        rw [if_pos rfl, if_pos marked, searched]
        rfl
    · constructor
      · intro _
        refine ⟨rfl, fun boot₁ result₁ answer signs => ?_⟩
        cases answer
        exact absurd signs marked
      · intro _
        refine ⟨0, (boot', false, suspSkip), ?_⟩
        rw [if_pos rfl, if_neg marked]

private theorem rockRidge_more {r : Except Fault (Cache D × Bool × Byte)}
    (looked : rockRidge host boot root rootdir suspSkip fuel = some r) (enough : fuel ≤ more) :
    rockRidge host boot root rootdir suspSkip more = some r := by
  unfold rockRidge at looked ⊢
  dsimp only at looked ⊢
  split
  · rename_i allocates
    rw [if_pos allocates] at looked
    split
    · rename_i marked
      rw [if_pos marked] at looked
      obtain ⟨found, searched, made⟩ := Option.map_eq_some_iff.mp looked
      exact Option.map_eq_some_iff.mpr ⟨found, getEntry_more searched enough, made⟩
    · rename_i unmarked
      rw [if_neg unmarked] at looked
      exact looked
  · rename_i refused
    rw [if_neg refused] at looked
    exact looked

private theorem create_ends_iff [Finite D] :
    (∃ fuel r, cdromCreate host fresh fuel = some (.ok r)) ↔ CreateSound host fresh := by
  unfold cdromCreate CreateSound
  rcases readVolume host fresh.boot with _ | ⟨boot, voldesc, rootdir⟩
  · simp
  constructor
  · rintro ⟨fuel, r, made⟩ boot' voldesc' rootdir' same
    cases same
    obtain ⟨outcome, looked, mapped⟩ := Option.map_eq_some_iff.mp made
    cases outcome with
    | error fault => cases mapped
    | ok found => exact rockRidge_ends_iff.mp ⟨fuel, found, looked⟩
  · intro sound
    obtain ⟨fuel, found, looked⟩ := rockRidge_ends_iff.mpr (sound _ _ _ rfl)
    exact ⟨fuel, _, Option.map_eq_some_iff.mpr ⟨_, looked, rfl⟩⟩

theorem create_more {r : Except Fault (Option (CdromBootDev D))}
    (made : cdromCreate host fresh fuel = some r) (enough : fuel ≤ more) :
    cdromCreate host fresh more = some r := by
  unfold cdromCreate at made ⊢
  rcases volume : readVolume host fresh.boot with _ | ⟨boot, voldesc, rootdir⟩
  · rw [volume] at made
    exact made
  · rw [volume] at made
    obtain ⟨outcome, looked, mapped⟩ := Option.map_eq_some_iff.mp made
    exact Option.map_eq_some_iff.mpr ⟨outcome, rockRidge_more looked enough, mapped⟩

private theorem findFile_ends_iff [Finite D] :
    (∃ fuel r, fsCdromFindFile host dev filename fuel = some (.ok r)) ↔ FileSound host dev filename := by
  unfold fsCdromFindFile FileSound
  by_cases beyond : isoMaxDepth + 1 < (pathElements filename).length
  · simp [beyond]
  · rw [← findElements_ends_iff]
    simp [beyond, Nat.le_of_not_lt beyond]

theorem loadFile_more {r : Except Fault (CdromBootDev D × Int × List Byte)}
    (loaded : fsCdromLoadFile host dev filename fuel = some r) (enough : fuel ≤ more) :
    fsCdromLoadFile host dev filename more = some r := by
  obtain ⟨outcome, found, mapped⟩ := Option.map_eq_some_iff.mp loaded
  refine Option.map_eq_some_iff.mpr ⟨outcome, ?_, mapped⟩
  unfold fsCdromFindFile at found ⊢
  split
  · rename_i beyond
    rw [if_pos beyond] at found
    exact found
  · rename_i within
    rw [if_neg within] at found
    exact findElements_more found enough

private theorem loadFile_ends_iff [Finite D] :
    (∃ fuel r, fsCdromLoadFile host dev filename fuel = some (.ok r)) ↔ FileSound host dev filename := by
  rw [← findFile_ends_iff]
  constructor
  · rintro ⟨fuel, r, loaded⟩
    obtain ⟨outcome, found, mapped⟩ := Option.map_eq_some_iff.mp loaded
    cases outcome with
    | error fault => cases mapped
    | ok r => exact ⟨fuel, r, found⟩
  · rintro ⟨fuel, r, found⟩
    exact ⟨fuel, _, Option.map_eq_some_iff.mpr ⟨_, found, rfl⟩⟩

/-- Opening a CD and loading a file from it ends, and without undefined behaviour, if and
only if the root directory's System Use area can be looked through and the directories
along the path, for the device that is created, can be searched. -/
theorem openAndLoad_ends_iff [Finite D] (host : Host D) (fresh : CdromBootDev D) (filename : List Byte) :
    (∃ fuel r, openAndLoad host fresh filename fuel = some (.ok r)) ↔
      CreateSound host fresh ∧
      ∀ fuel dev, cdromCreate host fresh fuel = some (.ok (some dev)) → FileSound host dev filename := by
  constructor
  · rintro ⟨fuel, r, ended⟩
    unfold openAndLoad at ended
    cases made : cdromCreate host fresh fuel with
    | none =>
      rw [made] at ended
      cases ended
    | some outcome =>
      rw [made] at ended
      rcases outcome with fault | _ | dev
      · cases ended
      · refine ⟨create_ends_iff.mp ⟨fuel, none, made⟩, fun n dev other => ?_⟩
        have same := (create_more made (le_max_left fuel n)).symm.trans
          (create_more other (le_max_right fuel n))
        cases same
      · refine ⟨create_ends_iff.mp ⟨fuel, some dev, made⟩, fun n dev' other => ?_⟩
        have same := (create_more made (le_max_left fuel n)).symm.trans
          (create_more other (le_max_right fuel n))
        cases same
        obtain ⟨outcome, loaded, mapped⟩ := Option.map_eq_some_iff.mp ended
        cases outcome with
        | error fault => cases mapped
        | ok found => exact loadFile_ends_iff.mp ⟨fuel, found, loaded⟩
  · rintro ⟨sound, files⟩
    obtain ⟨fuel, _ | dev, made⟩ := create_ends_iff.mpr sound
    · refine ⟨fuel, none, ?_⟩
      rw [openAndLoad, made]
    · obtain ⟨n, r, loaded⟩ := loadFile_ends_iff.mpr (files fuel dev made)
      refine ⟨max fuel n, some r.2, ?_⟩
      rw [openAndLoad, create_more made (le_max_left fuel n)]
      dsimp only
      rw [loadFile_more loaded (le_max_right fuel n)]
      rfl

end

/-- A root directory whose System Use area has a CE entry for its own place. -/
def loopRoot : Sector := fun i =>
  ([69] ++ List.replicate 31 0 ++ [1, 0] ++ [83, 80, 7, 1, 190, 239, 0] ++ [67, 69, 28, 1] ++
    [0, 0, 0, 0, 0, 0, 0, 17] ++ [0, 0, 0, 0, 0, 0, 0, 41] ++ [0, 0, 0, 0, 0, 0, 0, 28]).getD i 0

def loopDisc (block : Word) : Sector :=
  if block = 16 then descriptor else if block = 17 then loopRoot else fun _ => 0

/-- The cache once the root directory has been read, and the walks over its two areas. -/
def loopCache : Cache Unit := ⟨(), loopRoot, 17, true⟩
def rootArea : Walk Unit := ⟨loopCache, slice loopRoot.byte 34 35, 35, 0⟩
def loopArea : Walk Unit := ⟨loopCache, slice loopRoot.byte 41 28, 28, 0⟩

/-- A continuation area that leads to itself is read for ever. -/
theorem loopDisc_never_ends :
    ¬∃ fuel r, openAndLoad (steadyHost loopDisc) (leftover (fun _ => 0) 0) (chars "boot") fuel = some r := by
  rintro ⟨fuel, r, ended⟩
  have passed : entryTurn (steadyHost loopDisc) (myIteration "RR") rootArea =
      .inr { rootArea with ptr := 7 } := rfl
  have call : cdromRead (steadyHost loopDisc).read loopCache 17 41 28 =
      (loopCache, .ok (slice loopRoot.byte 41 28)) := rfl
  have read : entryTurn (steadyHost loopDisc) (myIteration "RR") { rootArea with ptr := 7 } = .inr loopArea :=
    entryTurn_continues rfl rfl ⟨rfl, rfl, rfl⟩ call
  have again : entryTurn (steadyHost loopDisc) (myIteration "RR") loopArea = .inr loopArea :=
    entryTurn_continues rfl rfl ⟨rfl, rfl, rfl⟩ call
  have reached := ((Reaches.start rootArea).turn passed).turn read
  have searched : getEntry (steadyHost loopDisc) loopCache 17 34 35 "RR" fuel = none :=
    run_stuck (n := fuel) reached again
  have volume : readVolume (steadyHost loopDisc) (leftover (fun _ => 0) 0).boot =
      some (loopCache, slice descriptor.byte 0 voldescSize, slice loopRoot.byte 0 dirSize) := rfl
  have looked : rockRidge (steadyHost loopDisc) loopCache 17 (slice loopRoot.byte 0 dirSize) 0 fuel = none := by
    have last : rockRidge (steadyHost loopDisc) loopCache 17 (slice loopRoot.byte 0 dirSize) 0 fuel =
        (getEntry (steadyHost loopDisc) loopCache 17 34 35 "RR" fuel).map fun found =>
          .ok (found.1, found.2.isSome, 0) := rfl
    rw [last, searched]
    rfl
  have made : cdromCreate (steadyHost loopDisc) (leftover (fun _ => 0) 0) fuel = none := by
    rw [cdromCreate, volume]
    exact congrArg (Option.map _) looked
  rw [openAndLoad, made] at ended
  cases ended

/-- A disc without System Use entries is opened and searched. -/
theorem plainDisc_sound :
    CreateSound (steadyHost plainDisc) (leftover (fun _ => 0) 0) ∧
      ∀ fuel dev, cdromCreate (steadyHost plainDisc) (leftover (fun _ => 0) 0) fuel = some (.ok (some dev)) →
        FileSound (steadyHost plainDisc) dev (chars "a") :=
  (openAndLoad_ends_iff _ _ _).mp ⟨1, _, rfl⟩

end Parthenope.Cdrom
