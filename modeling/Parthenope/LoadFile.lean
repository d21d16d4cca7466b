import Parthenope.CdromFiles
import Parthenope.SfsFiles

/-! What the results of `load_file` tell, for both kinds of volumes. A result less than
zero is all that its callers take for a failure. Neither back end looks at whether the
reads of the data succeed, and the one for discs returns 0 for a path that leads to no
file. -/
namespace Parthenope
open CString Buffer StepLoop FileTree FileNames

namespace Cdrom

/-- The drive once the whole sectors of a file have been read. -/
def afterMiddle {D : Type} (read : BlockRead D) (boot : Cache D) (block size : Word) : D :=
  if size / 2048 ≠ 0 then (read boot.phys block (size / 2048).toNat).1 else boot.phys

/-- No `block_read` for the data of a file fails: that of its whole sectors, and that of
the last one where it is not in the cache. -/
def ReadsSucceed {D : Type} (read : BlockRead D) (boot : Cache D) (block size : Word) : Prop :=
  (size / 2048 ≠ 0 → (read boot.phys block (size / 2048).toNat).2.1 = true) ∧
  (size % 2048 ≠ 0 → boot.sectorInBuf ≠ block + size / 2048 →
    (read (afterMiddle read boot block size) (block + size / 2048) 1).2.1 = true)

/-- All of the data is from the disc: where the last sector is in the cache, the latest
`block_read` into the cache has succeeded. -/
def DataRead {D : Type} (read : BlockRead D) (boot : Cache D) (block size : Word) : Prop :=
  ReadsSucceed read boot block size ∧
    (size % 2048 ≠ 0 → boot.sectorInBuf = block + size / 2048 → boot.filled = true)

/-- A load ends, with a negative result unless all of the data is from the disc. -/
def Reports {D : Type} (host : Host D) (dev : CdromBootDev D) (filename : List Byte) (boot : Cache D)
    (place : Word × Word) : Prop :=
  ∃ r bytes, Loads host dev filename r bytes ∧ (¬DataRead host.read boot place.1 place.2 → r < 0)

section
variable {D : Type} {host : Host D} {dev : CdromBootDev D} {read : BlockRead D} {boot : Cache D} {block size : Word}
  {filename : List Byte} {place : Word × Word} {fuel : Nat}

private theorem rest_of_sectors (size : Word) : size - 2048 * (size / 2048) = size % 2048 := by
  have bounded := size.isLt
  have sector : (2048 : Word).toNat = 2048 := rfl
  apply BitVec.eq_of_toNat_eq
  rw [BitVec.toNat_sub, BitVec.toNat_mul, BitVec.toNat_udiv, BitVec.toNat_umod, sector]
  omega

private theorem readMiddle_succeeds
    (success : size / 2048 ≠ 0 → (read boot.phys block (size / 2048).toNat).2.1 = true) :
    ∃ dest, readMiddle read boot ⟨block, 0, size, []⟩ =
      ({ boot with phys := afterMiddle read boot block size }, .ok ⟨block + size / 2048, 0, size % 2048, dest⟩) := by
  unfold readMiddle afterMiddle
  by_cases whole : size / 2048 ≠ 0
  · have answered := success whole
    rw [if_pos whole, if_pos whole]
    dsimp only
    generalize read boot.phys block (size / 2048).toNat = answer at answered ⊢
    obtain ⟨phys, ok, buffer⟩ := answer
    cases answered
    rw [rest_of_sectors]
    exact ⟨_, rfl⟩
  · rw [if_neg whole, if_neg whole]
    have none : size / 2048 = 0 := not_not.mp whole
    have rest := rest_of_sectors size
    rw [none] at rest
    have same : size % 2048 = size := rest.symm.trans (BitVec.sub_zero size)
    have here : block + 0 = block := BitVec.add_zero block
    rw [none, same, here]
    exact ⟨[], rfl⟩

private theorem readMiddle_fails (whole : size / 2048 ≠ 0)
    (failed : (read boot.phys block (size / 2048).toNat).2.1 = false) :
    ∃ boot' dest, readMiddle read boot ⟨block, 0, size, []⟩ = (boot', .error dest) := by
  rw [readMiddle, if_pos whole]
  dsimp only
  generalize read boot.phys block (size / 2048).toNat = answer at failed ⊢
  obtain ⟨phys, ok, buffer⟩ := answer
  cases failed
  exact ⟨_, _, rfl⟩

private theorem readTail_ok_iff (boot : Cache D) (t : Transfer) :
    (∃ t', (readTail read boot t).2 = .ok t') ↔
      (t.length ≠ 0 → boot.sectorInBuf ≠ t.block → (read boot.phys t.block 1).2.1 = true) := by
  unfold readTail
  by_cases part : t.length ≠ 0
  · rw [if_pos part, refill]
    by_cases other : boot.sectorInBuf ≠ t.block
    · rw [if_pos other]
      generalize read boot.phys t.block 1 = answer
      obtain ⟨phys, ok, buffer⟩ := answer
      cases ok with
      | false => exact ⟨fun ⟨t', ended⟩ => (by cases ended), fun success => (by cases success part other)⟩
      | true => exact ⟨fun _ _ _ => rfl, fun _ => ⟨_, rfl⟩⟩
    · rw [if_neg other]
      exact ⟨fun _ _ different => absurd different other, fun _ => ⟨_, rfl⟩⟩
  · rw [if_neg part]
    exact ⟨fun _ more => absurd more part, fun _ => ⟨t, rfl⟩⟩

/-- `cdrom_read` returns 0 if and only if none of its reads fails. -/
theorem cdromRead_ok_iff :
    (∃ dest, (cdromRead read boot block 0 size).2 = .ok dest) ↔ ReadsSucceed read boot block size := by
  have call : (cdromRead read boot block 0 size).2 =
      (andThen (readTail read) (readMiddle read boot ⟨block, 0, size, []⟩)).2.map Transfer.dest := rfl
  have mapped (result : Except (List Byte) Transfer) :
      (∃ dest, result.map Transfer.dest = .ok dest) ↔ ∃ t, result = .ok t := by
    cases result <;> simp [Except.map]
  rw [call, mapped]
  by_cases success : size / 2048 ≠ 0 → (read boot.phys block (size / 2048).toNat).2.1 = true
  · obtain ⟨dest, middle⟩ := readMiddle_succeeds success
    rw [middle, andThen, readTail_ok_iff]
    exact (and_iff_right success).symm
  · obtain ⟨whole, failed⟩ : size / 2048 ≠ 0 ∧ (read boot.phys block (size / 2048).toNat).2.1 = false := by
      simpa using success
    obtain ⟨boot', dest, middle⟩ := readMiddle_fails whole failed
    rw [middle, andThen]
    constructor
    · rintro ⟨t, other⟩
      cases other
    · exact fun both => absurd both.1 success

/-- The result of a load is the size of the file, whether its data could be read or not. -/
theorem reports_iff (found : fsCdromFindFile host dev filename fuel = some (.ok (boot, some place))) :
    Reports host dev filename boot place ↔
      DataRead host.read boot place.1 place.2 ∨ 2 ^ 31 ≤ place.2.toNat := by
  have loaded := load_found found
  constructor
  · rintro ⟨r, bytes, loads, reports⟩
    obtain ⟨rfl, -⟩ := loads.unique loaded
    by_contra neither
    rw [not_or] at neither
    have negative := reports neither.1
    rw [BitVec.toInt_eq_toNat_of_lt (by omega)] at negative
    omega
  · intro either
    refine ⟨_, _, ⟨fuel, _, loaded⟩, fun failed => ?_⟩
    have large := either.resolve_left failed
    have := place.2.isLt
    rw [BitVec.toInt_eq_toNat_cond, if_neg (by omega)]
    omega

end

end Cdrom

namespace Sfs

/-- A read of a block that the file has bytes in fails. -/
def CopyFails {D : Type} (host : Host D) (boot : SfsBootDev) (next size : Word) : Nat → Word → Loading D → Prop
  | 0, _, _ => False
  | blocks + 1, i, loading =>
    loading.2.1 < size ∧ (sfsLoadsector host boot loading.1 (next + i)).2.1 = false ∨
      CopyFails host boot next size blocks (i + 1) (copyBlocks host boot next size 1 i loading)

/-- Such a read fails in one of the extents from one on. -/
inductive DataFails {D : Type} (host : Host D) (boot : SfsBootDev) (size : Word) : Word → Loading D → Prop
  | here {next : Word} {loading : Loading D} {d : D} {sebn : Nat → Byte} {fuel : Nat} : next ≠ 0 →
      loading.2.1 < size → getBnode host boot loading.1 next fuel = some (d, some sebn) →
      CopyFails host boot next size (be16 sebn sebnBlocks).toNat 0 (d, loading.2) →
      DataFails host boot size next loading
  | later {next : Word} {loading : Loading D} {d : D} {sebn : Nat → Byte} {fuel : Nat} : next ≠ 0 →
      loading.2.1 < size → getBnode host boot loading.1 next fuel = some (d, some sebn) →
      DataFails host boot size (be32 sebn sebnNext)
        (copyBlocks host boot next size (be16 sebn sebnBlocks).toNat 0 (d, loading.2)) →
      DataFails host boot size next loading

/-- A load ends, with a negative result if a read of the file's data fails. -/
def Reports {D : Type} (host : Host D) (boot : SfsBootDev) (d : D) (filename : List Byte)
    (before : ByteMemory.Memory 32) (d' : D) (o : Nat → Byte) : Prop :=
  ∃ fuel d'' r filebuffer,
    sfsLoadfile host boot d filename (some before) fuel = some (.ok (d'', r, filebuffer)) ∧
    (DataFails host boot (be32 o soSize) (be32 o soData) (d', 0, some before) → r < 0)

section
variable {D : Type} {host : Host D} {self : SfsBootDev} {d d' : D} {filename : List Byte} {o : Nat → Byte}
  {before : ByteMemory.Memory 32} {fuel : Nat} {size next : Word} {extents : List (Word × Nat)} {loading : Loading D}

/-- A chain of extents is followed to its end or to that of the file, and each block counts. -/
theorem extents_counted (chain : Extents host self next extents) (begun : loading.2.1.toNat ≤ size.toNat) :
    ∃ n r, run (settle (extentTurn host self size)) n (next, loading) = some (some (.ok r)) ∧
      r.2.1.toNat = min size.toNat (loading.2.1.toNat + (extents.map Prod.snd).sum * self.blocksize.toNat) := by
  let Inv (done : List (Word × Nat)) (r : Loading D) : Prop := r.2.1.toNat =
    min size.toNat (loading.2.1.toNat + (done.map Prod.snd).sum * self.blocksize.toNat)
  refine extents_followed Inv chain ?_ ?_ [] (by simp [Inv, begun])
  · intro done start blocks d' now counted _
    have more : now.2.1.toNat ≤ size.toNat := counted ▸ Nat.min_le_left _ _
    have copied : (copyBlocks host self start size blocks 0 (d', now.2)).2.1.toNat =
        min size.toNat (now.2.1.toNat + blocks * self.blocksize.toNat) := copyBlocks_counts (d', now.2) more
    dsimp only [Inv] at counted ⊢
    rw [copied, counted, List.map_append, List.sum_append, List.map_singleton, List.sum_singleton, Nat.add_mul]
    dsimp only
    omega
  · intro done rest now counted finished
    have := mt BitVec.lt_def.mpr finished
    dsimp only [Inv] at counted ⊢
    rw [List.map_append, List.sum_append, Nat.add_mul]
    omega

/-- The result of a load is the size of the file, whether its data could be read or not. -/
theorem reports_iff (found : sfsFind host self d filename fuel = some (d', some o))
    (chain : Extents host self (be32 o soData) extents)
    (enough : (be32 o soSize).toNat ≤ (extents.map Prod.snd).sum * self.blocksize.toNat) :
    Reports host self d filename before d' o ↔
      ¬DataFails host self (be32 o soSize) (be32 o soData) (d', 0, some before) ∨
        2 ^ 31 ≤ (be32 o soSize).toNat := by
  have begun : (d', (0 : Word), some before).2.1.toNat ≤ (be32 o soSize).toNat := Nat.zero_le _
  obtain ⟨n, ⟨d'', readed, filebuffer⟩, runs, total⟩ := extents_counted chain begun
  obtain ⟨k, ended⟩ := (nested_settle extentTurn_steady).mpr ⟨n, runs⟩
  have whole : readed = be32 o soSize := by
    apply BitVec.eq_of_toNat_eq
    simpa [enough] using total
  subst whole
  have loaded : sfsLoadfile host self d filename (some before) (max fuel k) =
      some (.ok (d'', (be32 o soSize).toInt, filebuffer)) := by
    rw [sfsLoadfile, find_more found (le_max_left fuel k)]
    dsimp only
    rw [nested_more extentTurn_steady ended (le_max_right fuel k)]
    rfl
  constructor
  · rintro ⟨more, d₁, r, filebuffer', loaded', reports⟩
    cases (loadfile_more loaded (le_max_left _ more)).symm.trans (loadfile_more loaded' (le_max_right _ more))
    by_contra neither
    rw [not_or, not_not] at neither
    have negative := reports neither.1
    rw [BitVec.toInt_eq_toNat_of_lt (by omega)] at negative
    omega
  · intro either
    refine ⟨_, _, _, _, loaded, fun failed => ?_⟩
    have large := either.resolve_left (not_not_intro failed)
    have := (be32 o soSize).isLt
    rw [BitVec.toInt_eq_toNat_cond, if_neg (by omega)]
    omega

private theorem copyFails_readable {sectors : Word → Nat → Byte}
    (readable : Readable host self.blksz sectors) (blocks : Nat)
    (i : Word) (loading : Loading D) : ¬CopyFails host self next size blocks i loading := by
  induction blocks generalizing i loading with
  | zero => exact id
  | succ blocks ih =>
    rintro (⟨-, failed⟩ | later)
    · have success : (sfsLoadsector host self loading.1 (next + i)).2.1 = true := (readable _ _ _).1
      rw [failed] at success
      cases success
    · exact ih _ _ later

/-- Where every block can be read no read fails. -/
theorem dataFails_readable {sectors : Word → Nat → Byte} (readable : Readable host self.blksz sectors) :
    ¬DataFails host self size next loading := by
  intro fails
  induction fails with
  | here _ _ _ copies => exact copyFails_readable readable _ _ _ copies
  | later _ _ _ _ ih => exact ih

end

end Sfs

/-- Neither back end looks at whether the reads of a file's data succeed: failures are
told of by chance only, where the size of the file is no `int`. -/
theorem load_reports_failures_iff (D : Type) (filename : List Byte) (fuel : Nat) :
    (∀ (host : Cdrom.Host D) (dev : Cdrom.CdromBootDev D) (boot : Cdrom.Cache D) (place : Word × Word),
      Cdrom.fsCdromFindFile host dev filename fuel = some (.ok (boot, some place)) →
        (Cdrom.Reports host dev filename boot place ↔
          Cdrom.DataRead host.read boot place.1 place.2 ∨ 2 ^ 31 ≤ place.2.toNat) ∧
        (Cdrom.DataRead host.read boot place.1 place.2 ↔
          (∃ dest, (Cdrom.cdromRead host.read boot place.1 0 place.2).2 = .ok dest) ∧
          (place.2 % 2048 ≠ 0 → boot.sectorInBuf = place.1 + place.2 / 2048 → boot.filled = true))) ∧
    ∀ (host : Sfs.Host D) (boot : Sfs.SfsBootDev) (d d' : D) (o : Nat → Byte) (extents : List (Word × Nat))
      (before : ByteMemory.Memory 32),
      Sfs.sfsFind host boot d filename fuel = some (d', some o) →
      Sfs.Extents host boot (be32 o Sfs.soData) extents →
      (be32 o Sfs.soSize).toNat ≤ (extents.map Prod.snd).sum * boot.blocksize.toNat →
        (Sfs.Reports host boot d filename before d' o ↔
          ¬Sfs.DataFails host boot (be32 o Sfs.soSize) (be32 o Sfs.soData) (d', 0, some before) ∨
            2 ^ 31 ≤ (be32 o Sfs.soSize).toNat) :=
  ⟨fun _ _ _ _ found => ⟨Cdrom.reports_iff found, and_congr_left fun _ => Cdrom.cdromRead_ok_iff.symm⟩,
    fun _ _ _ _ _ _ _ found chain enough => Sfs.reports_iff found chain enough⟩

/-- A CD drive that fails for a sector, and a disk that does. -/
def Cdrom.failingHost (disc : Word → Cdrom.Sector) (bad : Word) : Cdrom.Host Unit :=
  { Cdrom.steadyHost disc with read := fun _ block _ => ((), block != bad, fun k => disc (block + BitVec.ofNat 32 k)) }

def Sfs.failingHost (sectors : Word → Nat → Byte) (bad : Word) : Sfs.Host Unit :=
  { Sfs.steadyHost sectors with
    loadsector := fun _ sectn _ _ => ((), sectn != bad, fun i =>
      sectors (sectn + BitVec.ofNat 32 (i / 512)) (i % 512)) }

private theorem Cdrom.fileDisc_looked (host : Cdrom.Host Unit)
    (holds : (Cdrom.fsCdromFindFile host Cdrom.fileDev (chars "a") 20).any (fun outcome => outcome.toOption.any
      fun r => r.2 = some (18, 5) ∧ r.1.sectorInBuf = 17) = true) :
    ∃ boot : Cdrom.Cache Unit, Cdrom.fsCdromFindFile host Cdrom.fileDev (chars "a") 20 =
      some (.ok (boot, some (18, 5))) ∧ boot.sectorInBuf = 17 := by
  obtain ⟨outcome, found, ended⟩ := (Option.any_eq_true _ _).mp holds
  cases outcome with
  | error fault => cases ended
  | ok r =>
    obtain ⟨boot, place⟩ := r
    obtain ⟨rfl, cached⟩ := of_decide_eq_true ended
    exact ⟨boot, found, cached⟩

/-- On volumes that can be read both back ends report what they load. -/
theorem small_files_reported :
    (∃ boot, Cdrom.fsCdromFindFile (Cdrom.steadyHost Cdrom.fileDisc) Cdrom.fileDev (chars "a") 20 =
        some (.ok (boot, some (18, 5))) ∧
      Cdrom.Reports (Cdrom.steadyHost Cdrom.fileDisc) Cdrom.fileDev (chars "a") boot (18, 5)) ∧
    ∃ o, Sfs.sfsFind (Sfs.steadyHost Sfs.smallSectors) Sfs.smallVolume () (chars "a") 200 = some ((), some o) ∧
      Sfs.Reports (Sfs.steadyHost Sfs.smallSectors) Sfs.smallVolume () (chars "a") (fun _ => 0) () o := by
  constructor
  · obtain ⟨boot, found, cached⟩ := Cdrom.fileDisc_looked (Cdrom.steadyHost Cdrom.fileDisc) (by decide)
    have read : Cdrom.DataRead (Cdrom.steadyHost Cdrom.fileDisc).read boot 18 5 := by
      refine ⟨⟨fun _ => rfl, fun _ _ => rfl⟩, fun _ same => ?_⟩
      rw [cached] at same
      exact absurd same (by decide)
    exact ⟨boot, found, ((load_reports_failures_iff _ _ _).1 _ _ _ _ found).1.mpr (.inl read)⟩
  · obtain ⟨o, found, data, size⟩ := Sfs.smallVolume_object
    have chain := Sfs.smallVolume_extents data Sfs.smallVolume_finds.1 Sfs.smallVolume_finds.2
    have enough : (be32 o Sfs.soSize).toNat ≤
        ([(3, 1), (5, 1)].map Prod.snd).sum * Sfs.smallVolume.blocksize.toNat := by
      rw [size]
      decide
    exact ⟨o, found, ((load_reports_failures_iff _ _ _).2 _ _ _ _ _ _ _ found chain enough).mpr
      (.inl (Sfs.dataFails_readable Sfs.smallVolume_readable))⟩

/-- A file in a sector that cannot be read: both report its size. -/
theorem failed_reads_unreported :
    (∃ boot, Cdrom.fsCdromFindFile (Cdrom.failingHost Cdrom.fileDisc 18) Cdrom.fileDev (chars "a") 20 =
        some (.ok (boot, some (18, 5))) ∧
      ¬Cdrom.Reports (Cdrom.failingHost Cdrom.fileDisc 18) Cdrom.fileDev (chars "a") boot (18, 5)) ∧
    ∃ o, Sfs.sfsFind (Sfs.failingHost Sfs.smallSectors 3) Sfs.smallVolume () (chars "a") 200 = some ((), some o) ∧
      ¬Sfs.Reports (Sfs.failingHost Sfs.smallSectors 3) Sfs.smallVolume () (chars "a") (fun _ => 0) () o := by
  constructor
  · obtain ⟨boot, found, cached⟩ := Cdrom.fileDisc_looked (Cdrom.failingHost Cdrom.fileDisc 18) (by decide)
    refine ⟨boot, found, ?_⟩
    rw [Cdrom.reports_iff found]
    rintro (read | large)
    · have other : boot.sectorInBuf ≠ 18 + 5 / 2048 := by
        rw [cached]
        decide
      have success : ((18 : Word) + 5 / 2048 != 18) = true := read.1.2 (by decide) other
      exact absurd success (by decide)
    · exact absurd large (by decide)
  · have three : Sfs.Finds (Sfs.failingHost Sfs.smallSectors 3) Sfs.smallVolume 3 1 5 :=
      Sfs.small_finds (by decide +kernel)
    have five : Sfs.Finds (Sfs.failingHost Sfs.smallSectors 3) Sfs.smallVolume 5 1 0 :=
      Sfs.small_finds (by decide +kernel)
    obtain ⟨o, found, data, size⟩ : ∃ o, Sfs.sfsFind (Sfs.failingHost Sfs.smallSectors 3) Sfs.smallVolume ()
        (chars "a") 200 = some ((), some o) ∧ be32 o Sfs.soData = 3 ∧ be32 o Sfs.soSize = 600 :=
      Sfs.object_fields (by decide +kernel)
    have chain := Sfs.smallVolume_extents data three five
    have enough : (be32 o Sfs.soSize).toNat ≤
        ([(3, 1), (5, 1)].map Prod.snd).sum * Sfs.smallVolume.blocksize.toNat := by
      rw [size]
      decide
    refine ⟨o, found, ?_⟩
    rw [Sfs.reports_iff found chain enough, data, size]
    rintro (none | large)
    · obtain ⟨fuel, d, sebn, node, -, count, -⟩ := three ()
      refine none (.here (by decide) (by decide) node ?_)
      rw [count]
      have unread : (0 : Word) < 600 := by decide
      exact .inl ⟨unread, rfl⟩
    · exact absurd large (by decide)

/-- On volumes that can be read a negative result is all that callers have to look for,
if and only if a disc has the file, or a disk has no directory under the path. -/
theorem load_contract_iff (D : Type) (filename : List Byte) (ended : (0 : Byte) ∉ filename) :
    (∀ (host : Cdrom.Host D) (dev : Cdrom.CdromBootDev D) (disc : Word → Cdrom.Sector)
      (entries : Word × Word → Cdrom.Listing),
      Cdrom.Serves host.read disc → Cdrom.Coherent disc dev.boot →
      WellFormed (Cdrom.Lists host disc (Cdrom.Named host dev disc)) IsFileName entries (Cdrom.rootPlace host dev) →
      Unmixed fold entries (Cdrom.rootPlace host dev) →
        (Contract (follow fold (lookup fold) entries (Sfs.pathComponents filename) (Cdrom.rootPlace host dev))
            (Cdrom.extentContent disc) (Cdrom.Loads host dev filename) ↔
          (Cdrom.pathElements filename).length ≤ Cdrom.isoMaxDepth + 1 ∧
          ∃ place, follow fold (lookup fold) entries (Sfs.pathComponents filename) (Cdrom.rootPlace host dev) =
            some (.file place) ∧ place.2.toNat < 2 ^ 31)) ∧
    ∀ (host : Sfs.Host D) (boot : Sfs.SfsBootDev) (sectors : Word → Nat → Byte)
      (content : (Nat → Byte) → List Byte)
      (entries : (Nat → Byte) → List (List Byte × Node (Nat → Byte) (Nat → Byte))) (d : D)
      (before : ByteMemory.Memory 32),
      Sfs.Readable host boot.blksz sectors → boot.blocksize.toNat % 512 = 0 →
      WellFormed (Sfs.Lists host boot sectors) IsFileName entries boot.root →
      Sfs.Stored host boot sectors content entries boot.root →
        (Contract (follow fold (lookup fold) entries (Sfs.pathComponents filename) boot.root) content
            (Sfs.Loads host boot d filename before) ↔
          (∀ o, follow fold (lookup fold) entries (Sfs.pathComponents filename) boot.root ≠ some (.dir o)) ∧
          ∀ o, follow fold (lookup fold) entries (Sfs.pathComponents filename) boot.root = some (.file o) →
            (content o).length < 2 ^ 31) :=
  ⟨fun _ _ _ _ serves coherent formed unmixed => Cdrom.loads_contract_iff serves coherent formed unmixed ended,
    fun _ _ _ _ _ _ _ readable whole formed stored =>
      Sfs.loads_contract_iff readable whole formed stored ended⟩

/-- The content of the file of the small volume. -/
def Sfs.smallContent (_ : Nat → Byte) : List Byte :=
  (Sfs.chainBytes Sfs.smallVolume Sfs.smallSectors [(3, 1), (5, 1)]).take 600

example : (Sfs.smallContent Sfs.smallObject).length = 600 := by decide +kernel

private theorem Sfs.smallVolume_stored :
    Sfs.Stored (Sfs.steadyHost Sfs.smallSectors) Sfs.smallVolume Sfs.smallSectors Sfs.smallContent
      (fun _ => [(chars "a", Sfs.objectNode Sfs.smallObject)]) Sfs.smallVolume.root := by
  have data : be32 Sfs.smallObject Sfs.soData = 3 := by decide
  have size : be32 Sfs.smallObject Sfs.soSize = 600 := by decide
  constructor
  · intro i _ name o member
    rw [Sfs.smallVolume_file] at member
    cases List.mem_singleton.mp member
    refine ⟨[(3, 1), (5, 1)], ?_, ?_, ?_⟩
    · exact Sfs.smallVolume_extents data Sfs.smallVolume_finds.1 Sfs.smallVolume_finds.2
    · rw [size, Sfs.chainBytes_length]
      decide
    · rw [size]
      rfl
  · intro i _ name o member
    rw [Sfs.smallVolume_file] at member
    cases List.mem_singleton.mp member

private theorem Cdrom.fileDisc_unmixed : Unmixed fold (fun _ => Cdrom.fileRoot)
    (Cdrom.rootPlace (Cdrom.steadyHost Cdrom.fileDisc) Cdrom.fileDev) := by
  intro i _
  change ∀ a ∈ Cdrom.fileRoot, ∀ b ∈ Cdrom.fileRoot, fold a.1 = fold b.1 → a.2.isDir = b.2.isDir
  decide

private theorem Cdrom.fileDisc_coherent : Cdrom.Coherent Cdrom.fileDisc Cdrom.fileDev.boot := rfl

private theorem Cdrom.fileDisc_named :
    WellFormed (Cdrom.Lists (Cdrom.steadyHost Cdrom.fileDisc) Cdrom.fileDisc
      (Cdrom.Named (Cdrom.steadyHost Cdrom.fileDisc) Cdrom.fileDev Cdrom.fileDisc)) IsFileName (fun _ => Cdrom.fileRoot)
      (Cdrom.rootPlace (Cdrom.steadyHost Cdrom.fileDisc) Cdrom.fileDev) :=
  Cdrom.identified_formed Cdrom.fileDisc_serves rfl Cdrom.fileDisc_formed

/-- The files of both small volumes are loaded as the contract says. -/
theorem small_files_loaded :
    Contract (some (.file (18, 5)) : Option (Node (Word × Word) (Word × Word))) (Cdrom.extentContent Cdrom.fileDisc)
      (Cdrom.Loads (Cdrom.steadyHost Cdrom.fileDisc) Cdrom.fileDev (chars "/A")) ∧
    Contract (some (.file Sfs.smallObject) : Option (Node (Nat → Byte) (Nat → Byte))) Sfs.smallContent
      (Sfs.Loads (Sfs.steadyHost Sfs.smallSectors) Sfs.smallVolume () (chars "/A") (fun _ => 0)) := by
  have ended : (0 : Byte) ∉ chars "/A" := by decide
  constructor
  · have leads : follow fold (lookup fold) (fun _ => Cdrom.fileRoot) (Sfs.pathComponents (chars "/A"))
        (Cdrom.rootPlace (Cdrom.steadyHost Cdrom.fileDisc) Cdrom.fileDev) = some (.file (18, 5)) := by
      decide
    have contract := (load_contract_iff _ _ ended).1 _ _ _ _ Cdrom.fileDisc_serves Cdrom.fileDisc_coherent
      Cdrom.fileDisc_named Cdrom.fileDisc_unmixed
    rw [leads] at contract
    exact contract.mpr ⟨by decide, (18, 5), rfl, by decide⟩
  · have leads : follow fold (lookup fold) (fun _ => [(chars "a", Sfs.objectNode Sfs.smallObject)])
        (Sfs.pathComponents (chars "/A")) Sfs.smallVolume.root = some (.file Sfs.smallObject) := by
      rw [← Sfs.smallVolume_file]
      rfl
    have contract := (load_contract_iff _ _ ended).2 _ _ _ _ _ () (fun _ => 0) Sfs.smallVolume_readable
      (by decide) Sfs.smallVolume_formed Sfs.smallVolume_stored
    rw [leads] at contract
    refine contract.mpr ⟨fun o other => (by cases other), fun o same => ?_⟩
    rw [Sfs.smallContent, List.length_take]
    omega

/-- The path of a file that is not on the disc is no failure. -/
theorem missing_file_accepted :
    follow fold (lookup fold) (fun _ => Cdrom.fileRoot) (Sfs.pathComponents (chars "b"))
      (Cdrom.rootPlace (Cdrom.steadyHost Cdrom.fileDisc) Cdrom.fileDev) = none ∧
    ¬Contract (none : Option (Node (Word × Word) (Word × Word))) (Cdrom.extentContent Cdrom.fileDisc)
      (Cdrom.Loads (Cdrom.steadyHost Cdrom.fileDisc) Cdrom.fileDev (chars "b")) := by
  have lost : follow fold (lookup fold) (fun _ => Cdrom.fileRoot) (Sfs.pathComponents (chars "b"))
      (Cdrom.rootPlace (Cdrom.steadyHost Cdrom.fileDisc) Cdrom.fileDev) = none := by
    decide
  have ended : (0 : Byte) ∉ chars "b" := by decide
  refine ⟨lost, fun contract => ?_⟩
  have kept := Cdrom.loads_contract_iff Cdrom.fileDisc_serves Cdrom.fileDisc_coherent Cdrom.fileDisc_named
    Cdrom.fileDisc_unmixed ended
  rw [lost] at kept
  obtain ⟨-, place, other, -⟩ := kept.mp contract
  cases other

end Parthenope
