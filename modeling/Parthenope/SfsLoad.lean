import Parthenope.SfsLoops

/-! What `sfs_loadfile` delivers. The extents of a file are a chain of nodes, each
found under its own first block; the loop copies whole blocks as long as the file
lasts, a part of its last one, and nothing of what the chain has beyond. -/
namespace Parthenope.Sfs
open CString Buffer StepLoop ByteMemory

/-- A disk whose reads succeed and deliver its sectors. -/
def Readable {D : Type} (host : Host D) (blksz : Word) (sectors : Word → Nat → Byte) : Prop :=
  ∀ d sectn count, (host.loadsector d sectn blksz count).2.1 = true ∧
    ∀ i < 512 * count.toNat,
      (host.loadsector d sectn blksz count).2.2 i = sectors (sectn + BitVec.ofNat 32 (i / 512)) (i % 512)

/-- The bytes of a block of the volume. -/
def blockByte (self : SfsBootDev) (sectors : Word → Nat → Byte) (block : Word) (i : Nat) : Byte :=
  sectors (self.start + block * (self.blocksize / 512) + BitVec.ofNat 32 (i / 512)) (i % 512)

/-- The B-tree has the extent with the first block given under that block. -/
def Finds {D : Type} (host : Host D) (self : SfsBootDev) (start : Word) (blocks : Nat) (next : Word) : Prop :=
  ∀ d, ∃ fuel d' sebn, getBnode host self d start fuel = some (d', some sebn) ∧
    be32 sebn bnKey = start ∧ (be16 sebn sebnBlocks).toNat = blocks ∧ be32 sebn sebnNext = next

/-- The extents of a file, each by its first block and its length. -/
inductive Extents {D : Type} (host : Host D) (self : SfsBootDev) : Word → List (Word × Nat) → Prop
  | nil : Extents host self 0 []
  | cons {start next : Word} {blocks : Nat} {rest : List (Word × Nat)} : start ≠ 0 →
      Finds host self start blocks next → 1 ≤ blocks → Extents host self next rest →
      Extents host self start ((start, blocks) :: rest)

/-- The bytes of an extent's blocks. -/
def extentBytes (self : SfsBootDev) (sectors : Word → Nat → Byte) (start : Word) (blocks : Nat) : List Byte :=
  (List.range blocks).flatMap fun i =>
    slice (blockByte self sectors (start + BitVec.ofNat 32 i)) 0 self.blocksize.toNat

def chainBytes (self : SfsBootDev) (sectors : Word → Nat → Byte) (extents : List (Word × Nat)) : List Byte :=
  extents.flatMap fun extent => extentBytes self sectors extent.1 extent.2

/-- So many bytes of a content are in memory, and the rest of memory is as before. -/
def Holds (m before : Memory 32) (content : List Byte) (n : Nat) : Prop :=
  (∀ x : Word, x.toNat < n → content[x.toNat]? = some (m x)) ∧ ∀ x : Word, n ≤ x.toNat → m x = before x

/-- A load that has come by some content: as much of it as the file has is in memory. -/
structure Loaded {D : Type} (size : Word) (before : Memory 32) (content : List Byte) (loading : Loading D) :
    Prop where
  readed : loading.2.1.toNat = min size.toNat content.length
  memory : ∃ m, loading.2.2 = some m ∧ Holds m before content (min size.toNat content.length)

section
variable {D : Type} {host : Host D} {self : SfsBootDev} {sectors : Word → Nat → Byte} {d : D}
  {block next size : Word} {before m : Memory 32} {content bytes : List Byte} {loading : Loading D}
  {extents : List (Word × Nat)} {filename : List Byte} {fuel blocks i n : Nat}

private theorem load_block (readable : Readable host self.blksz sectors) (whole : self.blocksize.toNat % 512 = 0)
    (inside : i < self.blocksize.toNat) :
    (sfsLoadsector host self d block).2.2 i = blockByte self sectors block i := by
  have count : (self.blocksize / 512).toNat = self.blocksize.toNat / 512 := BitVec.toNat_udiv
  have within : i < 512 * (self.blocksize / 512).toNat := by omega
  have read := (readable d (self.start + block * (self.blocksize / 512)) (self.blocksize / 512)).2 i within
  rw [sfsLoadsector]
  dsimp only
  rw [if_pos within, read, blockByte]

/-- A copy behind what is in memory. -/
theorem Holds.copy {dest : Word} {buffer : Nat → Byte} {t : Nat} (holds : Holds m before content dest.toNat)
    (fits : dest.toNat + t < 2 ^ 32) (known : dest.toNat ≤ content.length)
    (filled : ∀ i < t, (content ++ bytes)[dest.toNat + i]? = some (buffer i)) :
    Holds (copyFrom buffer dest t m) before (content ++ bytes) (dest.toNat + t) := by
  have beyond (x : Word) (behind : dest.toNat ≤ x.toNat) : (x - dest).toNat = x.toNat - dest.toNat :=
    BitVec.toNat_sub_of_le (BitVec.le_def.mpr behind)
  constructor
  · intro x inside
    by_cases copied : dest.toNat ≤ x.toNat
    · have place := beyond x copied
      have within : Within dest t x := by
        rw [Within, place]
        omega
      rw [copyFrom, if_pos within, ← filled _ within, place]
      congr 1
      omega
    · have outside : ¬Within dest t x := by
        have := x.isLt
        have := dest.isLt
        have wrapped : (x - dest).toNat = 2 ^ 32 - dest.toNat + x.toNat := by
          rw [BitVec.toNat_sub]
          omega
        rw [Within, wrapped]
        omega
      rw [copyFrom, if_neg outside, List.getElem?_append_left (by omega)]
      exact holds.1 x (by omega)
  · intro x after
    have place := beyond x (by omega)
    have outside : ¬Within dest t x := by
      rw [Within, place]
      omega
    rw [copyFrom, if_neg outside]
    exact holds.2 x (by omega)

/-- A block more of content is a block, or a part of one, or nothing more in memory. -/
theorem Loaded.adds {readed : Word} {buffer : Nat → Byte} (d' : D)
    (loaded : Loaded size before content (d, readed, some m))
    (length : bytes.length = self.blocksize.toNat)
    (filled : ∀ i < self.blocksize.toNat, bytes[i]? = some (buffer i)) :
    Loaded size before (content ++ bytes) (d', readed + toCopy self size readed,
      some (copyFrom buffer readed (toCopy self size readed).toNat m)) := by
  obtain ⟨count, m', same, holds⟩ := loaded
  cases same
  dsimp only at count
  have begun : readed.toNat ≤ size.toNat := by omega
  have copied : (toCopy self size readed).toNat = min self.blocksize.toNat (size.toNat - readed.toNat) :=
    toCopy_toNat begun
  have := size.isLt
  have total : readed.toNat + (toCopy self size readed).toNat = min size.toNat (content ++ bytes).length := by
    rw [List.length_append]
    omega
  refine ⟨?_, _, rfl, ?_⟩
  · dsimp only
    rw [BitVec.toNat_add, ← total]
    omega
  · rw [← total]
    refine Holds.copy (count ▸ holds) (by omega) (by omega) ?_
    intro i inside
    have full : readed.toNat = content.length := by omega
    rw [full, List.getElem?_append_right (Nat.le_add_right _ _), Nat.add_sub_cancel_left]
    exact filled i (by omega)

private theorem extentBytes_succ (start : Word) (blocks : Nat) :
    extentBytes self sectors start (blocks + 1) =
      slice (blockByte self sectors start) 0 self.blocksize.toNat ++
        extentBytes self sectors (start + 1) blocks := by
  have next (i : Nat) : start + BitVec.ofNat 32 (i + 1) = start + 1 + BitVec.ofNat 32 i := by
    have one : BitVec.ofNat 32 1 = (1 : Word) := rfl
    rw [BitVec.ofNat_add, one, BitVec.add_comm (BitVec.ofNat 32 i), BitVec.add_assoc]
  have here : start + BitVec.ofNat 32 0 = start := BitVec.add_zero start
  rw [extentBytes, List.range_succ_eq_map, List.flatMap_cons, List.flatMap_map, extentBytes, here]
  refine congrArg (_ ++ ·) (List.flatMap_congr fun i _ => ?_)
  rw [next]

/-- The loop over an extent adds its blocks to the content. -/
theorem copyBlocks_loaded (readable : Readable host self.blksz sectors)
    (whole : self.blocksize.toNat % 512 = 0) (loaded : Loaded size before content loading) (first : Word) :
    Loaded size before
      (content ++ extentBytes self sectors (next + first) blocks)
      (copyBlocks host self next size blocks first loading) := by
  induction blocks generalizing first content loading with
  | zero =>
    rw [extentBytes, List.range_zero, List.flatMap_nil, List.append_nil]
    exact loaded
  | succ blocks ih =>
    obtain ⟨d, readed, filebuffer⟩ := loading
    obtain ⟨m, here, -⟩ := loaded.memory
    dsimp only at here
    subst here
    have filled : ∀ i < self.blocksize.toNat,
        (slice (blockByte self sectors (next + first)) 0 self.blocksize.toNat)[i]? =
          some ((sfsLoadsector host self d (next + first)).2.2 i) := by
      intro i inside
      rw [load_block readable whole inside]
      simp [slice, inside]
    have added := loaded.adds (sfsLoadsector host self d (next + first)).1 slice_length filled
    rw [extentBytes_succ, ← List.append_assoc, BitVec.add_assoc]
    exact ih added (first + 1)

/-- Once the whole file is in memory, more content makes no difference. -/
theorem Loaded.more (loaded : Loaded size before content loading) (full : size.toNat ≤ content.length)
    (rest : List Byte) : Loaded size before (content ++ rest) loading := by
  obtain ⟨count, m, here, inside, outside⟩ := loaded
  have same : min size.toNat (content ++ rest).length = min size.toNat content.length := by
    rw [List.length_append]
    omega
  refine ⟨by rw [same]; exact count, m, here, ?_, ?_⟩
  · intro x below
    rw [same] at below
    rw [List.getElem?_append_left (by omega)]
    exact inside x below
  · rw [same]
    exact outside

/-- The loop over the extents comes to the end of their chain, or of the file. What each
copy keeps, and the end of the file, holds behind the chain. -/
theorem extents_followed (Inv : List (Word × Nat) → Loading D → Prop) (chain : Extents host self next extents)
    (copies : ∀ done start blocks d' loading, Inv done loading → loading.2.1 < size →
      Inv (done ++ [(start, blocks)]) (copyBlocks host self start size blocks 0 (d', loading.2)))
    (past : ∀ done rest loading, Inv done loading → ¬loading.2.1 < size → Inv (done ++ rest) loading)
    (done : List (Word × Nat)) (holds : Inv done loading) :
    ∃ n r, run (settle (extentTurn host self size)) n (next, loading) = some (some (.ok r)) ∧
      Inv (done ++ extents) r := by
  induction chain generalizing done loading with
  | nil =>
    refine ⟨1, loading, run_ends (extentTurn_ends fun further => further.1 rfl), ?_⟩
    rw [List.append_nil]
    exact holds
  | @cons start next blocks rest nonzero finds _ _ ih =>
    by_cases unfinished : loading.2.1 < size
    · obtain ⟨fuel, d', sebn, found, -, count, follows⟩ := finds loading.1
      have turns := extentTurn_copies ⟨nonzero, unfinished⟩ found
      rw [count, follows] at turns
      obtain ⟨n, r, runs, full⟩ := ih _ (copies done start blocks d' loading holds unfinished)
      refine ⟨n + 1, r, (run_turns turns).trans runs, ?_⟩
      rw [List.append_assoc, List.singleton_append] at full
      exact full
    · refine ⟨1, loading, run_ends (extentTurn_ends fun further => unfinished further.2), ?_⟩
      exact past done _ loading holds unfinished

/-- Behind the chain the file is in memory. -/
theorem extents_loaded (readable : Readable host self.blksz sectors)
    (whole : self.blocksize.toNat % 512 = 0) (chain : Extents host self next extents)
    (loaded : Loaded size before content loading) :
    ∃ n r, run (settle (extentTurn host self size)) n (next, loading) = some (some (.ok r)) ∧
      Loaded size before (content ++ chainBytes self sectors extents) r := by
  refine extents_followed (fun done => Loaded size before (content ++ chainBytes self sectors done))
    chain ?_ ?_ [] (by simpa [chainBytes] using loaded)
  · intro done start blocks d' loading loaded _
    have loaded' : Loaded size before (content ++ chainBytes self sectors done) (d', loading.2) :=
      ⟨loaded.readed, loaded.memory⟩
    have copied : Loaded size before
        (content ++ chainBytes self sectors done ++ extentBytes self sectors (start + 0) blocks)
        (copyBlocks host self start size blocks 0 (d', loading.2)) :=
      copyBlocks_loaded readable whole loaded' 0
    have here : start + 0 = start := BitVec.add_zero start
    rw [chainBytes, List.flatMap_append, List.flatMap_singleton, ← List.append_assoc]
    rwa [here] at copied
  · intro done rest loading loaded finished
    have count := loaded.readed
    have := mt BitVec.lt_def.mpr finished
    rw [chainBytes, List.flatMap_append, ← List.append_assoc]
    exact loaded.more (by omega) _

theorem chainBytes_length :
    (chainBytes self sectors extents).length = (extents.map Prod.snd).sum * self.blocksize.toNat := by
  have one (start : Word) (blocks : Nat) :
      (extentBytes self sectors start blocks).length = blocks * self.blocksize.toNat := by
    rw [extentBytes, List.length_flatMap]
    simp [slice_length]
  induction extents with
  | nil => simp [chainBytes]
  | cons extent rest ih =>
    rw [chainBytes] at ih ⊢
    rw [List.flatMap_cons, List.length_append, ih, one, List.map_cons, List.sum_cons, Nat.add_mul]

/-- Where a file is found whose extents hold it, they are followed to its end. -/
theorem object_loaded {o : Nat → Byte} {d' : D} (readable : Readable host self.blksz sectors)
    (whole : self.blocksize.toNat % 512 = 0)
    (found : sfsFind host self d filename fuel = some (d', some o))
    (chain : Extents host self (be32 o soData) extents)
    (enough : (be32 o soSize).toNat ≤ (chainBytes self sectors extents).length) (before : Memory 32) :
    ∃ fuel d'' readed m,
      sfsLoadfile host self d filename (some before) fuel = some (.ok (d'', readed.toInt, some m)) ∧
      readed = be32 o soSize ∧ Holds m before (chainBytes self sectors extents) (be32 o soSize).toNat := by
  have start : Loaded (be32 o soSize) before [] (d', 0, some before) := by
    refine ⟨by simp, before, rfl, fun x inside => ?_, fun x _ => rfl⟩
    simp at inside
  obtain ⟨n, ⟨d'', readed, filebuffer⟩, runs, loaded⟩ := extents_loaded readable whole chain start
  obtain ⟨k, ended⟩ := (nested_settle extentTurn_steady).mpr ⟨n, runs⟩
  obtain ⟨count, m, here, holds⟩ := loaded
  rw [List.nil_append, Nat.min_eq_left enough] at count holds
  dsimp only at count here
  subst here
  refine ⟨max fuel k, d'', readed, m, ?_, BitVec.eq_of_toNat_eq count, holds⟩
  rw [sfsLoadfile, find_more found (le_max_left fuel k)]
  dsimp only
  rw [nested_more extentTurn_steady ended (le_max_right fuel k)]
  rfl

/-- A file whose extents are a chain in the B-tree and hold it is loaded whole: the
result is its size, memory holds its bytes, and nothing behind them is changed. -/
theorem loadfile_reads_extents {o : Nat → Byte} {d' : D} (readable : Readable host self.blksz sectors)
    (whole : self.blocksize.toNat % 512 = 0)
    (found : sfsFind host self d filename fuel = some (d', some o))
    (small : (be32 o soSize).toNat < 2 ^ 31) (chain : Extents host self (be32 o soData) extents)
    (enough : (be32 o soSize).toNat ≤ (extents.map Prod.snd).sum * self.blocksize.toNat) (before : Memory 32) :
    ∃ fuel d'' m,
      sfsLoadfile host self d filename (some before) fuel =
        some (.ok (d'', ((be32 o soSize).toNat : Int), some m)) ∧
      (∀ x : Word, x.toNat < (be32 o soSize).toNat →
        (chainBytes self sectors extents)[x.toNat]? = some (m x)) ∧
      ∀ x : Word, (be32 o soSize).toNat ≤ x.toNat → m x = before x := by
  have full : (be32 o soSize).toNat ≤ (chainBytes self sectors extents).length := by
    rw [chainBytes_length]
    exact enough
  obtain ⟨n, d'', readed, m, loaded, rfl, inside, outside⟩ := object_loaded readable whole found chain full before
  rw [BitVec.toInt_eq_toNat_of_lt (by omega)] at loaded
  exact ⟨n, d'', m, loaded, inside, outside⟩

end

/-- A block that begins with `n` bytes given and has zeros behind them. -/
def padded (n : Nat) (bytes : List Byte) (i : Nat) : Byte := if i < n then bytes.getD i 0 else 0

/-- A volume with the file `a` of 600 bytes in two extents of one block each. -/
def smallContainer : List Byte :=
  chars "OBJC" ++ List.replicate 20 0 ++ [0, 0, 0, 0, 0, 0, 0, 1, 0, 0, 0, 0, 0, 0, 0, 3, 0, 0, 2, 88] ++
    [0, 0, 0, 0, 0, 97, 0, 0]

def smallTree : List Byte :=
  List.replicate 12 0 ++ [0, 2, 1, 14] ++ [0, 0, 0, 3, 0, 0, 0, 5, 0, 0, 0, 0, 0, 1] ++
    [0, 0, 0, 5, 0, 0, 0, 0, 0, 0, 0, 0, 0, 1]

def smallSectors (sectn : Word) (i : Nat) : Byte :=
  if sectn = 1 then padded 52 smallContainer i
  else if sectn = 2 then padded 44 smallTree i
  else BitVec.ofNat 8 i

/-- A disk without failures. -/
def steadyHost (sectors : Word → Nat → Byte) : Host Unit where
  loadsector := fun _ sectn _ _ => ((), true, fun i => sectors (sectn + BitVec.ofNat 32 (i / 512)) (i % 512))
  stale := fun _ => 0

def smallVolume : SfsBootDev where
  start := 0
  blksz := 512
  root := fun i => if i = soFirstdirblock + 3 then 1 else 0
  extentbnoderoot := 2
  blocksize := 512

theorem any_found {x : Option (Unit × Option (Nat → Byte))} {p : (Nat → Byte) → Bool}
    (holds : x.any (fun r => r.2.any p) = true) : ∃ o, x = some ((), some o) ∧ p o = true := by
  rcases x with _ | ⟨⟨⟩, _ | o⟩
  · cases holds
  · cases holds
  · exact ⟨o, rfl, holds⟩

theorem small_finds {host : Host Unit} {start next : Word} {blocks : Nat}
    (holds : (getBnode host smallVolume () start 200).any (fun r => r.2.any fun sebn =>
      be32 sebn bnKey = start ∧ (be16 sebn sebnBlocks).toNat = blocks ∧ be32 sebn sebnNext = next) = true) :
    Finds host smallVolume start blocks next := by
  rintro ⟨⟩
  obtain ⟨sebn, found, fields⟩ := any_found holds
  exact ⟨200, (), sebn, found, of_decide_eq_true fields⟩

theorem smallVolume_finds :
    Finds (steadyHost smallSectors) smallVolume 3 1 5 ∧ Finds (steadyHost smallSectors) smallVolume 5 1 0 :=
  ⟨small_finds (by decide +kernel), small_finds (by decide +kernel)⟩

/-- An object that is found by evaluation, with its two fields. -/
theorem object_fields {host : Host Unit} {self : SfsBootDev} {data size : Word}
    (holds : (sfsFind host self () (chars "a") 200).any (fun r => r.2.any fun o =>
      be32 o soData = data ∧ be32 o soSize = size) = true) :
    ∃ o, sfsFind host self () (chars "a") 200 = some ((), some o) ∧ be32 o soData = data ∧ be32 o soSize = size := by
  obtain ⟨o, found, fields⟩ := any_found holds
  exact ⟨o, found, of_decide_eq_true fields⟩

theorem smallVolume_object :
    ∃ o, sfsFind (steadyHost smallSectors) smallVolume () (chars "a") 200 = some ((), some o) ∧
      be32 o soData = 3 ∧ be32 o soSize = 600 :=
  object_fields (by decide +kernel)

theorem smallVolume_extents {host : Host Unit} {next : Word} (data : next = 3)
    (three : Finds host smallVolume 3 1 5) (five : Finds host smallVolume 5 1 0) :
    Extents host smallVolume next [(3, 1), (5, 1)] := by
  rw [data]
  exact .cons (by decide) three le_rfl (.cons (by decide) five le_rfl .nil)

/-- The file of the small volume is loaded, over a memory of zeros. -/
theorem smallVolume_loaded :
    ∃ fuel d m,
      sfsLoadfile (steadyHost smallSectors) smallVolume () (chars "a") (some fun _ => 0) fuel =
        some (.ok (d, 600, some m)) ∧
      (∀ x : Word, x.toNat < 600 →
        (chainBytes smallVolume smallSectors [(3, 1), (5, 1)])[x.toNat]? = some (m x)) ∧
      ∀ x : Word, 600 ≤ x.toNat → m x = 0 := by
  obtain ⟨o, found, data, size⟩ := smallVolume_object
  have readable : Readable (steadyHost smallSectors) smallVolume.blksz smallSectors :=
    fun _ _ _ => ⟨rfl, fun _ _ => rfl⟩
  have chain := smallVolume_extents data smallVolume_finds.1 smallVolume_finds.2
  have loaded := loadfile_reads_extents readable (by decide) found (by rw [size]; decide) chain
    (by rw [size]; decide) fun _ => 0
  rw [size] at loaded
  exact loaded

end Parthenope.Sfs
