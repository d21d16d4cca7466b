import Parthenope.FileNames
import Parthenope.SfsBlocks
import Parthenope.SfsLoad

/-! What `sfs_find` and `sfs_loadfile` make of a well-formed volume: the first object
with a name, and of its type where one is asked for, in the order of the containers. -/
namespace Parthenope.Sfs
open CString Buffer StepLoop FileTree FileNames

/-- The buffer a block is read into. -/
def blockBuffer {D : Type} (host : Host D) (self : SfsBootDev) (sectors : Word → Nat → Byte) (block : Word) :
    Nat → Byte :=
  fun i => if i < 512 * (self.blocksize / 512).toNat then blockByte self sectors block i else host.stale i

/-- The objects of a block, from the first to the one with the node number zero. -/
inductive Packed (block : Nat → Byte) : Nat → List Nat → Prop
  | last {o : Nat} : be32 (member block o) soObjectnode = 0 → Packed block o []
  | next {o next : Nat} {rest : List Nat} : be32 (member block o) soObjectnode ≠ 0 →
      NextObject block o next → Packed block next rest → Packed block o (o :: rest)

/-- The objects of a directory by the number of its first container. -/
inductive Containers {D : Type} (host : Host D) (self : SfsBootDev) (sectors : Word → Nat → Byte) :
    Word → List (Nat → Byte) → Prop
  | nil : Containers host self sectors 0 []
  | cons {link checksum : Word} {fuel : Nat} {objects : List Nat} {rest : List (Nat → Byte)} : link ≠ 0 →
      calcchecksum (blockBuffer host self sectors link) self.blocksize fuel = some checksum → checksum ≠ 0 →
      be32 (blockBuffer host self sectors link) sbhId = socId →
      Packed (blockBuffer host self sectors link) socObject objects →
      Containers host self sectors (be32 (blockBuffer host self sectors link) socNext) rest →
      Containers host self sectors link (objects.map (member (blockBuffer host self sectors link)) ++ rest)

/-- The name of an object. -/
def Named (o : Nat → Byte) (name : List Byte) : Prop :=
  slice o soName name.length = name ∧ o (soName + name.length) = 0 ∧ (0 : Byte) ∉ name

section
variable {D : Type} {host : Host D} {self : SfsBootDev} {sectors : Word → Nat → Byte} {d : D}
  {block o : Nat → Byte} {link : Word} {dirname name : List Byte} {type : Byte} {place : Nat}
  {places : List Nat} {objects : List (Nat → Byte)}

private theorem read_block (readable : Readable host self.blksz sectors) :
    (readBlock host self d link).2 = blockBuffer host self sectors link := by
  funext i
  have read := (readable d (self.start + link * (self.blocksize / 512)) (self.blocksize / 512)).2
  rw [readBlock, sfsLoadsector, blockBuffer]
  dsimp only
  split
  · rename_i inside
    rw [read i inside, blockByte]
  · rfl

/-- The search of a block finds the first object that matches. -/
theorem packed_search (packed : Packed block place places) :
    ∃ fuel, nested (objectTurn block dirname type) fuel place =
      some ((places.map (member block)).find? fun o => matchesObject o dirname type) := by
  induction packed with
  | last last => exact ⟨1, Option.join_eq_some_iff.mpr (run_ends (objectTurn_last last))⟩
  | @next o next rest used follows _ ih =>
    rw [List.map_cons, List.find?_cons]
    cases found : matchesObject (member block o) dirname type with
    | true => exact ⟨1, Option.join_eq_some_iff.mpr (run_ends (objectTurn_found used found))⟩
    | false =>
      obtain ⟨n, here⟩ := nextobject_iff.mpr follows
      obtain ⟨m, searched⟩ := ih
      exact ⟨_, nested_before objectTurn_steady (objectTurn_next used found here) searched⟩

/-- The search of a directory finds the first object that matches in its containers. -/
theorem containers_search (dirname : List Byte) (type : Byte) (readable : Readable host self.blksz sectors)
    (chain : Containers host self sectors link objects) (d : D) :
    ∃ fuel d', nested (containerTurn host self dirname type) fuel (d, link) =
      some (d', objects.find? fun o => matchesObject o dirname type) := by
  induction chain generalizing d with
  | nil => exact ⟨1, d, Option.join_eq_some_iff.mpr (run_ends containerTurn_over)⟩
  | @cons link checksum n places rest more summed valid id packed _ ih =>
    have block : (readBlock host self d link).2 = blockBuffer host self sectors link := read_block readable
    have ⟨m, searched⟩ : ∃ fuel, nested (objectTurn (blockBuffer host self sectors link) dirname type) fuel
        socObject = some ((places.map (member (blockBuffer host self sectors link))).find? fun o =>
          matchesObject o dirname type) := packed_search packed
    have container : Container host self d link (max n m) := by
      rw [← block] at summed id
      exact ⟨more, ⟨checksum, valid, checksum_more summed (le_max_left n m)⟩, id⟩
    have ended := nested_more objectTurn_steady searched (le_max_right n m)
    rw [List.find?_append]
    cases found : (places.map (member (blockBuffer host self sectors link))).find?
        fun o => matchesObject o dirname type with
    | some o =>
      rw [found, ← block] at ended
      exact ⟨_, _, nested_now containerTurn_steady (containerTurn_found container ended)⟩
    | none =>
      rw [found, ← block] at ended
      have turn := containerTurn_next container ended
      rw [block] at turn
      obtain ⟨k, d', rest⟩ := ih (readBlock host self d link).1
      exact ⟨_, d', nested_before containerTurn_steady turn rest⟩

private theorem cstring_slice (named : Named o name) (n : Nat) :
    cstring (slice o soName n) = name.take n := by
  obtain ⟨same, zero, unended⟩ := named
  rcases Nat.le_total n name.length with part | beyond
  · have split : slice o soName n ++ slice o (soName + n) (name.length - n) = name := by
      rw [slice_append, Nat.add_sub_cancel' part]
      exact same
    have taken : slice o soName n = name.take n := by
      rw [← split, List.take_left' slice_length]
    rw [taken]
    exact cstring_unended fun inside => unended (List.mem_of_mem_take inside)
  · have plain : ∀ c ∈ name, (c != nul) = true := fun c inside => bne_iff_ne.mpr (ne_of_mem_of_not_mem inside unended)
    obtain ⟨k, rfl⟩ := Nat.exists_eq_add_of_le beyond
    rw [List.take_of_length_le (Nat.le_add_right _ _), ← slice_append, same, cstring,
      List.takeWhile_append_of_pos plain]
    cases k with
    | zero => exact List.append_nil name
    | succ k =>
      rw [slice, List.range_succ_eq_map, List.map_cons, Nat.add_zero, zero, List.takeWhile_cons_of_neg (by decide)]
      exact List.append_nil name

/-- An object matches by its name, apart from case, and by its type where one is asked for. -/
theorem matches_iff (named : Named o name) (ended : (0 : Byte) ∉ dirname) :
    matchesObject o dirname type =
      (decide (fold name = fold dirname) && (type == 0 || o soBits &&& type != 0)) := by
  have unended : (0 : Byte) ∉ name.take (dirname.length + 1) := fun inside => named.2.2 (List.mem_of_mem_take inside)
  have whole : fold (name.take (dirname.length + 1)) = fold dirname ↔ fold name = fold dirname := by
    rcases Nat.le_total name.length (dirname.length + 1) with short | long
    · rw [List.take_of_length_le short]
    · have lengths (name : List Byte) (same : fold name = fold dirname) : name.length = dirname.length := by
        simpa [fold] using congrArg List.length same
      constructor
      · intro same
        have := lengths _ same
        rw [List.length_take] at this
        omega
      · intro same
        have := lengths _ same
        omega
  rw [matchesObject, cstring_slice named]
  congr 1
  rw [Bool.eq_iff_iff, beq_iff_eq, strcasecmp_iff unended ended, whole, decide_eq_true_iff]

end

/-- An object as an entry of its directory. -/
def objectNode (o : Nat → Byte) : Node (Nat → Byte) (Nat → Byte) :=
  if o soBits &&& otypeDir ≠ 0 then .dir o else .file o

/-- The object that an entry is. -/
def nodeObject : Node (Nat → Byte) (Nat → Byte) → Nat → Byte
  | .file o => o
  | .dir o => o

/-- The entries of a directory. -/
def Lists {D : Type} (host : Host D) (self : SfsBootDev) (sectors : Word → Nat → Byte) (cwd : Nat → Byte)
    (listed : List (List Byte × Node (Nat → Byte) (Nat → Byte))) : Prop :=
  ∃ objects, Containers host self sectors (be32 cwd soFirstdirblock) objects ∧
    List.Forall₂ (fun o e => Named o e.1 ∧ e.2 = objectNode o) objects listed

section
variable {D : Type} {host : Host D} {self : SfsBootDev} {sectors : Word → Nat → Byte} {d : D} {type : Byte}
  {cwd root : Nat → Byte} {dirname filename : List Byte} {names : List (List Byte)}
  {objects : List (Nat → Byte)} {listed : List (List Byte × Node (Nat → Byte) (Nat → Byte))}
  {entries : (Nat → Byte) → List (List Byte × Node (Nat → Byte) (Nat → Byte))}

@[simp] theorem nodeObject_objectNode (o : Nat → Byte) : nodeObject (objectNode o) = o := by
  unfold objectNode
  split <;> rfl

private theorem objectNode_dir (o : Nat → Byte) :
    (objectNode o).dir? = if o soBits &&& otypeDir ≠ 0 then some o else none := by
  unfold objectNode
  split <;> rfl

/-- Objects are found as their entries are. -/
theorem objects_lookup (kind : Node (Nat → Byte) (Nat → Byte) → Option (Nat → Byte))
    (related : List.Forall₂ (fun o e => Named o e.1 ∧ e.2 = objectNode o) objects listed)
    (kinds : ∀ o, kind (objectNode o) = if (type == 0 || o soBits &&& type != 0) = true then some o else none)
    (ended : (0 : Byte) ∉ dirname) :
    (objects.find? fun o => matchesObject o dirname type) = lookupAs fold kind dirname listed := by
  induction related with
  | nil => rfl
  | @cons o e objects listed is _ ih =>
    obtain ⟨named, same⟩ := is
    rw [List.find?_cons, lookupAs, List.findSome?_cons, matches_iff named ended, same, kinds]
    by_cases here : fold e.1 = fold dirname
    · rw [if_pos here, decide_eq_true here, Bool.true_and]
      by_cases fits : (type == 0 || o soBits &&& type != 0) = true
      · rw [if_pos fits, fits]
      · rw [if_neg fits, Bool.eq_false_iff.mpr fits]
        exact ih
    · rw [if_neg here, decide_eq_false here, Bool.false_and]
      exact ih

/-- The search of a directory for a name, for directories only or for anything. -/
theorem findobject_finds (readable : Readable host self.blksz sectors) (lists : Lists host self sectors cwd listed)
    (ended : (0 : Byte) ∉ dirname) (d : D) :
    (∃ fuel d', sfsFindobject host self d cwd dirname 0 fuel =
      some (d', (lookup fold dirname listed).map nodeObject)) ∧
    ∃ fuel d', sfsFindobject host self d cwd dirname otypeDir fuel =
      some (d', lookupAs fold Node.dir? dirname listed) := by
  obtain ⟨objects, chain, related⟩ := lists
  constructor
  · obtain ⟨fuel, d', searched⟩ := containers_search dirname 0 readable chain d
    have kinds (o : Nat → Byte) : some (nodeObject (objectNode o)) =
        if ((0 : Byte) == 0 || o soBits &&& 0 != 0) = true then some o else none := by
      rw [nodeObject_objectNode]
      rfl
    rw [objects_lookup (fun node => some (nodeObject node)) related kinds ended, lookupAs_some] at searched
    exact ⟨fuel, d', searched⟩
  · obtain ⟨fuel, d', searched⟩ := containers_search dirname otypeDir readable chain d
    have kinds (o : Nat → Byte) : (objectNode o).dir? =
        if (otypeDir == 0 || o soBits &&& otypeDir != 0) = true then some o else none := by
      rw [objectNode_dir]
      by_cases plain : o soBits &&& otypeDir = 0
      · rw [if_neg (not_not_intro plain), plain]
        rfl
      · rw [if_pos plain, if_pos]
        exact bne_iff_ne.mpr plain
    rw [objects_lookup Node.dir? related kinds ended] at searched
    exact ⟨fuel, d', searched⟩

/-- Following a path finds what it names. -/
theorem findComponents_finds {Name : List Byte → Prop} (readable : Readable host self.blksz sectors)
    (formed : WellFormed (Lists host self sectors) Name entries root)
    (below : Below entries root cwd) (nonempty : names ≠ []) (ended : ∀ name ∈ names, (0 : Byte) ∉ name) (d : D) :
    ∃ fuel d', findComponents host self fuel names d cwd =
      some (d', (follow fold (lookup fold) entries names cwd).map nodeObject) := by
  induction names generalizing cwd d with
  | nil => exact absurd rfl nonempty
  | cons name rest ih =>
    have here := findobject_finds readable (formed.lists cwd below) (ended name List.mem_cons_self) d
    cases rest with
    | nil => exact here.1
    | cons next rest =>
      obtain ⟨fuel, d', searched⟩ := here.2
      rw [follow_next (List.cons_ne_nil _ _)]
      cases found : lookupAs fold Node.dir? name (entries cwd) with
      | none =>
        rw [found] at searched
        refine ⟨fuel, d', ?_⟩
        rw [findComponents, searched]
        · rfl
        · exact List.cons_ne_nil _ _
      | some o =>
        rw [found] at searched
        obtain ⟨m, d'', followed⟩ := ih (below.lookupAs found) (List.cons_ne_nil _ _)
          (fun name inside => ended name (List.mem_cons_of_mem _ inside)) d'
        refine ⟨max fuel m, d'', ?_⟩
        rw [findComponents, findobject_more searched (le_max_left fuel m)]
        · exact findComponents_more followed (le_max_right fuel m)
        · exact List.cons_ne_nil _ _

private theorem path_ended (ended : (0 : Byte) ∉ filename) : ∀ name ∈ pathComponents filename, (0 : Byte) ∉ name := by
  refine components_ended ?_
  split
  · exact fun inside => ended (List.mem_of_mem_tail inside)
  · exact ended

/-- `sfs_find` follows the path, through the first object with each name that is a
directory and to the first object with the last name. -/
theorem find_follows {Name : List Byte → Prop} (readable : Readable host self.blksz sectors)
    (formed : WellFormed (Lists host self sectors) Name entries self.root) (ended : (0 : Byte) ∉ filename) (d : D) :
    ∃ fuel d', sfsFind host self d filename fuel =
      some (d', (follow fold (lookup fold) entries (pathComponents filename) self.root).map nodeObject) :=
  findComponents_finds readable formed .root (components_ne_nil _) (path_ended ended) d

/-- The first objects with the names lead to what `sfs_find` finds, and `sfs_nextobject`
goes from one object of a block to the next. -/
theorem find_first_named (readable : Readable host self.blksz sectors)
    (formed : WellFormed (Lists host self sectors) (fun _ => True) entries self.root)
    (ended : (0 : Byte) ∉ filename) (d : D) :
    (∃ fuel d', sfsFind host self d filename fuel =
      some (d', (follow fold (lookup fold) entries (pathComponents filename) self.root).map nodeObject)) ∧
    ∀ (block : Nat → Byte) (o next : Nat),
      (∃ fuel, sfsNextobject block o fuel = some next) ↔ NextObject block o next :=
  ⟨find_follows readable formed ended d, fun _ _ _ => nextobject_iff⟩

end

/-- The extents of the files hold their content, and the number of a directory's first
container fits an `int`. -/
structure Stored {D : Type} (host : Host D) (boot : SfsBootDev) (sectors : Word → Nat → Byte)
    (content : (Nat → Byte) → List Byte)
    (entries : (Nat → Byte) → List (List Byte × Node (Nat → Byte) (Nat → Byte))) (root : Nat → Byte) : Prop where
  files : ∀ i, Below entries root i → ∀ name o, (name, .file o) ∈ entries i →
    ∃ extents, Extents host boot (be32 o soData) extents ∧
      (be32 o soSize).toNat ≤ (chainBytes boot sectors extents).length ∧
      content o = (chainBytes boot sectors extents).take (be32 o soSize).toNat
  dirs : ∀ i, Below entries root i → ∀ name o, (name, .dir o) ∈ entries i →
    (be32 o soFirstdirblock).toNat < 2 ^ 31

/-- `sfs_loadfile` returns a number and leaves bytes at the buffer, and nothing behind them. -/
def Loads {D : Type} (host : Host D) (self : SfsBootDev) (d : D) (filename : List Byte)
    (before : ByteMemory.Memory 32) (r : Int) (bytes : List Byte) : Prop :=
  ∃ fuel d' m, sfsLoadfile host self d filename (some before) fuel = some (.ok (d', r, some m)) ∧
    (∀ x : Word, x.toNat < bytes.length → bytes[x.toNat]? = some (m x)) ∧
    ∀ x : Word, bytes.length ≤ x.toNat → m x = before x

section
variable {D : Type} {host : Host D} {self : SfsBootDev} {sectors : Word → Nat → Byte} {d d' : D}
  {o : Nat → Byte} {filename : List Byte} {content : (Nat → Byte) → List Byte}
  {entries : (Nat → Byte) → List (List Byte × Node (Nat → Byte) (Nat → Byte))}
  {before : ByteMemory.Memory 32} {fuel : Nat}

/-- What a load of an object returns is no more than its size, as an `int`. -/
theorem loads_bounded {r : Int} {bytes : List Byte}
    (found : sfsFind host self d filename fuel = some (d', some o))
    (loads : Loads host self d filename before r bytes) :
    ∃ readed : Word, r = readed.toInt ∧ readed.toNat ≤ (be32 o soSize).toNat := by
  obtain ⟨more, d'', m, loaded, -, -⟩ := loads
  have later := loadfile_more loaded (le_max_right fuel more)
  rw [sfsLoadfile, find_more found (le_max_left fuel more)] at later
  obtain ⟨outcome, ended, mapped⟩ := Option.map_eq_some_iff.mp later
  cases outcome with
  | error fault => cases mapped
  | ok result =>
    obtain ⟨d₁, readed, filebuffer⟩ := result
    cases mapped
    exact ⟨readed, rfl, extents_bounded (Nat.zero_le _) ended⟩

/-- `sfs_loadfile` keeps the contract if and only if the path names no directory, and a
file that it names fits an `int`. -/
theorem loads_contract_iff (readable : Readable host self.blksz sectors) (whole : self.blocksize.toNat % 512 = 0)
    (formed : WellFormed (Lists host self sectors) IsFileName entries self.root)
    (stored : Stored host self sectors content entries self.root) (ended : (0 : Byte) ∉ filename) :
    Contract (follow fold (lookup fold) entries (pathComponents filename) self.root) content
        (Loads host self d filename before) ↔
      (∀ o, follow fold (lookup fold) entries (pathComponents filename) self.root ≠ some (.dir o)) ∧
      ∀ o, follow fold (lookup fold) entries (pathComponents filename) self.root = some (.file o) →
        (content o).length < 2 ^ 31 := by
  obtain ⟨fuel, d', finds⟩ := find_follows readable formed ended d
  cases named : follow fold (lookup fold) entries (pathComponents filename) self.root with
  | none =>
    rw [named] at finds
    constructor
    · intro _
      exact ⟨fun o other => (by cases other), fun o other => (by cases other)⟩
    · intro _
      refine ⟨fun file other => (by cases other), fun _ => ⟨-1, [], by decide, fuel, d', before, ?_, ?_, ?_⟩⟩
      · rw [sfsLoadfile, finds]
        rfl
      · exact fun x inside => absurd inside (Nat.not_lt_zero _)
      · exact fun _ _ => rfl
  | some node =>
    rw [named] at finds
    obtain ⟨i, nonempty, below, here⟩ := follow_last .root named
    obtain ⟨⟨name, other⟩, member, -, same⟩ := lookup_mem here
    have member : (name, node) ∈ entries i := same ▸ member
    cases node with
    | dir o =>
      have small := stored.dirs i below name o member
      constructor
      · rintro ⟨-, rejects⟩
        obtain ⟨r, bytes, negative, loads⟩ := rejects fun file other => (by cases other)
        obtain ⟨readed, rfl, bounded⟩ := loads_bounded finds loads
        -- The size of a directory is where its first container is told.
        have bounded : readed.toNat ≤ (be32 o soFirstdirblock).toNat := bounded
        rw [BitVec.toInt_eq_toNat_of_lt (by omega)] at negative
        omega
      · rintro ⟨other, -⟩
        exact absurd rfl (other o)
    | file o =>
      have finds : sfsFind host self d filename fuel = some (d', some o) := finds
      obtain ⟨extents, chain, enough, same⟩ := stored.files i below name o member
      have length : (content o).length = (be32 o soSize).toNat := by
        rw [same, List.length_take, Nat.min_eq_left enough]
      constructor
      · rintro ⟨delivers, -⟩
        refine ⟨fun o other => (by cases other), fun o' found => ?_⟩
        cases found
        obtain ⟨readed, result, -⟩ := loads_bounded finds (delivers o rfl)
        have := readed.toInt_lt
        omega
      · rintro ⟨-, small⟩
        have fits := small o rfl
        refine ⟨fun file found => ?_, fun other => absurd rfl (other o)⟩
        cases found
        obtain ⟨n, d'', readed, m, loaded, rfl, inside, outside⟩ :=
          object_loaded readable whole finds chain enough before
        rw [BitVec.toInt_eq_toNat_of_lt (by omega), ← length] at loaded
        refine ⟨n, d'', m, loaded, ?_, ?_⟩
        · intro x within
          rw [length] at within
          rw [same, List.getElem?_take_of_lt within]
          exact inside x within
        · intro x behind
          rw [length] at behind
          exact outside x behind

end

/-- The next object behind one with a name of one character and no comment. -/
theorem shortName_next {block : Nat → Byte} {o : Nat} (named : block (o + soName) ≠ 0)
    (ended : block (o + soName + 1) = 0) (plain : block (o + soName + 2) = 0) : NextObject block o (o + soSizeof) := by
  refine ⟨o + soName + 1, o + soName + 2, ⟨by omega, ended, fun x above below => ?_⟩,
    ⟨by omega, plain, fun x above below => by omega⟩, ?_⟩
  · obtain rfl : x = o + soName := by omega
    exact named
  · have even : (o + soName + 2 + 1 - o) % 2 = 0 := by
      rw [soName]
      omega
    rw [even, if_neg (by decide)]
    rfl

/-- The only object of the small volume. -/
def smallObject : Nat → Byte := member (blockBuffer (steadyHost smallSectors) smallVolume smallSectors 1) socObject

theorem smallVolume_readable : Readable (steadyHost smallSectors) smallVolume.blksz smallSectors :=
  fun _ _ _ => ⟨rfl, fun _ _ => rfl⟩

theorem smallVolume_file : objectNode smallObject = .file smallObject := by
  have plain : smallObject soBits &&& otypeDir = 0 := by decide
  rw [objectNode, if_neg (not_not_intro plain)]

private theorem smallVolume_below {i : Nat → Byte}
    (below : Below (fun _ => [(chars "a", objectNode smallObject)]) smallVolume.root i) : i = smallVolume.root := by
  cases below with
  | root => rfl
  | step _ member =>
    rw [smallVolume_file] at member
    cases List.mem_singleton.mp member

theorem smallVolume_formed :
    WellFormed (Lists (steadyHost smallSectors) smallVolume smallSectors) IsFileName
      (fun _ => [(chars "a", objectNode smallObject)]) smallVolume.root := by
  let block := blockBuffer (steadyHost smallSectors) smallVolume smallSectors 1
  have place : be32 smallVolume.root soFirstdirblock = 1 := by decide
  have summed : (calcchecksum block smallVolume.blocksize 200).any (· != 0) = true := by decide +kernel
  obtain ⟨checksum, same, valid⟩ := (Option.any_eq_true _ _).mp summed
  have next : NextObject block socObject 52 := shortName_next (by decide) (by decide) (by decide)
  have packed : Packed block socObject [socObject] :=
    .next (by decide) next (.last (by decide))
  have listed : Lists (steadyHost smallSectors) smallVolume smallSectors smallVolume.root
      [(chars "a", objectNode smallObject)] := by
    have last : be32 block socNext = 0 := by decide
    refine ⟨[smallObject], ?_, .cons ⟨⟨by decide, by decide, by decide⟩, rfl⟩ .nil⟩
    rw [place]
    exact .cons (by decide) same (bne_iff_ne.mp valid) (by decide) packed (last ▸ .nil)
  constructor
  · intro i below
    rw [smallVolume_below below]
    exact listed
  · intro i _ e inside
    cases List.mem_singleton.mp inside
    exact ⟨by decide, by decide, by decide⟩

def dirObject (node data first bits letter : Byte) : List Byte :=
  [0, 0, 0, 0, 0, 0, 0, node, 0, 0, 0, 0, 0, 0, 0, data, 0, 0, 0, first, 0, 0, 0, 0, bits, letter, 0, 0]

def dirContainer (next : Byte) (objects : List Byte) : List Byte :=
  chars "OBJC" ++ List.replicate 12 0 ++ [0, 0, 0, next, 0, 0, 0, 0] ++ objects

/-- A volume with a directory: the container in block 1 has the file `a` and the directory
`d`, the one behind it in block 3 the file `b`, and that of `d` in block 4 a file `a`. -/
def dirSectors (sectn : Word) (i : Nat) : Byte :=
  if sectn = 1 then padded 80 (dirContainer 3 (dirObject 2 5 9 0 97 ++ dirObject 3 0 4 otypeDir 100)) i
  else if sectn = 3 then padded 52 (dirContainer 0 (dirObject 4 6 9 0 98)) i
  else if sectn = 4 then padded 52 (dirContainer 0 (dirObject 5 7 9 0 97)) i
  else 0

def dirVolumeObject (block : Word) (o : Nat) : Nat → Byte :=
  member (blockBuffer (steadyHost dirSectors) smallVolume dirSectors block) o

def dirEntries (cwd : Nat → Byte) : List (List Byte × Node (Nat → Byte) (Nat → Byte)) :=
  if be32 cwd soFirstdirblock = 1 then
    [(chars "a", .file (dirVolumeObject 1 24)), (chars "d", .dir (dirVolumeObject 1 52)),
      (chars "b", .file (dirVolumeObject 3 24))]
  else [(chars "a", .file (dirVolumeObject 4 24))]

private theorem dirVolume_root : dirEntries smallVolume.root = [(chars "a", .file (dirVolumeObject 1 24)),
    (chars "d", .dir (dirVolumeObject 1 52)), (chars "b", .file (dirVolumeObject 3 24))] := by
  have first : be32 smallVolume.root soFirstdirblock = 1 := by decide
  rw [dirEntries, if_pos first]

private theorem dirVolume_dir : dirEntries (dirVolumeObject 1 52) = [(chars "a", .file (dirVolumeObject 4 24))] := by
  have first : be32 (dirVolumeObject 1 52) soFirstdirblock ≠ 1 := by decide
  rw [dirEntries, if_neg first]

private theorem dirVolume_below {i : Nat → Byte} (below : Below dirEntries smallVolume.root i) :
    i = smallVolume.root ∨ i = dirVolumeObject 1 52 := by
  induction below with
  | root => exact .inl rfl
  | step _ inside ih =>
    rcases ih with rfl | rfl
    · rw [dirVolume_root] at inside
      simp only [List.mem_cons, Prod.mk.injEq, Node.dir.injEq, reduceCtorEq, and_false, List.not_mem_nil, or_false,
        false_or] at inside
      exact .inr inside.2
    · rw [dirVolume_dir] at inside
      simp at inside

private theorem checksum_valid {x : Option Word} (summed : x.any (· != 0) = true) :
    ∃ checksum, x = some checksum ∧ checksum ≠ 0 := by
  obtain ⟨checksum, same, valid⟩ := (Option.any_eq_true _ _).mp summed
  exact ⟨checksum, same, bne_iff_ne.mp valid⟩

/-- An object with a name of one character. -/
theorem named_letter {o : Nat → Byte} {letter : Byte} (name : o soName = letter) (proper : letter ≠ 0)
    (ended : o (soName + 1) = 0) : Named o [letter] := by
  refine ⟨?_, ended, ?_⟩
  · subst name
    rfl
  · rw [List.mem_singleton]
    exact proper.symm

private theorem dirVolume_first : Containers (steadyHost dirSectors) smallVolume dirSectors 1
    ([24, 52].map (dirVolumeObject 1) ++ ([24].map (dirVolumeObject 3) ++ [])) := by
  have sum : (calcchecksum (blockBuffer (steadyHost dirSectors) smallVolume dirSectors 1)
    smallVolume.blocksize 200).any (· != 0) = true := by decide +kernel
  have sum' : (calcchecksum (blockBuffer (steadyHost dirSectors) smallVolume dirSectors 3)
    smallVolume.blocksize 200).any (· != 0) = true := by decide +kernel
  obtain ⟨first, sums, valid⟩ := checksum_valid sum
  obtain ⟨second, sums', valid'⟩ := checksum_valid sum'
  have next : be32 (blockBuffer (steadyHost dirSectors) smallVolume dirSectors 1) socNext = 3 := by decide
  have last : be32 (blockBuffer (steadyHost dirSectors) smallVolume dirSectors 3) socNext = 0 := by decide
  refine .cons (by decide) sums valid (by decide)
    (.next (by decide) (shortName_next (by decide) (by decide) (by decide))
      (.next (by decide) (shortName_next (by decide) (by decide) (by decide)) (.last (by decide)))) ?_
  rw [next]
  refine .cons (by decide) sums' valid' (by decide)
    (.next (by decide) (shortName_next (by decide) (by decide) (by decide)) (.last (by decide))) ?_
  rw [last]
  exact .nil

private theorem dirVolume_second : Containers (steadyHost dirSectors) smallVolume dirSectors 4
    ([24].map (dirVolumeObject 4) ++ []) := by
  have sum : (calcchecksum (blockBuffer (steadyHost dirSectors) smallVolume dirSectors 4)
    smallVolume.blocksize 200).any (· != 0) = true := by decide +kernel
  obtain ⟨first, sums, valid⟩ := checksum_valid sum
  have last : be32 (blockBuffer (steadyHost dirSectors) smallVolume dirSectors 4) socNext = 0 := by decide
  refine .cons (by decide) sums valid (by decide)
    (.next (by decide) (shortName_next (by decide) (by decide) (by decide)) (.last (by decide))) ?_
  rw [last]
  exact .nil

private theorem dirVolume_formed :
    WellFormed (Lists (steadyHost dirSectors) smallVolume dirSectors) (fun _ => True) dirEntries
      smallVolume.root := by
  have file (block : Word) (o : Nat) (plain : dirVolumeObject block o soBits &&& otypeDir = 0) :
      Node.file (dirVolumeObject block o) = objectNode (dirVolumeObject block o) := by
    rw [objectNode, if_neg (not_not_intro plain)]
  have dir : Node.dir (dirVolumeObject 1 52) = objectNode (dirVolumeObject 1 52) := by
    have typed : dirVolumeObject 1 52 soBits &&& otypeDir ≠ 0 := by decide
    rw [objectNode, if_pos typed]
  refine ⟨fun i below => ?_, fun _ _ _ _ => trivial⟩
  rcases dirVolume_below below with rfl | rfl
  · have start : be32 smallVolume.root soFirstdirblock = 1 := by decide
    rw [dirVolume_root]
    refine ⟨_, start ▸ dirVolume_first, .cons ⟨named_letter (by decide) (by decide) (by decide), file _ _ (by decide)⟩
      (.cons ⟨named_letter (by decide) (by decide) (by decide), dir⟩
        (.cons ⟨named_letter (by decide) (by decide) (by decide), file _ _ (by decide)⟩ .nil))⟩
  · have start : be32 (dirVolumeObject 1 52) soFirstdirblock = 4 := by decide
    rw [dirVolume_dir]
    exact ⟨_, start ▸ dirVolume_second, .cons
      ⟨named_letter (by decide) (by decide) (by decide), file _ _ (by decide)⟩ .nil⟩

/-- The file in the directory, and the one in the second container, are found by their names
in capitals. -/
theorem dirVolume_found :
    (∃ fuel d, sfsFind (steadyHost dirSectors) smallVolume () (chars "/D/A") fuel =
      some (d, some (dirVolumeObject 4 24))) ∧
    (∃ fuel d, sfsFind (steadyHost dirSectors) smallVolume () (chars "B") fuel =
      some (d, some (dirVolumeObject 3 24))) ∧
    ∀ (block : Nat → Byte) (o next : Nat),
      (∃ fuel, sfsNextobject block o fuel = some next) ↔ NextObject block o next := by
  have readable : Readable (steadyHost dirSectors) smallVolume.blksz dirSectors := fun _ _ _ => ⟨rfl, fun _ _ => rfl⟩
  have inDir : follow fold (lookup fold) dirEntries (pathComponents (chars "/D/A")) smallVolume.root =
      some (.file (dirVolumeObject 4 24)) := by
    have components : pathComponents (chars "/D/A") = [chars "D", chars "A"] := by decide
    rw [components, follow_next (List.cons_ne_nil _ _), dirVolume_root]
    change lookup fold (chars "A") (dirEntries (dirVolumeObject 1 52)) = _
    rw [dirVolume_dir]
    rfl
  have inRoot : follow fold (lookup fold) dirEntries (pathComponents (chars "B")) smallVolume.root =
      some (.file (dirVolumeObject 3 24)) := by
    have components : pathComponents (chars "B") = [chars "B"] := by decide
    rw [components]
    change lookup fold (chars "B") (dirEntries smallVolume.root) = _
    rw [dirVolume_root]
    rfl
  have ended : (0 : Byte) ∉ chars "/D/A" := by decide
  have ended' : (0 : Byte) ∉ chars "B" := by decide
  obtain ⟨found, nextobjects⟩ := find_first_named readable dirVolume_formed ended ()
  obtain ⟨found', -⟩ := find_first_named readable dirVolume_formed ended' ()
  rw [inDir] at found
  rw [inRoot] at found'
  exact ⟨found, found', nextobjects⟩

end Parthenope.Sfs
