import Parthenope.CdromRead
import Parthenope.CdromTermination
import Parthenope.FileNames

/-! What `fs_cdrom_find_file` and `fs_cdrom_load_file` make of a well-formed disc: in
each directory the first record with the name, and of the type that the place in the
path asks for. -/
namespace Parthenope.Cdrom
open CString Buffer StepLoop FileTree FileNames
open Sfs (pathComponents)

/-- The record at an offset of a directory. -/
def recordAt {D : Type} (host : Host D) (disc : Word → Sector) (block : Word) (offset : Nat) : Nat → Byte :=
  contents host.stale (slice (discByte disc block (BitVec.ofNat 32 offset)) 0 dirSize)

/-- A record as an entry of its directory, with its first sector and its size. -/
def recordNode (dirent : Nat → Byte) : Node (Word × Word) (Word × Word) :=
  if dirent dirFlags &&& 3 = 2 then .dir (be32 dirent dirFirstSector, be32 dirent dirSizeBe)
  else .file (be32 dirent dirFirstSector, be32 dirent dirSizeBe)

abbrev Listing := List (List Byte × Node (Word × Word) (Word × Word))

/-- The place of an entry if it is of the type that is looked for. -/
def nodePlace (last : Bool) : Node (Word × Word) (Word × Word) → Option (Word × Word) :=
  if last then Node.file? else Node.dir?

/-- The name of a record is found, whatever sector is in the cache. -/
def Named {D : Type} (host : Host D) (dev : CdromBootDev D) (disc : Word → Sector) (block : Word) (offset : Nat)
    (name : List Byte) : Prop :=
  ∀ boot, Coherent disc boot → ∃ fuel boot', Coherent disc boot' ∧
    recordName host dev boot block offset (recordAt host disc block offset) fuel = some (boot', some name)

/-- The file identifiers of records and the names they stand for: a version is cut off
at its semicolon, and a directory begins with the records of itself and of its parent. -/
inductive Identifier : List Byte → List Byte → Prop
  | self : Identifier [0] (chars ".")
  | parent : Identifier [1] (chars "..")
  | plain {name : List Byte} : (59 : Byte) ∉ name → IsFileName name → name ≠ [1] → Identifier name name
  | version {name version : List Byte} : (59 : Byte) ∉ version → IsFileName name →
      Identifier (name ++ 59 :: version) name

/-- The identifier of a record, behind its members. -/
def identifier {D : Type} (host : Host D) (disc : Word → Sector) (block : Word) (offset : Nat) : List Byte :=
  slice (discByte disc block (BitVec.ofNat 32 (offset + dirSize))) 0
    (recordAt host disc block offset dirNamelen).toNat

/-- The records of a directory from an offset on, by their names; a length of zero
fills the rest of a sector. -/
inductive Records {D : Type} (host : Host D) (disc : Word → Sector) (Name : Word → Nat → List Byte → Prop)
    (block size : Word) : Nat → Listing → Prop
  | past {offset : Nat} : size.toNat ≤ offset → Records host disc Name block size offset []
  | skip {offset : Nat} {rest : Listing} : offset < size.toNat →
      recordAt host disc block offset dirLen = 0 →
      Records host disc Name block size ((offset / 2048 + 1) * 2048) rest →
      Records host disc Name block size offset rest
  | record {offset : Nat} {name : List Byte} {rest : Listing} :
      offset < size.toNat → recordAt host disc block offset dirLen ≠ 0 → Name block offset name →
      Records host disc Name block size (offset + (recordAt host disc block offset dirLen).toNat) rest →
      Records host disc Name block size offset ((name, recordNode (recordAt host disc block offset)) :: rest)

/-- The entries of a directory, which is no larger than 2^30 bytes. -/
def Lists {D : Type} (host : Host D) (disc : Word → Sector) (Name : Word → Nat → List Byte → Prop)
    (i : Word × Word) (entries : Listing) : Prop :=
  i.2.toNat ≤ 2 ^ 30 ∧ Records host disc Name i.1 i.2 0 entries

section
variable {name version : List Byte}

private theorem dropVersion_plain (plain : (59 : Byte) ∉ name) (n : Nat) : dropVersion name n = name := by
  induction n with
  | zero => rfl
  | succ n ih =>
    rw [dropVersion, if_neg fun here => plain (List.mem_of_getElem? here)]
    exact ih

private theorem dropVersion_version (nonempty : name ≠ []) (plain : (59 : Byte) ∉ version) (n : Nat) :
    dropVersion (name ++ 59 :: version) (name.length + n) = name := by
  induction n with
  | zero =>
    obtain ⟨i, length⟩ := Nat.exists_eq_succ_of_ne_zero (List.length_pos_iff.mpr nonempty).ne'
    have here : (name ++ 59 :: version)[i + 1]? = some 59 := by
      rw [← Nat.succ_eq_add_one, ← length, List.getElem?_append_right le_rfl, Nat.sub_self]
      rfl
    rw [Nat.add_zero, length, Nat.succ_eq_add_one, dropVersion, if_pos here, ← Nat.succ_eq_add_one, ← length]
    exact List.take_left
  | succ n ih =>
    have other : (name ++ 59 :: version)[name.length + n + 1]? ≠ some 59 := by
      rw [Nat.add_assoc, List.getElem?_append_right (Nat.le_add_right _ _), Nat.add_sub_cancel_left,
        List.getElem?_cons_succ]
      exact fun here => plain (List.mem_of_getElem? here)
    rw [← Nat.add_assoc, dropVersion, if_neg other]
    exact ih

/-- The name that is read is the one the identifier stands for. -/
theorem isoName_identifier {id : List Byte} (stands : Identifier id name) : isoName id = name := by
  cases stands with
  | self => rfl
  | parent => rfl
  | plain unversioned proper other =>
    have ended := proper.2.2
    rw [isoName, if_neg, if_neg other, dropVersion_plain unversioned]
    · exact cstring_unended ended
    · rintro rfl
      exact ended List.mem_cons_self
  | @version _ version plain proper =>
    have long : 2 ≤ (name ++ 59 :: version).length := by
      have := List.length_pos_iff.mpr proper.1
      rw [List.length_append, List.length_cons]
      omega
    have single (c : Byte) : name ++ 59 :: version ≠ [c] := fun same => by
      rw [same] at long
      exact absurd long (by simp)
    rw [isoName, if_neg (single 0), if_neg (single 1), List.length_append,
      dropVersion_version proper.1 plain]
    exact cstring_unended proper.2.2

theorem Identifier.isFileName {id : List Byte} (stands : Identifier id name) : IsFileName name := by
  cases stands with
  | self => exact ⟨by decide, by decide, by decide⟩
  | parent => exact ⟨by decide, by decide, by decide⟩
  | plain _ proper _ => exact proper
  | version _ proper => exact proper

end

section
variable {D : Type} {host : Host D} {dev : CdromBootDev D} {disc : Word → Sector} {boot : Cache D}
  {block size : Word} {offset : Nat} {name element : List Byte}
  {listed : Listing}

private theorem recordNode_place (last : Bool) (dirent : Nat → Byte) :
    nodePlace last (recordNode dirent) =
      if last = false ∧ dirent dirFlags &&& 3 = 2 ∨ last = true ∧ dirent dirFlags &&& 3 ≠ 2 then
        some (be32 dirent dirFirstSector, be32 dirent dirSizeBe)
      else none := by
  rw [recordNode]
  by_cases dir : dirent dirFlags &&& 3 = 2
  · rw [if_pos dir]
    cases last with
    | false =>
      rw [if_pos (.inl ⟨rfl, dir⟩)]
      rfl
    | true =>
      rw [if_neg]
      · rfl
      · rintro (⟨other, -⟩ | ⟨-, other⟩)
        · cases other
        · exact other dir
  · rw [if_neg dir]
    cases last with
    | false =>
      rw [if_neg]
      · rfl
      · rintro (⟨-, other⟩ | ⟨other, -⟩)
        · exact dir other
        · cases other
    | true =>
      rw [if_pos (.inr ⟨rfl, dir⟩)]
      rfl

private theorem record_read (serves : Serves host.read disc) (coherent : Coherent disc boot)
    (block : Word) (offset : Nat) :
    ∃ boot' bytes, Coherent disc boot' ∧
      cdromRead host.read boot block (BitVec.ofNat 32 offset) (BitVec.ofNat 32 dirSize) = (boot', .ok bytes) ∧
      contents host.stale bytes = recordAt host disc block offset := by
  obtain ⟨boot', coherent', answer⟩ :=
    cdromRead_serves serves coherent block (BitVec.ofNat 32 offset) (BitVec.ofNat 32 dirSize)
  exact ⟨boot', _, coherent', answer, rfl⟩

/-- Without Rock Ridge the name of a record is the one in it. -/
theorem named_plain (serves : Serves host.read disc) (plain : dev.rr = false)
    (stands : Identifier (identifier host disc block offset) name) :
    Named host dev disc block offset name := by
  intro boot coherent
  obtain ⟨boot', coherent', answer⟩ := cdromRead_serves serves coherent block (BitVec.ofNat 32 (offset + dirSize))
    ((recordAt host disc block offset dirNamelen).setWidth 32)
  refine ⟨0, boot', coherent', ?_⟩
  have length : ((recordAt host disc block offset dirNamelen).setWidth 32).toNat =
      (recordAt host disc block offset dirNamelen).toNat := by
    have := (recordAt host disc block offset dirNamelen).isLt
    rw [BitVec.toNat_setWidth, Nat.mod_eq_of_lt (by omega)]
  rw [length] at answer
  rw [recordName, plain]
  simp [answer, ← isoName_identifier stands, identifier]

private theorem suaStart_le (dirent : Nat → Byte) : suaStart dirent ≤ 289 := by
  have := (dirent dirNamelen).isLt
  unfold suaStart dirSize
  omega

/-- A turn at the end of a sector. -/
theorem recordTurn_skips (serves : Serves host.read disc) (coherent : Coherent disc boot)
    (small : size.toNat ≤ 2 ^ 30) (inside : offset < size.toNat)
    (zero : recordAt host disc block offset dirLen = 0) (element : List Byte) (last : Bool) (fuel : Nat) :
    ∃ boot', Coherent disc boot' ∧
      recordTurn host dev element last block size fuel (boot, offset) = .inr (boot', (offset / 2048 + 1) * 2048) := by
  have int : size.toInt = size.toNat := BitVec.toInt_eq_toNat_of_lt (by omega)
  obtain ⟨boot', bytes, coherent', answer, same⟩ := record_read serves coherent block offset
  refine ⟨boot', coherent', ?_⟩
  rw [recordTurn, if_pos (by omega), answer]
  dsimp only
  rw [same, if_pos zero, if_pos (by omega)]

/-- A turn at a record with a name. -/
theorem recordTurn_named (serves : Serves host.read disc) (coherent : Coherent disc boot)
    (small : size.toNat ≤ 2 ^ 30) (inside : offset < size.toNat)
    (nonzero : recordAt host disc block offset dirLen ≠ 0) (named : Named host dev disc block offset name)
    (element : List Byte) (last : Bool) :
    ∃ fuel boot', Coherent disc boot' ∧
      recordTurn host dev element last block size fuel (boot, offset) =
        if strcasecmp element name = 0 then
          match nodePlace last (recordNode (recordAt host disc block offset)) with
          | some place => .inl (some (.ok (boot', some place)))
          | none => .inr (boot', offset + (recordAt host disc block offset dirLen).toNat)
        else .inr (boot', offset + (recordAt host disc block offset dirLen).toNat) := by
  have int : size.toInt = size.toNat := BitVec.toInt_eq_toNat_of_lt (by omega)
  have length := (recordAt host disc block offset dirLen).isLt
  have area := suaStart_le (recordAt host disc block offset)
  have skip := dev.suspSkip.isLt
  obtain ⟨boot₁, bytes, coherent₁, answer, same⟩ := record_read serves coherent block offset
  obtain ⟨fuel, boot', coherent', called⟩ := named boot₁ coherent₁
  refine ⟨fuel, boot', coherent', ?_⟩
  rw [recordTurn, if_pos (by omega), answer]
  dsimp only
  rw [same, if_neg nonzero, if_pos (by omega), called]
  dsimp only
  rw [if_neg (by omega), recordNode_place]
  by_cases found : strcasecmp element name = 0
  · rw [if_pos found]
    split
    · rename_i fits
      rw [if_pos fits.2]
    · rename_i other
      rw [if_neg fun fits => other ⟨found, fits⟩]
  · rw [if_neg found, if_neg fun both => found both.1]

/-- The search of a directory finds the first record with the name and of the type. -/
theorem directory_search (serves : Serves host.read disc) (small : size.toNat ≤ 2 ^ 30)
    (records : Records host disc (Named host dev disc) block size offset listed) (last : Bool)
    (ended : (0 : Byte) ∉ element)
    (ended' : ∀ e ∈ listed, (0 : Byte) ∉ e.1) (coherent : Coherent disc boot) :
    ∃ fuel boot', Coherent disc boot' ∧
      nested (recordTurn host dev element last block size) fuel (boot, offset) =
        some (.ok (boot', lookupAs fold (nodePlace last) element listed)) := by
  have int : size.toInt = size.toNat := BitVec.toInt_eq_toNat_of_lt (by omega)
  induction records generalizing boot with
  | @past offset beyond =>
    have past : recordTurn host dev element last block size 0 (boot, offset) = .inl (some (.ok (boot, none))) := by
      rw [recordTurn, if_neg (by omega)]
    exact ⟨1, boot, coherent, nested_now recordTurn_steady past⟩
  | skip inside zero _ ih =>
    obtain ⟨boot₁, coherent₁, turns⟩ := recordTurn_skips serves coherent small inside zero element last 0
    obtain ⟨fuel, boot', coherent', rest⟩ := ih ended' coherent₁
    exact ⟨_, boot', coherent', nested_before recordTurn_steady turns rest⟩
  | @record offset name rest inside nonzero named _ ih =>
    obtain ⟨m, boot₁, coherent₁, turns⟩ := recordTurn_named serves coherent small inside nonzero named element last
    have further (turns : recordTurn host dev element last block size m (boot, offset) =
        .inr (boot₁, offset + (recordAt host disc block offset dirLen).toNat)) :
        ∃ fuel boot', Coherent disc boot' ∧
          nested (recordTurn host dev element last block size) fuel (boot, offset) =
            some (.ok (boot', lookupAs fold (nodePlace last) element rest)) := by
      obtain ⟨n, boot', coherent', found⟩ := ih (fun e inside => ended' e (List.mem_cons_of_mem _ inside)) coherent₁
      exact ⟨_, boot', coherent', nested_before recordTurn_steady turns found⟩
    have same : strcasecmp element name = 0 ↔ fold name = fold element := by
      rw [strcasecmp_iff ended (ended' _ List.mem_cons_self), eq_comm]
    rw [lookupAs, List.findSome?_cons]
    by_cases here : strcasecmp element name = 0
    · rw [if_pos here] at turns
      rw [if_pos (same.mp here)]
      cases kind : nodePlace last (recordNode (recordAt host disc block offset)) with
      | some place =>
        rw [kind] at turns
        exact ⟨_, boot₁, coherent₁, nested_now recordTurn_steady turns⟩
      | none =>
        rw [kind] at turns
        exact further turns
    · rw [if_neg here] at turns
      rw [if_neg fun named => here (same.mpr named)]
      exact further turns

private theorem findElements_lost {rest : List (List Byte)} {fuel : Nat} {boot' : Cache D}
    (searched : nested (recordTurn host dev element rest.isEmpty block size) fuel (boot, 0) =
      some (.ok (boot', none))) :
    findElements host dev fuel (element :: rest) boot block size = some (.ok (boot', none)) := by
  rw [findElements, searched]

private theorem findElements_found {rest : List (List Byte)} {fuel : Nat} {boot' : Cache D} {place : Word × Word}
    (searched : nested (recordTurn host dev element rest.isEmpty block size) fuel (boot, 0) =
      some (.ok (boot', some place))) :
    findElements host dev fuel (element :: rest) boot block size =
      findElements host dev fuel rest boot' place.1 place.2 := by
  rw [findElements, searched]

theorem Records.named {Name Name' : Word → Nat → List Byte → Prop}
    (records : Records host disc Name block size offset listed)
    (named : ∀ offset name, Name block offset name → Name' block offset name) :
    Records host disc Name' block size offset listed := by
  induction records with
  | past beyond => exact .past beyond
  | skip inside zero _ ih => exact .skip inside zero ih
  | record inside nonzero name _ ih => exact .record inside nonzero (named _ _ name) ih

theorem Records.mem {Name : Word → Nat → List Byte → Prop} (records : Records host disc Name block size offset listed) :
    ∀ e ∈ listed, ∃ offset, Name block offset e.1 := by
  induction records with
  | past => exact fun e inside => absurd inside List.not_mem_nil
  | skip _ _ _ ih => exact ih
  | @record offset name rest _ _ named _ ih =>
    intro e inside
    rcases List.mem_cons.mp inside with rfl | further
    · exact ⟨offset, named⟩
    · exact ih e further

/-- Following a path finds the file that it leads to. -/
theorem findElements_finds {root i : Word × Word} {elements : List (List Byte)}
    {entries : Word × Word → Listing}
    (serves : Serves host.read disc)
    (formed : WellFormed (Lists host disc (Named host dev disc)) IsFileName entries root)
    (below : Below entries root i) (nonempty : elements ≠ [])
    (ended : ∀ element ∈ elements, (0 : Byte) ∉ element) (coherent : Coherent disc boot) :
    ∃ fuel boot', Coherent disc boot' ∧
      findElements host dev fuel elements boot i.1 i.2 =
        some (.ok (boot', follow fold (lookupAs fold Node.file?) entries elements i)) := by
  induction elements generalizing i boot with
  | nil => exact absurd rfl nonempty
  | cons element rest ih =>
    obtain ⟨small, records⟩ := formed.lists i below
    have named (e : List Byte × Node (Word × Word) (Word × Word)) (inside : e ∈ entries i) : (0 : Byte) ∉ e.1 :=
      (formed.names i below e inside).2.2
    obtain ⟨fuel, boot₁, coherent₁, searched⟩ := directory_search serves small records rest.isEmpty
      (ended element List.mem_cons_self) named coherent
    cases found : lookupAs fold (nodePlace rest.isEmpty) element (entries i) with
    | none =>
      have lost : follow fold (lookupAs fold Node.file?) entries (element :: rest) i = none := by
        cases rest with
        | nil => exact found
        | cons next rest => exact congrArg (Option.bind · _) found
      rw [found] at searched
      rw [lost]
      exact ⟨fuel, boot₁, coherent₁, findElements_lost searched⟩
    | some j =>
      rw [found] at searched
      cases rest with
      | nil =>
        refine ⟨fuel, boot₁, coherent₁, (findElements_found searched).trans ?_⟩
        exact congrArg (fun place => some (Except.ok (boot₁, place))) found.symm
      | cons next rest =>
        obtain ⟨m, boot', coherent', followed⟩ := ih (below.lookupAs found) (List.cons_ne_nil _ _)
          (fun name inside => ended name (List.mem_cons_of_mem _ inside)) coherent₁
        refine ⟨max fuel m, boot', coherent', ?_⟩
        rw [findElements_found (nested_more recordTurn_steady searched (le_max_left fuel m)),
          findElements_more followed (le_max_right fuel m)]
        have leads : follow fold (lookupAs fold Node.file?) entries (element :: next :: rest) i =
            follow fold (lookupAs fold Node.file?) entries (next :: rest) j := congrArg (Option.bind · _) found
        rw [leads]

/-- The root directory of a device. -/
def rootPlace (host : Host D) (dev : CdromBootDev D) : Word × Word :=
  (volumeRoot host dev.voldesc, volumeRootSize host dev.voldesc)

/-- `fs_cdrom_find_file` follows a path of not too many elements. -/
theorem findFile_follows {filename : List Byte} {entries : Word × Word → Listing} (serves : Serves host.read disc)
    (formed : WellFormed (Lists host disc (Named host dev disc)) IsFileName entries (rootPlace host dev))
    (shallow : (pathElements filename).length ≤ isoMaxDepth + 1) (ended : (0 : Byte) ∉ filename)
    (coherent : Coherent disc dev.boot) :
    ∃ fuel boot', Coherent disc boot' ∧
      fsCdromFindFile host dev filename fuel = some (.ok (boot',
        follow fold (lookupAs fold Node.file?) entries (pathComponents filename) (rootPlace host dev))) := by
  have ended' : (0 : Byte) ∉ if filename.head? = some 47 then filename.tail else filename := by
    split
    · exact fun inside => ended (List.mem_of_mem_tail inside)
    · exact ended
  obtain ⟨fuel, boot', coherent', found⟩ := findElements_finds serves formed .root (splitElements_ne_nil _)
    (split_ended ended') coherent
  refine ⟨fuel, boot', coherent', ?_⟩
  rw [fsCdromFindFile, if_neg (Nat.not_lt.mpr shallow), pathComponents,
    ← follow_elements Node.file? _ formed]
  exact found

/-- Without Rock Ridge the names are those the identifiers of the records stand for. -/
theorem identified_formed {entries : Word × Word → Listing} {root : Word × Word} (serves : Serves host.read disc)
    (plain : dev.rr = false)
    (formed : WellFormed (Lists host disc fun block offset => Identifier (identifier host disc block offset))
      (fun _ => True) entries root) :
    WellFormed (Lists host disc (Named host dev disc)) IsFileName entries root := by
  constructor
  · intro i below
    obtain ⟨small, records⟩ := formed.lists i below
    exact ⟨small, records.named fun offset name stands => named_plain serves plain stands⟩
  · intro i below e inside
    obtain ⟨offset, stands⟩ := (formed.lists i below).2.mem e inside
    exact stands.isFileName

/-- `fs_cdrom_find_file` takes at each level the first record with the name that is a
directory, and at the last the first that is none. -/
theorem findFile_first_named {filename : List Byte} {entries : Word × Word → Listing}
    (serves : Serves host.read disc) (coherent : Coherent disc dev.boot) (plain : dev.rr = false)
    (formed : WellFormed (Lists host disc fun block offset => Identifier (identifier host disc block offset))
      (fun _ => True) entries (rootPlace host dev))
    (shallow : (pathComponents filename).length ≤ isoMaxDepth + 1) (ended : (0 : Byte) ∉ filename) :
    ∃ fuel boot', fsCdromFindFile host dev filename fuel = some (.ok (boot',
      follow fold (lookupAs fold Node.file?) entries (pathComponents filename) (rootPlace host dev))) := by
  obtain ⟨fuel, boot', -, found⟩ := findFile_follows serves (identified_formed serves plain formed)
    ((splitElements_length_le _).trans shallow) ended coherent
  exact ⟨fuel, boot', found⟩

end

/-- `fs_cdrom_load_file` returns a number and leaves bytes in the buffer. -/
def Loads {D : Type} (host : Host D) (dev : CdromBootDev D) (filename : List Byte) (r : Int) (bytes : List Byte) :
    Prop :=
  ∃ fuel dev', fsCdromLoadFile host dev filename fuel = some (.ok (dev', r, bytes))

/-- The bytes of an extent of the disc. -/
def extentContent (disc : Word → Sector) (place : Word × Word) : List Byte :=
  slice (discByte disc place.1 0) 0 place.2.toNat

section
variable {D : Type} {host : Host D} {dev : CdromBootDev D} {disc : Word → Sector} {filename bytes : List Byte}
  {boot' : Cache D} {place : Word × Word} {entries : Word × Word → Listing} {fuel : Nat} {r : Int}

theorem load_missing (found : fsCdromFindFile host dev filename fuel = some (.ok (boot', none))) :
    fsCdromLoadFile host dev filename fuel = some (.ok ({ dev with boot := boot' }, 0, [])) := by
  rw [fsCdromLoadFile, found]
  rfl

/-- What a load of a file returns is its size, as an `int`, whatever becomes of the read. -/
theorem load_found (found : fsCdromFindFile host dev filename fuel = some (.ok (boot', some place))) :
    fsCdromLoadFile host dev filename fuel =
      some (.ok ({ dev with boot := if place.2 = 0 then boot' else (cdromRead host.read boot' place.1 0 place.2).1 },
        place.2.toInt, if place.2 = 0 then [] else written (cdromRead host.read boot' place.1 0 place.2).2)) := by
  rw [fsCdromLoadFile, found]
  obtain ⟨block, size⟩ := place
  by_cases empty : size = 0
  · subst empty
    rfl
  · simp only [Option.map_some, Except.map, if_neg empty]

theorem Loads.unique {dev' : CdromBootDev D} {r' : Int} {bytes' : List Byte} (loads : Loads host dev filename r bytes)
    (loaded : fsCdromLoadFile host dev filename fuel = some (.ok (dev', r', bytes'))) : r = r' ∧ bytes = bytes' := by
  obtain ⟨more, dev'', loaded'⟩ := loads
  have later := loadFile_more loaded (le_max_left fuel more)
  have later' := loadFile_more loaded' (le_max_right fuel more)
  cases later.symm.trans later'
  exact ⟨rfl, rfl⟩

/-- A path of too many elements leads past the end of the array that is to hold them. -/
theorem load_deep (deep : isoMaxDepth + 1 < (pathElements filename).length) :
    ¬Loads host dev filename r bytes := by
  rintro ⟨fuel, dev', loaded⟩
  rw [fsCdromLoadFile, fsCdromFindFile, if_pos deep] at loaded
  cases loaded

/-- The file that is found is loaded. -/
theorem load_content (serves : Serves host.read disc) (coherent : Coherent disc boot')
    (found : fsCdromFindFile host dev filename fuel = some (.ok (boot', some place))) :
    Loads host dev filename place.2.toInt (extentContent disc place) := by
  obtain ⟨boot'', -, answer⟩ := cdromRead_serves serves coherent place.1 0 place.2
  have loaded := load_found found
  rw [answer] at loaded
  by_cases empty : place.2 = 0
  · rw [if_pos empty, if_pos empty] at loaded
    have nothing : extentContent disc place = [] := by
      rw [extentContent, empty]
      rfl
    rw [nothing]
    exact ⟨fuel, _, loaded⟩
  · rw [if_neg empty, if_neg empty] at loaded
    exact ⟨fuel, _, loaded⟩

/-- `fs_cdrom_load_file` keeps the contract if and only if the path names a file that
fits an `int`, by no more elements than there is room for. -/
theorem loads_contract_iff (serves : Serves host.read disc) (coherent : Coherent disc dev.boot)
    (formed : WellFormed (Lists host disc (Named host dev disc)) IsFileName entries (rootPlace host dev))
    (unmixed : Unmixed fold entries (rootPlace host dev)) (ended : (0 : Byte) ∉ filename) :
    Contract (follow fold (lookup fold) entries (pathComponents filename) (rootPlace host dev))
        (extentContent disc) (Loads host dev filename) ↔
      (pathElements filename).length ≤ isoMaxDepth + 1 ∧
      ∃ place, follow fold (lookup fold) entries (pathComponents filename) (rootPlace host dev) =
        some (.file place) ∧ place.2.toNat < 2 ^ 31 := by
  have length (place : Word × Word) : (extentContent disc place).length = place.2.toNat := slice_length
  by_cases shallow : (pathElements filename).length ≤ isoMaxDepth + 1
  · obtain ⟨fuel, boot', coherent', found⟩ := findFile_follows serves formed shallow ended coherent
    rw [follow_unmixed unmixed .root] at found
    generalize follow fold (lookup fold) entries (pathComponents filename) (rootPlace host dev) = named at found ⊢
    cases file : named.bind Node.file? with
    | none =>
      rw [file] at found
      have other (place : Word × Word) : named ≠ some (.file place) := fun same => by
        cases file.symm.trans (bind_file_eq_some.mpr same)
      constructor
      · rintro ⟨-, rejects⟩
        obtain ⟨r, bytes, negative, loads⟩ := rejects other
        obtain ⟨rfl, -⟩ := loads.unique (load_missing found)
        exact absurd negative (by decide)
      · rintro ⟨-, place, same, -⟩
        exact absurd same (other place)
    | some place =>
      rw [file] at found
      cases bind_file_eq_some.mp file
      constructor
      · rintro ⟨delivers, -⟩
        obtain ⟨result, -⟩ := (delivers place rfl).unique (load_found found)
        have bounded := place.2.toInt_lt
        rw [length] at result
        exact ⟨shallow, place, rfl, by omega⟩
      · rintro ⟨-, place', other, small⟩
        cases other
        refine ⟨fun file same => ?_, fun other => absurd rfl (other place)⟩
        cases same
        rw [length, ← BitVec.toInt_eq_toNat_of_lt (by omega)]
        exact load_content serves coherent' found
  · constructor
    · rintro ⟨delivers, rejects⟩
      by_cases file : ∃ place, follow fold (lookup fold) entries (pathComponents filename) (rootPlace host dev) =
          some (.file place)
      · obtain ⟨place, named⟩ := file
        exact absurd (delivers place named) (load_deep (Nat.lt_of_not_le shallow))
      · obtain ⟨r, bytes, -, loads⟩ := rejects fun place named => file ⟨place, named⟩
        exact absurd loads (load_deep (Nat.lt_of_not_le shallow))
    · rintro ⟨within, -⟩
      exact absurd within shallow

end

/-- A disc with the file `a` of five bytes in sector 18. -/
def selfRecord : List Byte :=
  [34, 0, 0, 0, 0, 0, 0, 0, 0, 17, 0, 0, 0, 0, 0, 0, 8, 0, 0, 0, 0, 0, 0, 0, 0, 2, 0, 0, 0, 0, 0, 0, 1]

def fileRecord : List Byte :=
  [36, 0, 0, 0, 0, 0, 0, 0, 0, 18, 0, 0, 0, 0, 0, 0, 0, 5, 0, 0, 0, 0, 0, 0, 0, 0, 0, 0, 0, 0, 0, 0, 3] ++ chars "a;1"

def fileDisc (block : Word) : Sector := fun i =>
  if block = 17 ∧ i.val < 104 then (selfRecord ++ [0] ++ selfRecord ++ [1] ++ fileRecord).getD i 0
  else if block = 18 ∧ i.val < 5 then (chars "hello").getD i 0
  else 0

/-- The device of that disc, with the root directory in its cache. -/
def fileDev : CdromBootDev Unit where
  boot := ⟨(), fileDisc 17, 17, true⟩
  voldesc := List.replicate voldescRootdir 0 ++ selfRecord
  rootdir := selfRecord
  rr := false
  suspSkip := 0

def fileRoot : Listing := [(chars ".", .dir (17, 2048)), (chars "..", .dir (17, 2048)), (chars "a", .file (18, 5))]

private theorem fileDisc_root : rootPlace (steadyHost fileDisc) fileDev = (17, 2048) := by decide

theorem Records.next {Name : Word → Nat → List Byte → Prop} {host : Host Unit} {disc : Word → Sector}
    {block size : Word} {offset : Nat} {name : List Byte} (next : Nat) {node : Node (Word × Word) (Word × Word)}
    {rest : Listing} (inside : offset < size.toNat) (named : Name block offset name)
    (same : recordNode (recordAt host disc block offset) = node)
    (length : next ≠ offset ∧ offset + (recordAt host disc block offset dirLen).toNat = next)
    (further : Records host disc Name block size next rest) :
    Records host disc Name block size offset ((name, node) :: rest) := by
  obtain ⟨more, rfl⟩ := length
  subst same
  refine .record inside (fun zero => more ?_) named further
  rw [zero]
  rfl

private theorem fileDisc_records :
    Records (steadyHost fileDisc) fileDisc
      (fun block offset => Identifier (identifier (steadyHost fileDisc) fileDisc block offset)) 17 2048 0
      fileRoot := by
  have itself : identifier (steadyHost fileDisc) fileDisc 17 0 = [0] := by decide
  have parent : identifier (steadyHost fileDisc) fileDisc 17 34 = [1] := by decide
  have file : identifier (steadyHost fileDisc) fileDisc 17 68 = chars "a" ++ 59 :: chars "1" := by decide
  refine .next 34 (by decide) (itself ▸ .self) (by decide) (by decide) ?_
  refine .next 68 (by decide) (parent ▸ .parent) (by decide) (by decide) ?_
  refine .next 104 (by decide)
    (file ▸ .version (by decide) ⟨by decide, by decide, by decide⟩) (by decide) (by decide) ?_
  exact .skip (by decide) (by decide) (.past (by decide))

private theorem fileDisc_below {i : Word × Word} (below : Below (fun _ => fileRoot) (17, 2048) i) : i = (17, 2048) := by
  induction below with
  | root => rfl
  | step _ member =>
    have either := by simpa [fileRoot] using member
    rcases either with ⟨-, rfl⟩ | ⟨-, rfl⟩ <;> rfl

theorem fileDisc_formed :
    WellFormed (Lists (steadyHost fileDisc) fileDisc fun block offset =>
      Identifier (identifier (steadyHost fileDisc) fileDisc block offset)) (fun _ => True) (fun _ => fileRoot)
      (rootPlace (steadyHost fileDisc) fileDev) := by
  rw [fileDisc_root]
  refine ⟨fun i below => ?_, fun _ _ _ _ => trivial⟩
  rw [fileDisc_below below]
  exact ⟨by decide, fileDisc_records⟩

theorem fileDisc_serves : Serves (steadyHost fileDisc).read fileDisc :=
  ⟨steady_faithful fileDisc, fun _ _ _ => rfl⟩

def dirRecord : List Byte :=
  [34, 0, 0, 0, 0, 0, 0, 0, 0, 18, 0, 0, 0, 0, 0, 0, 8, 0, 0, 0, 0, 0, 0, 0, 0, 2, 0, 0, 0, 0, 0, 0, 1]

def innerRecord : List Byte :=
  [36, 0, 0, 0, 0, 0, 0, 0, 0, 19, 0, 0, 0, 0, 0, 0, 0, 5, 0, 0, 0, 0, 0, 0, 0, 0, 0, 0, 0, 0, 0, 0, 3] ++ chars "a;1"

/-- A disc with the directory `d` in sector 18, which has the file `a` in sector 19. -/
def dirDisc (block : Word) : Sector := fun i =>
  if block = 17 ∧ i.val < 102 then (selfRecord ++ [0] ++ selfRecord ++ [1] ++ dirRecord ++ chars "d").getD i 0
  else if block = 18 ∧ i.val < 104 then (dirRecord ++ [0] ++ selfRecord ++ [1] ++ innerRecord).getD i 0
  else if block = 19 ∧ i.val < 5 then (chars "hello").getD i 0
  else 0

def dirDev : CdromBootDev Unit := { fileDev with boot := ⟨(), dirDisc 17, 17, true⟩ }

def dirListing (place : Word × Word) : Listing :=
  if place = (17, 2048) then
    [(chars ".", .dir (17, 2048)), (chars "..", .dir (17, 2048)), (chars "d", .dir (18, 2048))]
  else [(chars ".", .dir (18, 2048)), (chars "..", .dir (17, 2048)), (chars "a", .file (19, 5))]

private theorem dirDisc_records (first : Word) (either : first = 17 ∨ first = 18) :
    Records (steadyHost dirDisc) dirDisc
      (fun block offset => Identifier (identifier (steadyHost dirDisc) dirDisc block offset)) first 2048 0
      (dirListing (first, 2048)) := by
  rcases either with rfl | rfl
  · have itself : identifier (steadyHost dirDisc) dirDisc 17 0 = [0] := by decide
    have parent : identifier (steadyHost dirDisc) dirDisc 17 34 = [1] := by decide
    have inner : identifier (steadyHost dirDisc) dirDisc 17 68 = chars "d" := by decide
    refine .next 34 (by decide) (itself ▸ .self) (by decide) (by decide) ?_
    refine .next 68 (by decide) (parent ▸ .parent) (by decide) (by decide) ?_
    refine .next 102 (by decide)
      (inner ▸ .plain (by decide) ⟨by decide, by decide, by decide⟩ (by decide)) (by decide) (by decide) ?_
    exact .skip (by decide) (by decide) (.past (by decide))
  · have itself : identifier (steadyHost dirDisc) dirDisc 18 0 = [0] := by decide
    have parent : identifier (steadyHost dirDisc) dirDisc 18 34 = [1] := by decide
    have file : identifier (steadyHost dirDisc) dirDisc 18 68 = chars "a" ++ 59 :: chars "1" := by decide
    refine .next 34 (by decide) (itself ▸ .self) (by decide) (by decide) ?_
    refine .next 68 (by decide) (parent ▸ .parent) (by decide) (by decide) ?_
    refine .next 104 (by decide)
      (file ▸ .version (by decide) ⟨by decide, by decide, by decide⟩) (by decide) (by decide) ?_
    exact .skip (by decide) (by decide) (.past (by decide))

private theorem dirDisc_below {i : Word × Word} (below : Below dirListing (17, 2048) i) :
    i = (17, 2048) ∨ i = (18, 2048) := by
  induction below with
  | root => exact .inl rfl
  | step _ inside ih =>
    rcases ih with rfl | rfl
    · rw [dirListing, if_pos rfl] at inside
      simp only [List.mem_cons, Prod.mk.injEq, Node.dir.injEq, List.not_mem_nil, or_false] at inside
      rcases inside with ⟨-, same⟩ | ⟨-, same⟩ | ⟨-, same⟩
      · exact .inl same
      · exact .inl same
      · exact .inr same
    · have other : ((18 : Word), (2048 : Word)) ≠ (17, 2048) := by decide
      rw [dirListing, if_neg other] at inside
      simp only [List.mem_cons, Prod.mk.injEq, Node.dir.injEq, reduceCtorEq, and_false, List.not_mem_nil,
        or_false] at inside
      rcases inside with ⟨-, same⟩ | ⟨-, same⟩
      · exact .inr same
      · exact .inl same

private theorem dirDisc_formed :
    WellFormed (Lists (steadyHost dirDisc) dirDisc fun block offset =>
      Identifier (identifier (steadyHost dirDisc) dirDisc block offset)) (fun _ => True) dirListing
      (rootPlace (steadyHost dirDisc) dirDev) := by
  have root : rootPlace (steadyHost dirDisc) dirDev = (17, 2048) := by decide
  rw [root]
  refine ⟨fun i below => ?_, fun _ _ _ _ => trivial⟩
  rcases dirDisc_below below with rfl | rfl
  · exact ⟨by decide, dirDisc_records 17 (.inl rfl)⟩
  · exact ⟨by decide, dirDisc_records 18 (.inr rfl)⟩

/-- The file in the directory is found by names in capitals and without its version. -/
theorem dirDisc_found : ∃ fuel boot',
    fsCdromFindFile (steadyHost dirDisc) dirDev (chars "/D/A") fuel = some (.ok (boot', some (19, 5))) := by
  have coherent : Coherent dirDisc dirDev.boot := rfl
  have serves : Serves (steadyHost dirDisc).read dirDisc := ⟨steady_faithful dirDisc, fun _ _ _ => rfl⟩
  have leads : follow fold (lookupAs fold Node.file?) dirListing (pathComponents (chars "/D/A"))
      (rootPlace (steadyHost dirDisc) dirDev) = some (19, 5) := by decide
  have shallow : (pathComponents (chars "/D/A")).length ≤ isoMaxDepth + 1 := by decide
  obtain ⟨fuel, boot', found⟩ := findFile_first_named serves coherent rfl dirDisc_formed shallow (by decide)
  rw [leads] at found
  exact ⟨fuel, boot', found⟩

end Parthenope.Cdrom
