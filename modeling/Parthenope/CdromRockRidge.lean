import Parthenope.CdromFiles
import Parthenope.CdromLogical

/-! Discs with Rock Ridge. The root directory says whether there is any; if there is, a
record is found by the name in the first NM entry that the walk comes to, and by its own
where it has none. -/
namespace Parthenope.Cdrom
open CString Buffer StepLoop FileTree FileNames
open Sfs (pathComponents)

/-- What the walk over an area comes to, if it is laid out well: the first entry with the
signature, or the end. -/
def AreaHas (disc : Word → Sector) (block offset size : Word) (sig : String) (found : Option SuspEntry) : Prop :=
  ∃ sequence last, LogicalOrder disc block offset size sequence last ∧ firstSigned sig (unhidden sequence) = found ∧
    (found = none → ∀ rest, last.misread = some rest → Harmless sig rest)

/-- The name in an NM entry. -/
inductive AlternateName : SuspEntry → List Byte → Prop
  | self {e : SuspEntry} : suspData < e.bytes.length → e.view suspData &&& 2 ≠ 0 → AlternateName e (chars ".")
  | parent {e : SuspEntry} : suspData < e.bytes.length → e.view suspData &&& 2 = 0 → e.view suspData &&& 4 ≠ 0 →
      AlternateName e (chars "..")
  | name {e : SuspEntry} : e.view suspData &&& 2 = 0 → e.view suspData &&& 4 = 0 →
      IsFileName (e.bytes.drop (suspData + 1)) → AlternateName e (e.bytes.drop (suspData + 1))

/-- What an area of a record has, behind the bytes that are skipped. -/
def RecordHas {D : Type} (host : Host D) (disc : Word → Sector) (skip : Byte) (block : Word) (offset : Nat)
    (found : Option SuspEntry) : Prop :=
  let dirent := recordAt host disc block offset
  AreaHas disc block (BitVec.ofNat 32 (suaStart dirent + (offset + skip.toNat))) (suaSize dirent) "NM" found

/-- The volume descriptor. -/
def volumeDescriptor (disc : Word → Sector) : List Byte := slice (discByte disc 16 0) 0 voldescSize

/-- The System Use area of the root directory, as `cdrom_create` reads it. -/
def rootSua {D : Type} (host : Host D) (disc : Word → Sector) (root : Word) : Nat → Byte :=
  let dirent := recordAt host disc root 0
  contents host.stale (slice (discByte disc root (BitVec.ofNat 32 (rootSuaStart dirent))) 0 (rootSuaSize dirent).toNat)

/-- What the root directory says of Rock Ridge: how many bytes are skipped in each area, if
there is any. -/
inductive Marked {D : Type} (host : Host D) (disc : Word → Sector) (root : Word) : Option Byte → Prop
  | plain : signed (rootSua host disc root) "SP" = false → Marked host disc root none
  | shared {found : Option SuspEntry} : signed (rootSua host disc root) "SP" = true →
      AreaHas disc root (BitVec.ofNat 32 (rootSuaStart (recordAt host disc root 0)))
        (rootSuaSize (recordAt host disc root 0)) "RR" found →
      Marked host disc root (found.map fun _ => rootSua host disc root (suspData + 2))

/-- A disc has a volume with its root directory at a place. -/
structure Opens {D : Type} (host : Host D) (disc : Word → Sector) (root : Word × Word) (rr : Option Byte) : Prop where
  magic : slice (contents host.stale (volumeDescriptor disc)) voldescMagic 5 = chars "CD001"
  place : (volumeRoot host (volumeDescriptor disc), volumeRootSize host (volumeDescriptor disc)) = root
  marked : Marked host disc root.1 rr

/-- A device for that volume. -/
structure Opened {D : Type} (disc : Word → Sector) (root : Word × Word) (rr : Option Byte) (dev : CdromBootDev D) :
    Prop where
  coherent : Coherent disc dev.boot
  voldesc : dev.voldesc = volumeDescriptor disc
  rootdir : dev.rootdir = slice (discByte disc root.1 0) 0 dirSize
  marked : dev.rr = rr.isSome
  skips : ∀ skip, rr = some skip → dev.suspSkip = skip

/-- What a load gives, for a path that leads to a file or for one that does not. -/
def loadedFrom (disc : Word → Sector) (place : Option (Word × Word)) : Int × List Byte :=
  match place with
  | none => (0, [])
  | some place => (place.2.toInt, extentContent disc place)

/-- The names of records, on a disc with Rock Ridge by what they say there. -/
inductive RecordNamed {D : Type} (host : Host D) (disc : Word → Sector) : Option Byte → Word → Nat → List Byte → Prop
  | plain {block : Word} {offset : Nat} {name : List Byte} : Identifier (identifier host disc block offset) name →
      RecordNamed host disc none block offset name
  | alternate {skip : Byte} {block : Word} {offset : Nat} {e : SuspEntry} {name : List Byte} :
      RecordHas host disc skip block offset (some e) → AlternateName e name →
      RecordNamed host disc (some skip) block offset name
  | own {skip : Byte} {block : Word} {offset : Nat} {name : List Byte} :
      RecordHas host disc skip block offset none → Identifier (identifier host disc block offset) name →
      RecordNamed host disc (some skip) block offset name

section
variable {D : Type} {host : Host D} {dev : CdromBootDev D} {disc : Word → Sector} {boot boot' : Cache D}
  {block size : Word} {offset : Nat} {name : List Byte} {e : SuspEntry} {found : Option SuspEntry} {sig : String}
  {rr : Option Byte}

private theorem afterCalls_coherent (serves : Serves host.read disc) (coherent : Coherent disc boot)
    (calls : List Request) :
    Coherent disc (afterCalls host.read boot calls) := by
  induction calls generalizing boot with
  | nil => exact coherent
  | cons r rest ih =>
    obtain ⟨next, coherent', answer⟩ := cdromRead_serves serves coherent r.block r.offset r.length
    rw [afterCalls, List.foldl_cons, Request.run, answer]
    exact ih coherent'

/-- A search of an area that is laid out well. -/
theorem getEntry_area {start : Word} (serves : Serves host.read disc) (memory : ∀ n, host.allocates n = true)
    (coherent : Coherent disc boot) (has : AreaHas disc block start size sig found) :
    ∃ fuel boot', Coherent disc boot' ∧
      getEntry host boot block start size sig fuel = some (boot', found.map SuspEntry.bytes) := by
  obtain ⟨sequence, last, ordered, rfl, leaves⟩ := has
  obtain ⟨fuel, boot', searched⟩ := getEntry_unhidden serves coherent memory ordered leaves host.stale
  exact ⟨fuel, boot', getEntryCalls_after searched ▸ afterCalls_coherent serves coherent _, searched⟩

private theorem SuspEntry.contents_view (e : SuspEntry) (stale : Nat → Byte) {i : Nat} (inside : i < e.bytes.length) :
    contents stale e.bytes i = e.view i := by
  rw [SuspEntry.view, contents_lt inside, contents_lt inside]

private theorem rrName_alternate (memory : ∀ n, host.allocates n = true) (named : AlternateName e name) :
    rrName host e.bytes = .ok (some name) := by
  have header : suspLen < e.bytes.length := Nat.lt_of_lt_of_le (by decide) e.large
  cases named with
  | self long current =>
    rw [rrName, e.contents_view _ long, if_pos current]
  | parent long other parent =>
    rw [rrName, e.contents_view _ long, if_neg (not_not_intro other), if_pos parent]
  | name other other' proper =>
    have some := List.length_pos_iff.mpr proper.1
    rw [List.length_drop] at some
    have long : suspData + 1 < e.bytes.length := Nat.lt_of_sub_pos some
    have length : (e.view suspLen).toNat = e.bytes.length := e.whole
    have copied : slice (contents host.stale e.bytes) (suspData + 1) (e.bytes.length - 5) =
        e.bytes.drop (suspData + 1) := by
      refine List.ext_getElem ?_ fun i _ inside => ?_
      · rw [slice_length, List.length_drop]
        rfl
      · rw [List.length_drop] at inside
        simp only [slice, List.getElem_map, List.getElem_range, List.getElem_drop]
        exact contents_lt (by omega)
    rw [rrName, e.contents_view _ (Nat.lt_of_succ_lt long), e.contents_view _ header, length,
      if_neg (not_not_intro other),
      if_neg (not_not_intro other'), if_pos (show 5 < e.bytes.length from long), if_pos (memory _), copied,
      cstring_unended proper.2.2]

private theorem follows_plain (area : SuspArea) {es : List SuspEntry} (plain : ∀ e ∈ es, signed e.view "CE" = false) :
    Follows disc area es (es.map fun e => ⟨e, false⟩) [] area := by
  induction es with
  | nil => exact .done
  | cons e es ih =>
    exact .entry (plain e List.mem_cons_self) (ih fun e inside => plain e (List.mem_cons_of_mem _ inside))

private theorem entries_laid {es : List SuspEntry} {rest : List Byte} (goes : ∀ e ∈ es, signed e.view "ST" = false)
    (short : rest.length < suspSize) : Entries (es.flatMap SuspEntry.bytes ++ rest) es (some rest) := by
  induction es with
  | nil => exact .rest short
  | cons e es ih =>
    rw [List.flatMap_cons, List.append_assoc]
    exact .entry (goes e List.mem_cons_self) (ih fun e inside => goes e (List.mem_cons_of_mem _ inside))

/-- An area without continuations, which has its entries one behind the other. -/
theorem areaHas_laid {start : Word} (es : List SuspEntry) (rest : List Byte) (sig : String)
    (laid : slice (discByte disc block start) 0 size.toNat = es.flatMap SuspEntry.bytes ++ rest)
    (plain : ∀ e ∈ es, signed e.view "CE" = false ∧ signed e.view "ST" = false) (past : es ≠ [] ∧ rest.length < 2) :
    AreaHas disc block start size sig (es.find? fun e => signed e.view sig) := by
  have on : SuspArea.On ⟨es, some rest⟩ disc block start size := by
    rw [SuspArea.On, laid]
    exact entries_laid (fun e inside => (plain e inside).2) (past.2.trans (by decide))
  refine ⟨_, _, ⟨_, _, _, on, follows_plain _ fun e inside => (plain e inside).1, rfl⟩, ?_, fun _ left misread => ?_⟩
  · have all : unhidden (es.map (fun e => ⟨e, false⟩) ++ []) = es.map fun e => ⟨e, false⟩ := by
      rw [List.append_nil, unhidden, List.filter_eq_self]
      intro e inside
      obtain ⟨_, -, rfl⟩ := List.mem_map.mp inside
      rfl
    rw [all, firstSigned, List.find?_map, Option.map_map]
    exact congrFun Option.map_id _
  · have none : SuspArea.misread ⟨es, some rest⟩ = none := by
      rw [SuspArea.misread, Option.filter_some, if_neg]
      simp [past.1, past.2]
    rw [none] at misread
    cases misread

/-- The name in the record itself. -/
theorem own_name (serves : Serves host.read disc) (coherent : Coherent disc boot)
    (stands : Identifier (identifier host disc block offset) name) :
    ∃ boot' bytes, Coherent disc boot' ∧ isoName bytes = name ∧
      cdromRead host.read boot block (BitVec.ofNat 32 (offset + dirSize))
        ((recordAt host disc block offset dirNamelen).setWidth 32) = (boot', .ok bytes) := by
  obtain ⟨boot', coherent', answer⟩ := cdromRead_serves serves coherent block (BitVec.ofNat 32 (offset + dirSize))
    ((recordAt host disc block offset dirNamelen).setWidth 32)
  have length : ((recordAt host disc block offset dirNamelen).setWidth 32).toNat =
      (recordAt host disc block offset dirNamelen).toNat := by
    have := (recordAt host disc block offset dirNamelen).isLt
    rw [BitVec.toNat_setWidth, Nat.mod_eq_of_lt (by omega)]
  rw [length] at answer
  exact ⟨boot', _, coherent', isoName_identifier stands, answer⟩

/-- A device finds the names of the disc that it was made for. -/
theorem RecordNamed.named (serves : Serves host.read disc) (memory : ∀ n, host.allocates n = true)
    (marked : dev.rr = rr.isSome) (skips : ∀ skip, rr = some skip → dev.suspSkip = skip)
    (record : RecordNamed host disc rr block offset name) : Named host dev disc block offset name := by
  cases record with
  | plain stands => exact named_plain serves marked stands
  | alternate has alternate =>
    cases skips _ rfl
    intro boot coherent
    obtain ⟨fuel, boot', coherent', searched⟩ := getEntry_area serves memory coherent has
    refine ⟨fuel, boot', coherent', ?_⟩
    rw [recordName, marked, Option.isSome_some, if_pos rfl, searched]
    simp only [Option.map_some, rrName_alternate memory alternate]
  | own has stands =>
    cases skips _ rfl
    intro boot coherent
    obtain ⟨fuel, boot₁, coherent₁, searched⟩ := getEntry_area serves memory coherent has
    obtain ⟨boot', bytes, coherent', same, answer⟩ := own_name serves coherent₁ stands
    refine ⟨fuel, boot', coherent', ?_⟩
    rw [recordName, marked, Option.isSome_some, if_pos rfl, searched]
    simp only [Option.map_some, Option.map_none, answer, same]

theorem AlternateName.isFileName (named : AlternateName e name) : IsFileName name := by
  cases named with
  | self => exact ⟨by decide, by decide, by decide⟩
  | parent => exact ⟨by decide, by decide, by decide⟩
  | name _ _ proper => exact proper

theorem RecordNamed.isFileName (record : RecordNamed host disc rr block offset name) : IsFileName name := by
  cases record with
  | plain stands => exact stands.isFileName
  | alternate _ named => exact named.isFileName
  | own _ stands => exact stands.isFileName

/-- The directories as a device lists them. -/
theorem recorded_formed {entries : Word × Word → Listing} {root : Word × Word} (serves : Serves host.read disc)
    (memory : ∀ n, host.allocates n = true) (marked : dev.rr = rr.isSome)
    (skips : ∀ skip, rr = some skip → dev.suspSkip = skip)
    (formed : WellFormed (Lists host disc (RecordNamed host disc rr)) (fun _ => True) entries root) :
    WellFormed (Lists host disc (Named host dev disc)) IsFileName entries root := by
  constructor
  · intro i below
    obtain ⟨small, records⟩ := formed.lists i below
    exact ⟨small, records.named fun offset name record => record.named serves memory marked skips⟩
  · intro i below e inside
    obtain ⟨offset, record⟩ := (formed.lists i below).2.mem e inside
    exact record.isFileName

/-- On a disc with Rock Ridge `fs_cdrom_find_file` follows a path by the alternate names. -/
theorem findFile_alternate {filename : List Byte} {entries : Word × Word → Listing} (serves : Serves host.read disc)
    (coherent : Coherent disc dev.boot) (memory : ∀ n, host.allocates n = true) (marked : dev.rr = true)
    (formed : WellFormed (Lists host disc (RecordNamed host disc (some dev.suspSkip))) (fun _ => True) entries
      (rootPlace host dev))
    (shallow : (pathComponents filename).length ≤ isoMaxDepth + 1) (ended : (0 : Byte) ∉ filename) :
    ∃ fuel boot', fsCdromFindFile host dev filename fuel = some (.ok (boot',
      follow fold (lookupAs fold Node.file?) entries (pathComponents filename) (rootPlace host dev))) := by
  have skips (skip : Byte) (same : some dev.suspSkip = some skip) : dev.suspSkip = skip := Option.some.inj same
  obtain ⟨fuel, boot', -, found⟩ := findFile_follows serves (recorded_formed serves memory marked skips formed)
    ((splitElements_length_le _).trans shallow) ended coherent
  exact ⟨fuel, boot', found⟩

/-- The first read of a device finds the descriptor, unless its memory has another sector for sector 16. -/
theorem first_read (serves : Serves host.read disc) (fresh : boot.sectorInBuf = 16 → boot.tmpbuf = disc 16) :
    ∃ boot', Coherent disc boot' ∧
      cdromRead host.read boot 16 0 (BitVec.ofNat 32 voldescSize) = (boot', .ok (volumeDescriptor disc)) := by
  by_cases same : boot.sectorInBuf = 16
  · have coherent : Coherent disc boot := by
      rw [Coherent, same]
      exact fresh same
    exact cdromRead_serves serves coherent 16 0 _
  · -- What is in `tmpbuf` is not looked at before it is read over.
    let boot₀ : Cache D := { boot with tmpbuf := disc boot.sectorInBuf }
    have coherent : Coherent disc boot₀ := rfl
    obtain ⟨boot', coherent', answer⟩ := cdromRead_serves serves coherent 16 0 (BitVec.ofNat 32 voldescSize)
    refine ⟨boot', coherent', ?_⟩
    have answer : cdromRead host.read boot₀ 16 0 (BitVec.ofNat 32 voldescSize) = (boot', .ok (volumeDescriptor disc)) :=
      answer
    have skip : skipSectors (0 : Word).toNat 16 0 = (16, 0) := rfl
    have small : ¬BitVec.ofNat 32 voldescSize / 2048 ≠ 0 := by decide
    have some : BitVec.ofNat 32 voldescSize ≠ 0 := by decide
    generalize BitVec.ofNat 32 voldescSize = size at answer small some ⊢
    let t : Transfer := ⟨16, 0, size, []⟩
    have call (boot : Cache D) : cdromRead host.read boot 16 0 size =
        ((readTail host.read boot t).1, (readTail host.read boot t).2.map Transfer.dest) := by
      have head : readHead host.read boot t = (boot, .ok t) := rfl
      have middle : readMiddle host.read boot t = (boot, .ok t) := if_neg small
      rw [cdromRead, skip]
      dsimp only
      rw [head, andThen, middle, andThen]
    have refilled : refill host.read boot t.block = refill host.read boot₀ t.block := by
      rw [refill, refill, if_pos same, if_pos (show boot₀.sectorInBuf ≠ 16 from same)]
    have tail : readTail host.read boot t = readTail host.read boot₀ t := by
      rw [readTail, readTail, if_pos some, if_pos some, refilled]
    rw [call, tail, ← call, answer]

/-- The end of `cdrom_create`. -/
theorem rockRidge_marked {root : Word} (serves : Serves host.read disc) (memory : ∀ n, host.allocates n = true)
    (coherent : Coherent disc boot) (marked : Marked host disc root rr) (suspSkip : Byte) :
    ∃ fuel boot' skip', Coherent disc boot' ∧ (∀ skip, rr = some skip → skip' = skip) ∧
      rockRidge host boot root (slice (discByte disc root 0) 0 dirSize) suspSkip fuel =
        some (.ok (boot', rr.isSome, skip')) := by
  obtain ⟨boot₁, coherent₁, answer⟩ := cdromRead_serves serves coherent root
    (BitVec.ofNat 32 (rootSuaStart (recordAt host disc root 0))) (rootSuaSize (recordAt host disc root 0))
  have record : contents host.stale (slice (discByte disc root 0) 0 dirSize) = recordAt host disc root 0 := rfl
  cases marked with
  | plain other =>
    refine ⟨0, boot₁, suspSkip, coherent₁, fun _ none => (Option.some_ne_none _ none.symm).elim, ?_⟩
    rw [rockRidge]
    dsimp only
    rw [record, if_pos (memory _), answer]
    exact if_neg (Bool.eq_false_iff.mp other)
  | @shared found here has =>
    obtain ⟨fuel, boot', coherent', searched⟩ := getEntry_area serves memory coherent₁ has
    refine ⟨fuel, boot', rootSua host disc root (suspData + 2), coherent', ?_, ?_⟩
    · intro skip same
      obtain ⟨_, -, same⟩ := Option.map_eq_some_iff.mp same
      exact same
    · rw [rockRidge]
      dsimp only
      rw [record, if_pos (memory _), answer]
      refine (if_pos here).trans ?_
      rw [searched, Option.isSome_map]
      cases found <;> rfl

/-- A device is made for the volume of a disc. -/
theorem create_opened {root : Word × Word} {fresh : CdromBootDev D} (serves : Serves host.read disc)
    (memory : ∀ n, host.allocates n = true) (opens : Opens host disc root rr)
    (chance : fresh.boot.sectorInBuf = 16 → fresh.boot.tmpbuf = disc 16) :
    ∃ fuel dev, Opened disc root rr dev ∧ cdromCreate host fresh fuel = some (.ok (some dev)) := by
  obtain ⟨boot₁, coherent₁, first⟩ := first_read serves chance
  obtain ⟨boot₂, coherent₂, second⟩ := cdromRead_serves serves coherent₁ root.1 0 (BitVec.ofNat 32 dirSize)
  obtain ⟨fuel, boot', skip', coherent', skips, looked⟩ :=
    rockRidge_marked serves memory coherent₂ opens.marked fresh.suspSkip
  have second : cdromRead host.read boot₁ root.1 0 (BitVec.ofNat 32 dirSize) =
      (boot₂, .ok (slice (discByte disc root.1 0) 0 dirSize)) := second
  have place : volumeRoot host (volumeDescriptor disc) = root.1 := congrArg Prod.fst opens.place
  refine ⟨fuel, ⟨boot', volumeDescriptor disc, slice (discByte disc root.1 0) 0 dirSize, rr.isSome, skip'⟩,
    ⟨coherent', rfl, rfl, rfl, skips⟩, ?_⟩
  rw [cdromCreate, readVolume, first]
  dsimp only
  rw [if_neg (not_not_intro opens.magic), place, second]
  dsimp only
  rw [place, looked]
  rfl

/-- A load from the device, which stays as it should be. -/
theorem opened_load {root : Word × Word} {entries : Word × Word → Listing} {filename : List Byte}
    (serves : Serves host.read disc) (memory : ∀ n, host.allocates n = true) (opens : Opens host disc root rr)
    (formed : WellFormed (Lists host disc (RecordNamed host disc rr)) (fun _ => True) entries root)
    (opened : Opened disc root rr dev) (shallow : (pathComponents filename).length ≤ isoMaxDepth + 1)
    (ended : (0 : Byte) ∉ filename) :
    ∃ fuel dev', Opened disc root rr dev' ∧ fsCdromLoadFile host dev filename fuel = some (.ok (dev',
      loadedFrom disc (follow fold (lookupAs fold Node.file?) entries (pathComponents filename) root))) := by
  have place : rootPlace host dev = root := by
    rw [rootPlace, opened.voldesc]
    exact opens.place
  have listed := recorded_formed serves memory opened.marked opened.skips formed
  obtain ⟨fuel, boot₁, coherent₁, found⟩ := findFile_follows serves (place ▸ listed)
    ((splitElements_length_le _).trans shallow) ended opened.coherent
  rw [place] at found
  generalize follow fold (lookupAs fold Node.file?) entries (pathComponents filename) root = led at found ⊢
  have kept {boot' : Cache D} (coherent' : Coherent disc boot') : Opened disc root rr { dev with boot := boot' } :=
    ⟨coherent', opened.voldesc, opened.rootdir, opened.marked, opened.skips⟩
  cases led with
  | none => exact ⟨fuel, _, kept coherent₁, load_missing found⟩
  | some file =>
    obtain ⟨boot', coherent', answer⟩ := cdromRead_serves serves coherent₁ file.1 0 file.2
    have loaded := load_found found
    rw [answer] at loaded
    by_cases empty : file.2 = 0
    · have nothing : extentContent disc file = [] := by
        rw [extentContent, empty]
        rfl
      rw [if_pos empty, if_pos empty] at loaded
      refine ⟨fuel, _, kept coherent₁, loaded.trans ?_⟩
      rw [loadedFrom, nothing]
    · rw [if_neg empty, if_neg empty] at loaded
      exact ⟨fuel, _, kept coherent', loaded⟩

end

def sharing : SuspEntry := ⟨chars "SP" ++ [7, 1, 190, 239, 0], by decide, by decide⟩
def marker : SuspEntry := ⟨chars "RR" ++ [5, 1, 0], by decide, by decide⟩
def menuName : SuspEntry := ⟨chars "NM" ++ [13, 1, 0] ++ chars "menu.lst", by decide, by decide⟩

/-- A record with an identifier of one byte. -/
def areaRecord (sector : Byte) (size : Byte × Byte) (flags id : Byte) (area : List Byte) : List Byte :=
  [34 + BitVec.ofNat 8 area.length, 0, 0, 0, 0, 0, 0, 0, 0, sector, 0, 0, 0, 0, 0, 0, size.1, size.2, 0,
    0, 0, 0, 0, 0, 0, flags, 0, 0, 0, 0, 0, 0, 1, id] ++ area

/-- A disc with Rock Ridge, with a menu and the file `a` that its entry boots. -/
def alternateDisc (block : Word) : Sector := fun i =>
  if block = 16 then (0 :: chars "CD001" ++ List.replicate 150 0 ++ selfRecord).getD i 0
  else if block = 17 then
    (areaRecord 17 (8, 0) 2 0 (sharing.bytes ++ marker.bytes) ++ areaRecord 17 (8, 0) 2 1 attributes.bytes ++
      areaRecord 18 (0, 17) 0 65 (menuName.bytes ++ [0]) ++ areaRecord 19 (0, 5) 0 66 alternateName.bytes).getD i 0
  else if block = 18 then (chars "title t\nkernel a\n").getD i 0
  else if block = 19 then (chars "hello").getD i 0
  else 0

def alternateRoot : Listing :=
  [(chars ".", .dir (17, 2048)), (chars "..", .dir (17, 2048)), (chars "menu.lst", .file (18, 17)),
    (chars "a", .file (19, 5))]

theorem alternateDisc_serves : Serves (steadyHost alternateDisc).read alternateDisc :=
  ⟨steady_faithful alternateDisc, fun _ _ _ => rfl⟩

/-- The areas of its records, as they are read. -/
theorem alternateDisc_areas :
    RecordHas (steadyHost alternateDisc) alternateDisc 0 17 0 none ∧
      RecordHas (steadyHost alternateDisc) alternateDisc 0 17 46 none ∧
      RecordHas (steadyHost alternateDisc) alternateDisc 0 17 84 (some menuName) ∧
      RecordHas (steadyHost alternateDisc) alternateDisc 0 17 132 (some alternateName) := by
  refine ⟨?_, ?_, ?_, ?_⟩
  · exact areaHas_laid [sharing, marker] [] "NM" (by decide) (by decide) (by decide)
  · exact areaHas_laid [attributes] [] "NM" (by decide) (by decide) (by decide)
  · exact areaHas_laid [menuName] [0] "NM" (by decide) (by decide) (by decide)
  · exact areaHas_laid [alternateName] [] "NM" (by decide) (by decide) (by decide)

private theorem alternateDisc_records :
    Records (steadyHost alternateDisc) alternateDisc
      (RecordNamed (steadyHost alternateDisc) alternateDisc (some 0)) 17 2048 0
      alternateRoot := by
  obtain ⟨itself, parent, menu, kernel⟩ := alternateDisc_areas
  have first : identifier (steadyHost alternateDisc) alternateDisc 17 0 = [0] := by decide
  have second : identifier (steadyHost alternateDisc) alternateDisc 17 46 = [1] := by decide
  have named : AlternateName menuName (chars "menu.lst") :=
    .name (by decide) (by decide) ⟨by decide, by decide, by decide⟩
  have named' : AlternateName alternateName (chars "a") :=
    .name (by decide) (by decide) ⟨by decide, by decide, by decide⟩
  refine .next 46 (by decide) (.own itself (first ▸ .self)) (by decide) (by decide) ?_
  refine .next 84 (by decide) (.own parent (second ▸ .parent)) (by decide) (by decide) ?_
  refine .next 132 (by decide) (.alternate menu named) (by decide) (by decide) ?_
  refine .next 172 (by decide) (.alternate kernel named') (by decide) (by decide) ?_
  exact .skip (by decide) (by decide) (.past (by decide))

theorem alternateDisc_formed :
    WellFormed (Lists (steadyHost alternateDisc) alternateDisc
      (RecordNamed (steadyHost alternateDisc) alternateDisc (some 0)))
      (fun _ => True) (fun _ => alternateRoot) (17, 2048) := by
  refine ⟨fun i below => ?_, fun _ _ _ _ => trivial⟩
  have root : i = (17, 2048) := by
    induction below with
    | root => rfl
    | step _ member =>
      have either := by simpa [alternateRoot] using member
      rcases either with ⟨-, rfl⟩ | ⟨-, rfl⟩ <;> rfl
  rw [root]
  exact ⟨by decide, alternateDisc_records⟩

/-- The device of that disc, with the root directory in its cache. -/
def alternateDev : CdromBootDev Unit where
  boot := ⟨(), alternateDisc 17, 17, true⟩
  voldesc := volumeDescriptor alternateDisc
  rootdir := slice (discByte alternateDisc 17 0) 0 dirSize
  rr := true
  suspSkip := 0

private theorem alternateDisc_root : rootPlace (steadyHost alternateDisc) alternateDev = (17, 2048) := by decide

/-- The menu is found by its alternate name. -/
theorem alternateDisc_found : ∃ fuel boot',
    fsCdromFindFile (steadyHost alternateDisc) alternateDev (chars "/Menu.lst") fuel =
      some (.ok (boot', some (18, 17))) := by
  have coherent : Coherent alternateDisc alternateDev.boot := rfl
  have leads : follow fold (lookupAs fold Node.file?) (fun _ => alternateRoot) (pathComponents (chars "/Menu.lst"))
      (17, 2048) = some (18, 17) := by decide
  have shallow : (pathComponents (chars "/Menu.lst")).length ≤ isoMaxDepth + 1 := by decide
  have formed := alternateDisc_formed
  rw [← alternateDisc_root] at formed leads
  obtain ⟨fuel, boot', found⟩ :=
    findFile_alternate alternateDisc_serves coherent (fun _ => rfl) rfl formed shallow (by decide)
  rw [leads] at found
  exact ⟨fuel, boot', found⟩

end Parthenope.Cdrom
