import Parthenope.SfsFiles
import Parthenope.SfsTermination

/-! Which bytes of a container the search of a directory reads. Nothing in it is compared
with the size of a block: the walk over the objects ends at a node number of zero, and an
object ends at its second zero byte, wherever these are. -/
namespace Parthenope.Sfs
open CString Buffer StepLoop FileNames

/-- The bytes of a word. -/
def InWord (o x : Nat) : Prop := o ≤ x ∧ x < o + 4

/-- How many characters of a name `strcasecmp` looks at. -/
def compared (name : Nat → Byte) : List Byte → Nat
  | [] => 1
  | c :: dirname =>
    if tolower (name 0) = tolower c ∧ name 0 ≠ 0 then compared (fun i => name (i + 1)) dirname + 1 else 1

/-- What `calcchecksum` reads of a block. -/
def ChecksumRead (block : Nat → Byte) (blocksize : Word) (x : Nat) : Prop :=
  ∃ s, Reaches (checksumTurn block) (0, 1, blocksize) s ∧ 0 < s.2.2 ∧ InWord s.1 x

/-- What `sfs_nextobject` reads behind an object. -/
def NextobjectRead (block : Nat → Byte) (o x : Nat) : Prop :=
  ∃ i, Reaches (stringsTurn block) (2, o + soName) (i, x) ∧ 0 < i

/-- What is read of an object and behind it in its turn of the loop. -/
inductive ObjectRead (block : Nat → Byte) (dirname : List Byte) (type : Byte) (o : Nat) : Nat → Prop
  | objectnode {x : Nat} : InWord (o + soObjectnode) x → ObjectRead block dirname type o x
  | name {i : Nat} : 0 < be32 (member block o) soObjectnode →
      i < compared (member block (o + soName)) dirname → ObjectRead block dirname type o (o + soName + i)
  | bits : 0 < be32 (member block o) soObjectnode →
      strcasecmp (cstring (slice (member block o) soName (dirname.length + 1))) dirname = 0 → type ≠ 0 →
        ObjectRead block dirname type o (o + soBits)
  | nextobject {x : Nat} : 0 < be32 (member block o) soObjectnode →
      matchesObject (member block o) dirname type = false → NextobjectRead block o x →
        ObjectRead block dirname type o x

/-- The checksum of a block lets `sfs_findobject` go on. -/
def Accepted (block : Nat → Byte) (blocksize : Word) : Prop :=
  ∃ fuel, verdict block blocksize fuel = some .accepted

/-- What `sfs_findobject` reads of a block, before it moves on to the next container. -/
inductive ContainerRead (block : Nat → Byte) (blocksize : Word) (dirname : List Byte) (type : Byte) : Nat → Prop
  | checksum {x : Nat} : ChecksumRead block blocksize x → ContainerRead block blocksize dirname type x
  | id {x : Nat} : Accepted block blocksize → InWord sbhId x → ContainerRead block blocksize dirname type x
  | object {x o fuel : Nat} : Accepted block blocksize → be32 block sbhId = socId →
      Reaches (objectTurn block dirname type fuel) socObject o → ObjectRead block dirname type o x →
        ContainerRead block blocksize dirname type x
  | next {x fuel : Nat} : Accepted block blocksize → be32 block sbhId = socId →
      nested (objectTurn block dirname type) fuel socObject = some none → InWord socNext x →
        ContainerRead block blocksize dirname type x

/-- The name and the comment of an object, with their zero bytes, are in a block. -/
def StringsFit (block : Nat → Byte) (size p : Nat) : Prop :=
  ∃ name comment, FirstZero block p name ∧ FirstZero block (name + 1) comment ∧ comment < size

/-- The objects of a block are in it as far as a search goes: up to the one with the node
number zero, or to one that matches. -/
inductive ObjectsFit (block : Nat → Byte) (size : Nat) (dirname : List Byte) (type : Byte) : Nat → Prop
  | last {o : Nat} : o + soObjectnode + 4 ≤ size → be32 (member block o) soObjectnode = 0 →
      ObjectsFit block size dirname type o
  | found {o : Nat} : o + soName + dirname.length < size → matchesObject (member block o) dirname type = true →
      ObjectsFit block size dirname type o
  | next {o next : Nat} : StringsFit block size (o + soName) → NextObject block o next →
      ObjectsFit block size dirname type next → ObjectsFit block size dirname type o

/-- A block consists of words, and if it is taken for a container its objects are in it. -/
structure ContainerFits (block : Nat → Byte) (blocksize : Word) (dirname : List Byte) (type : Byte) : Prop where
  nonempty : 0 < blocksize.toNat
  words : blocksize.toNat % 4 = 0
  objects : Accepted block blocksize → be32 block sbhId = socId →
    ObjectsFit block blocksize.toNat dirname type socObject

/-- All that the search of a directory reads of a block is in the block. -/
def FindobjectInside {D : Type} (host : Host D) (self : SfsBootDev) (d : D) (cwd : Nat → Byte)
    (dirname : List Byte) (type : Byte) : Prop :=
  ∀ fuel d' link, Reaches (containerTurn host self dirname type fuel) (d, be32 cwd soFirstdirblock) (d', link) →
    link ≠ 0 → ∀ x, ContainerRead (readBlock host self d' link).2 self.blocksize dirname type x →
      x < self.blocksize.toNat

section
variable {block : Nat → Byte} {size o next p x i fuel : Nat} {dirname : List Byte} {type : Byte} {blocksize : Word}

/-- What the search for zero bytes reads from a state on is in the block. -/
def StringsInside (block : Nat → Byte) (size : Nat) (s : Nat × Nat) : Prop :=
  ∀ i x, Reaches (stringsTurn block) s (i, x) → 0 < i → x < size

private theorem stringsInside_over : StringsInside block size (0, p) := by
  intro i x reached more
  rcases reached.head with same | ⟨s, turns, -⟩
  · cases same
    exact absurd more (Nat.lt_irrefl 0)
  · rw [stringsTurn_ends] at turns
    cases turns

private theorem stringsInside_step :
    StringsInside block size (i + 1, p) ↔
      p < size ∧ StringsInside block size (if block p = 0 then i else i + 1, p + 1) := by
  constructor
  · intro inside
    exact ⟨inside _ _ (.start _) (Nat.succ_pos i),
      fun j x reached more => inside j x (reached.before (stringsTurn_next p)) more⟩
  · rintro ⟨here, further⟩ j x reached more
    rcases reached.head with same | ⟨s, turns, rest⟩
    · cases same
      exact here
    · rw [stringsTurn_next] at turns
      cases turns
      exact further j x rest more

/-- One string more is in the block, with its zero byte. -/
theorem stringsInside_iff :
    StringsInside block size (i + 1, p) ↔
      ∃ q, FirstZero block p q ∧ q < size ∧ StringsInside block size (i, q + 1) := by
  constructor
  · intro inside
    obtain ⟨here, further⟩ := stringsInside_step.mp inside
    induction left : size - p generalizing p with
    | zero => omega
    | succ n ih =>
      by_cases zero : block p = 0
      · rw [if_pos zero] at further
        exact ⟨p, .here zero, here, further⟩
      · rw [if_neg zero] at further
        obtain ⟨here', further'⟩ := stringsInside_step.mp further
        obtain ⟨q, first, rest⟩ := ih further here' further' (by omega)
        exact ⟨q, first.before zero, rest⟩
  · rintro ⟨q, first, below, rest⟩
    -- The motive keeps the place in the block, which is before the zero byte.
    suffices p ≤ q ∧ StringsInside block size (i + 1, p) from this.2
    refine first.induction (motive := fun p => p ≤ q ∧ StringsInside block size (i + 1, p)) ?_ ?_
    · intro zero
      rw [stringsInside_step, if_pos zero]
      exact ⟨le_rfl, below, rest⟩
    · rintro p other ⟨before, inside⟩
      rw [stringsInside_step, if_neg other]
      exact ⟨Nat.le_of_succ_le before, by omega, inside⟩

private theorem nextobject_inside_iff :
    (∀ x, NextobjectRead block o x → x < size) ↔ StringsFit block size (o + soName) := by
  have states : (∀ x, NextobjectRead block o x → x < size) ↔ StringsInside block size (2, o + soName) :=
    ⟨fun inside i x reached more => inside x ⟨i, reached, more⟩,
      fun inside x ⟨i, reached, more⟩ => inside i x reached more⟩
  rw [states, stringsInside_iff]
  constructor
  · rintro ⟨name, named, -, rest⟩
    obtain ⟨comment, commented, below, -⟩ := stringsInside_iff.mp rest
    exact ⟨name, comment, named, commented, below⟩
  · rintro ⟨name, comment, named, commented, below⟩
    have order := commented.1
    exact ⟨name, named, by omega, stringsInside_iff.mpr ⟨comment, commented, below, stringsInside_over⟩⟩

/-- A name is looked at up to its zero byte at most. -/
theorem compared_le {name : Nat → Byte} {z : Nat} (zero : name z = 0) (dirname : List Byte) :
    compared name dirname ≤ z + 1 := by
  induction dirname generalizing name z with
  | nil => exact Nat.succ_le_succ (Nat.zero_le z)
  | cons c dirname ih =>
    rw [compared]
    split
    · rename_i goes
      cases z with
      | zero => exact absurd zero goes.2
      | succ z => exact Nat.succ_le_succ (ih zero)
    · exact Nat.succ_le_succ (Nat.zero_le z)

private theorem name_over {name : Nat → Byte} (zero : name 0 = 0) (n : Nat) : cstring (slice name 0 (n + 1)) = [] := by
  rw [slice_first, zero, cstring, List.takeWhile_cons_of_neg (by decide)]

private theorem name_first {name : Nat → Byte} (other : name 0 ≠ 0) (n : Nat) :
    cstring (slice name 0 (n + 1)) = name 0 :: cstring (slice (fun i => name (i + 1)) 0 n) := by
  have plain : (name 0 != nul) = true := bne_iff_ne.mpr other
  rw [slice_first, cstring, List.takeWhile_cons_of_pos (by exact plain), cstring]

/-- A name that is the one searched is looked at up to its end. -/
theorem compared_same {name : Nat → Byte} (ended : (0 : Byte) ∉ dirname)
    (same : strcasecmp (cstring (slice name 0 (dirname.length + 1))) dirname = 0) :
    compared name dirname = dirname.length + 1 := by
  induction dirname generalizing name with
  | nil => rfl
  | cons c dirname ih =>
    have letter : c ≠ 0 := fun zero => ended (zero ▸ List.mem_cons_self)
    rw [List.length_cons] at same
    by_cases zero : name 0 = 0
    · rw [name_over zero, strcasecmp] at same
      exact absurd (tolower_zero c (BitVec.eq_of_toNat_eq (Int.ofNat.inj same))) letter
    · rw [name_first zero] at same
      by_cases lowered : tolower (name 0) = tolower c
      · rw [strcasecmp_same lowered] at same
        rw [compared, if_pos ⟨lowered, zero⟩, ih (fun inside => ended (List.mem_cons_of_mem _ inside)) same,
          List.length_cons]
      · exact absurd same (strcasecmp_other lowered).2

/-- Only the characters that are looked at decide a comparison. -/
theorem strcasecmp_looked {name name' : Nat → Byte} (same : ∀ i < compared name dirname, name' i = name i) :
    strcasecmp (cstring (slice name' 0 (dirname.length + 1))) dirname =
      strcasecmp (cstring (slice name 0 (dirname.length + 1))) dirname := by
  induction dirname generalizing name name' with
  | nil =>
    rw [List.length_nil, slice_first, slice_first, same 0 Nat.zero_lt_one]
    rfl
  | cons c dirname ih =>
    have letter : name' 0 = name 0 := by
      refine same 0 ?_
      rw [compared]
      split <;> omega
    rw [List.length_cons]
    by_cases zero : name 0 = 0
    · rw [name_over zero, name_over (letter.trans zero)]
    · rw [name_first zero, name_first (by rwa [letter]), letter]
      by_cases lowered : tolower (name 0) = tolower c
      · rw [strcasecmp_same lowered, strcasecmp_same lowered]
        refine ih fun i inside => same (i + 1) ?_
        rw [compared, if_pos ⟨lowered, zero⟩]
        exact Nat.succ_lt_succ inside
      · rw [(strcasecmp_other lowered).1, (strcasecmp_other lowered).1]

/-- A turn that goes on has come to an object that does not match, and goes to the next. -/
theorem objectTurn_goes (goes : objectTurn block dirname type fuel o = .inr next) :
    0 < be32 (member block o) soObjectnode ∧ matchesObject (member block o) dirname type = false ∧
      sfsNextobject block o fuel = some next := by
  unfold objectTurn at goes
  split at goes
  · rename_i used
    split at goes
    · cases goes
    · rename_i other
      refine ⟨used, Bool.eq_false_iff.mpr other, ?_⟩
      cases follows : sfsNextobject block o fuel with
      | none =>
        rw [follows] at goes
        cases goes
      | some next' =>
        rw [follows] at goes
        cases goes
        rfl
  · cases goes

private theorem name_slice (block : Nat → Byte) (o n : Nat) :
    slice (member block o) soName n = slice (member block (o + soName)) 0 n := by
  refine slice_congr fun i _ => ?_
  rw [member, member, Nat.zero_add, Nat.add_assoc]

private theorem matches_name (found : matchesObject (member block o) dirname type = true) :
    strcasecmp (cstring (slice (member block (o + soName)) 0 (dirname.length + 1))) dirname = 0 := by
  rw [matchesObject, name_slice, Bool.and_eq_true, beq_iff_eq] at found
  exact found.1

/-- All that the loop over the objects of a block reads from one on is in the block. -/
def ObjectsInside (block : Nat → Byte) (size : Nat) (dirname : List Byte) (type : Byte) (o : Nat) : Prop :=
  ∀ fuel o' x, Reaches (objectTurn block dirname type fuel) o o' → ObjectRead block dirname type o' x → x < size

theorem ObjectsInside.here (inside : ObjectsInside block size dirname type o)
    (read : ObjectRead block dirname type o x) : x < size :=
  inside 0 o x (.start o) read

theorem ObjectsInside.further (inside : ObjectsInside block size dirname type o)
    (used : be32 (member block o) soObjectnode ≠ 0) (other : matchesObject (member block o) dirname type = false)
    (follows : NextObject block o next) : ObjectsInside block size dirname type next := by
  intro fuel o' x reached read
  obtain ⟨n, found⟩ := nextobject_iff.mpr follows
  have first := objectTurn_next used other (nextobject_more found (le_max_left n fuel))
  exact inside _ o' x ((reaches_mono objectTurn_steady reached (le_max_right n fuel)).before first) read

private theorem InWord.before_name (word : InWord (o + soObjectnode) x) : x < o + soName := by
  have node : soObjectnode + 4 ≤ soName := by decide
  have below := word.2
  omega

theorem StringsFit.follows (fit : StringsFit block size (o + soName)) : ∃ next, NextObject block o next := by
  obtain ⟨name, comment, named, commented, -⟩ := fit
  exact ⟨_, name, comment, named, commented, rfl⟩

private theorem NextObject.lt (follows : NextObject block o next) : o + soName < next := by
  obtain ⟨name, comment, named, commented, rfl⟩ := follows
  have begun := named.1
  have order := commented.1
  split <;> omega

theorem ObjectsInside.fit (ended : (0 : Byte) ∉ dirname) (inside : ObjectsInside block size dirname type o) :
    ObjectsFit block size dirname type o := by
  induction left : size - o using Nat.strong_induction_on generalizing o with
  | h n ih =>
    have node : o + soObjectnode + 3 < size := inside.here (.objectnode ⟨by omega, by omega⟩)
    by_cases last : be32 (member block o) soObjectnode = 0
    · exact .last node last
    · have used : 0 < be32 (member block o) soObjectnode := (BitVec.pos_iff_ne_zero _).mpr last
      cases found : matchesObject (member block o) dirname type with
      | true =>
        have length := compared_same ended (matches_name found)
        exact .found (inside.here (.name used (length ▸ Nat.lt_succ_self _))) found
      | false =>
        have fit : StringsFit block size (o + soName) :=
          nextobject_inside_iff.mp fun x read => inside.here (.nextobject used found read)
        obtain ⟨next, follows⟩ := fit.follows
        have less := follows.lt
        exact .next fit follows (ih (size - next) (by omega) (inside.further last found follows) rfl)

/-- An object with both its strings in the block is read inside it. -/
theorem StringsFit.read (fit : StringsFit block size (o + soName)) (read : ObjectRead block dirname type o x) :
    x < size := by
  have strings := nextobject_inside_iff.mpr fit
  obtain ⟨name, comment, ⟨begun, zero, -⟩, ⟨order, -, -⟩, below⟩ := fit
  cases read with
  | objectnode word =>
    have := word.before_name
    omega
  | @name i used looked =>
    have ended : member block (o + soName) (name - (o + soName)) = 0 := by
      rw [member, Nat.add_sub_cancel' begun]
      exact zero
    have := compared_le ended dirname
    omega
  | bits =>
    have bits : soBits ≤ soName := by decide
    omega
  | nextobject _ _ read => exact strings x read

/-- So is one that matches, with its name in the block. -/
theorem found_read (ended : (0 : Byte) ∉ dirname) (fit : o + soName + dirname.length < size)
    (found : matchesObject (member block o) dirname type = true) (read : ObjectRead block dirname type o x) :
    x < size := by
  cases read with
  | objectnode word =>
    have := word.before_name
    omega
  | name used looked =>
    rw [compared_same ended (matches_name found)] at looked
    omega
  | bits =>
    have bits : soBits ≤ soName := by decide
    omega
  | nextobject _ other _ =>
    rw [found] at other
    cases other

/-- And the last one, with its node number in the block. -/
theorem last_read (fit : o + soObjectnode + 4 ≤ size) (last : be32 (member block o) soObjectnode = 0)
    (read : ObjectRead block dirname type o x) : x < size := by
  have unused : ¬0 < be32 (member block o) soObjectnode := by
    rw [last]
    decide
  cases read with
  | objectnode word => exact word.2.trans_le fit
  | name used _ => exact absurd used unused
  | bits used _ _ => exact absurd used unused
  | nextobject used _ _ => exact absurd used unused

theorem ObjectsFit.inside (ended : (0 : Byte) ∉ dirname) (fit : ObjectsFit block size dirname type o) :
    ObjectsInside block size dirname type o := by
  intro fuel o' x reached read
  induction fit with
  | @last o fit last =>
    rcases reached.head with rfl | ⟨u, goes, -⟩
    · exact last_read fit last read
    · have used := (objectTurn_goes goes).1
      rw [last] at used
      exact absurd used (by decide)
  | @found o fit found =>
    rcases reached.head with rfl | ⟨u, goes, -⟩
    · exact found_read ended fit found read
    · have other := (objectTurn_goes goes).2.1
      rw [found] at other
      cases other
  | @next o next fit follows _ ih =>
    rcases reached.head with rfl | ⟨u, goes, rest⟩
    · exact fit.read read
    · obtain rfl := follows.unique (nextobject_iff.mp ⟨fuel, (objectTurn_goes goes).2.2⟩)
      exact ih rest

/-- The words that are added up are in the block if and only if it consists of words. -/
theorem checksum_inside_iff :
    (∀ x, ChecksumRead block blocksize x → x < blocksize.toNat) ↔ blocksize.toNat % 4 = 0 := by
  have further {s t : Nat × Word × Word} (turns : checksumTurn block s = .inr t) (word : 4 ≤ s.2.2.toNat)
      (left : s.2.2.toNat + s.1 = blocksize.toNat) : t.2.2.toNat + t.1 = blocksize.toNat := by
    obtain ⟨-, data, size⟩ := checksumTurn_next turns
    have less : (s.2.2 - 4).toNat = s.2.2.toNat - 4 := BitVec.toNat_sub_of_le (BitVec.le_def.mpr word)
    rw [data, size, less]
    omega
  constructor
  · intro inside
    have word {s : Nat × Word × Word} (reached : Reaches (checksumTurn block) (0, 1, blocksize) s)
        (left : s.2.2.toNat + s.1 = blocksize.toNat) (more : 0 < s.2.2.toNat) : 4 ≤ s.2.2.toNat := by
      have := inside (s.1 + 3) ⟨s, reached, BitVec.lt_def.mpr more, by omega, by omega⟩
      omega
    refine checksum_ends_iff.mp ⟨_, run_terminates (checksumTurn block)
      (fun s => Reaches (checksumTurn block) (0, 1, blocksize) s ∧ s.2.2.toNat + s.1 = blocksize.toNat)
      (fun s => s.2.2.toNat) ?_ ?_ ⟨.start _, rfl⟩ (Nat.lt_succ_self _)⟩
    · rintro s t ⟨reached, left⟩ turns
      exact ⟨reached.turn turns, further turns (word reached left (checksumTurn_next turns).1) left⟩
    · rintro s t ⟨reached, left⟩ turns
      have whole := word reached left (checksumTurn_next turns).1
      have left' := further turns whole left
      have data := (checksumTurn_next turns).2.1
      omega
  · rintro whole x ⟨s, reached, more, -, below⟩
    have more' : 0 < s.2.2.toNat := BitVec.lt_def.mp more
    have ⟨left, aligned⟩ : s.2.2.toNat + s.1 = blocksize.toNat ∧ s.1 % 4 = 0 := by
      refine reached.invariant (fun s => s.2.2.toNat + s.1 = blocksize.toNat ∧ s.1 % 4 = 0) ?_ ⟨rfl, rfl⟩
      rintro s t ⟨left, aligned⟩ turns
      obtain ⟨some, data, -⟩ := checksumTurn_next turns
      exact ⟨further turns (by omega) left, by omega⟩
    omega

/-- The search of a container reads inside if and only if what is in it fits. -/
theorem container_inside_iff (ended : (0 : Byte) ∉ dirname) :
    (∀ x, ContainerRead block blocksize dirname type x → x < blocksize.toNat) ↔
      ContainerFits block blocksize dirname type := by
  constructor
  · intro inside
    refine ⟨?_, checksum_inside_iff.mp fun x read => inside x (.checksum read), fun accepted id => ?_⟩
    · by_contra empty
      obtain rfl : blocksize = 0 := BitVec.eq_of_toNat_eq (by simpa using empty)
      exact empty (inside 0 (.id ⟨1, rfl⟩ ⟨le_rfl, by decide⟩))
    · have objects : ObjectsInside block blocksize.toNat dirname type socObject :=
        fun fuel o x reached read => inside x (.object accepted id reached read)
      exact objects.fit ended
  · rintro ⟨nonempty, words, objects⟩ x read
    cases read with
    | checksum read => exact checksum_inside_iff.mpr words x read
    | id _ word =>
      have below : x < 0 + 4 := word.2
      omega
    | object accepted id reached read => exact (objects accepted id).inside ended _ _ x reached read
    | next accepted id _ word =>
      have node := ((objects accepted id).inside ended).here
        (.objectnode (x := socObject + soObjectnode) ⟨le_rfl, by omega⟩)
      have order : socNext + 4 ≤ socObject + soObjectnode := by decide
      have := word.2
      omega

/-- The search of a directory reads inside its blocks if and only if each container that it
comes to fits into its block. -/
theorem findobject_inside_iff {D : Type} {host : Host D} {self : SfsBootDev} {d : D} {cwd : Nat → Byte}
    (ended : (0 : Byte) ∉ dirname) : FindobjectInside host self d cwd dirname type ↔
      ∀ fuel d' link,
        Reaches (containerTurn host self dirname type fuel) (d, be32 cwd soFirstdirblock) (d', link) →
          link ≠ 0 → ContainerFits (readBlock host self d' link).2 self.blocksize dirname type := by
  constructor
  · intro inside fuel d' link reached more
    exact (container_inside_iff ended).mp (inside fuel d' link reached more)
  · intro fits fuel d' link reached more
    exact (container_inside_iff ended).mpr (fits fuel d' link reached more)

end

section
variable {block block' : Nat → Byte} {o n fuel : Nat} {dirname : List Byte} {type : Byte} {blocksize : Word}

private theorem word_same (same : ∀ x, InWord o x → block' x = block x) : be32 block' o = be32 block o := by
  have byte (i : Nat) (inside : i < 4) : block' (o + i) = block (o + i) :=
    same _ ⟨Nat.le_add_right o i, Nat.add_lt_add_left inside o⟩
  unfold be32
  rw [same o ⟨le_rfl, by omega⟩, byte 1 (by decide), byte 2 (by decide), byte 3 (by decide)]

/-- Only what it reads decides what `sfs_nextobject` finds. -/
theorem nextobject_same (same : ∀ x, NextobjectRead block o x → block' x = block x) (fuel : Nat) :
    sfsNextobject block' o fuel = sfsNextobject block o fuel := by
  have turns : run (stringsTurn block') fuel (2, o + soName) = run (stringsTurn block) fuel (2, o + soName) := by
    refine run_congr fun s reached => ?_
    obtain ⟨i, p⟩ := s
    unfold stringsTurn
    dsimp only
    split
    · rename_i more
      rw [same p ⟨i, reached, more⟩]
    · rfl
  rw [sfsNextobject, turns, sfsNextobject]

private theorem matchesObject_same (same : ∀ x, ObjectRead block dirname type o x → block' x = block x)
    (used : 0 < be32 (member block o) soObjectnode) :
    matchesObject (member block' o) dirname type = matchesObject (member block o) dirname type := by
  have name : strcasecmp (cstring (slice (member block' o) soName (dirname.length + 1))) dirname =
      strcasecmp (cstring (slice (member block o) soName (dirname.length + 1))) dirname := by
    rw [name_slice, name_slice]
    exact strcasecmp_looked fun i inside => same _ (.name used inside)
  rw [matchesObject, matchesObject, name]
  by_cases equal : strcasecmp (cstring (slice (member block o) soName (dirname.length + 1))) dirname = 0
  · by_cases any : type = 0
    · rw [any]
      rfl
    · have bits : member block' o soBits = member block o soBits := same _ (.bits used equal any)
      rw [bits]
  · rw [beq_eq_false_iff_ne.mpr equal, Bool.false_and, Bool.false_and]

/-- An object that is found in two blocks at one place, or in neither. -/
inductive FoundAlike {σ : Type} (block block' : Nat → Byte) :
    Option (Option (Nat → Byte)) ⊕ σ → Option (Option (Nat → Byte)) ⊕ σ → Prop
  | same (s : σ) : FoundAlike block block' (.inr s) (.inr s)
  | none : FoundAlike block block' (.inl (some none)) (.inl (some none))
  | endless : FoundAlike block block' (.inl .none) (.inl .none)
  | found (o : Nat) : FoundAlike block block' (.inl (some (some (member block o))))
      (.inl (some (some (member block' o))))

private theorem objectTurn_alike (same : ∀ x, ObjectRead block dirname type o x → block' x = block x) (fuel : Nat) :
    FoundAlike block block' (objectTurn block dirname type fuel o) (objectTurn block' dirname type fuel o) := by
  have node : be32 (member block' o) soObjectnode = be32 (member block o) soObjectnode :=
    word_same (o := o + soObjectnode) fun x word => same x (.objectnode word)
  by_cases last : be32 (member block o) soObjectnode = 0
  · rw [objectTurn_last last, objectTurn_last (node.trans last)]
    exact .none
  · have used : 0 < be32 (member block o) soObjectnode := (BitVec.pos_iff_ne_zero _).mpr last
    have matched := matchesObject_same same used
    cases found : matchesObject (member block o) dirname type with
    | true =>
      rw [objectTurn_found last found, objectTurn_found (node ▸ last) (matched.trans found)]
      exact .found o
    | false =>
      have next := nextobject_same (fun x read => same x (.nextobject used found read)) fuel
      cases follows : sfsNextobject block o fuel with
      | none =>
        rw [objectTurn_undone last found follows,
          objectTurn_undone (node ▸ last) (matched.trans found) (next.trans follows)]
        exact .endless
      | some place =>
        rw [objectTurn_next last found follows,
          objectTurn_next (node ▸ last) (matched.trans found) (next.trans follows)]
        exact .same place

private theorem objects_alike (fuel : Nat)
    (same : ∀ o' x, Reaches (objectTurn block dirname type fuel) o o' → ObjectRead block dirname type o' x →
      block' x = block x) :
    @FoundAlike Unit block block' (.inl (run (objectTurn block dirname type fuel) n o).join)
      (.inl (run (objectTurn block' dirname type fuel) n o).join) := by
  induction n generalizing o with
  | zero => exact .endless
  | succ n ih =>
    have here := objectTurn_alike (fun x => same o x (.start o)) fuel
    cases turn : objectTurn block dirname type fuel o with
    | inl r =>
      rw [turn] at here
      cases here' : objectTurn block' dirname type fuel o with
      | inl r' =>
        rw [run_ends turn, run_ends here']
        rw [here'] at here
        cases here with
        | none => exact .none
        | endless => exact .endless
        | found o => exact .found o
      | inr s =>
        rw [here'] at here
        cases here
    | inr next =>
      rw [turn] at here
      cases here' : objectTurn block' dirname type fuel o with
      | inl r' =>
        rw [here'] at here
        cases here
      | inr s =>
        rw [here'] at here
        cases here
        rw [run_turns turn, run_turns here']
        exact ih fun o' x reached => same o' x (reached.before turn)

private theorem verdict_same (same : ∀ x, ChecksumRead block blocksize x → block' x = block x) (fuel : Nat) :
    verdict block' blocksize fuel = verdict block blocksize fuel := by
  have turns : calcchecksum block' blocksize fuel = calcchecksum block blocksize fuel := by
    refine run_congr fun s reached => ?_
    obtain ⟨data, checksum, left⟩ := s
    unfold checksumTurn
    dsimp only
    split
    · rename_i more
      rw [word_same fun x word => same x ⟨_, reached, more, word⟩]
    · rfl
  rw [verdict, turns, verdict]

/-- The search of a container in another block leads to the same container, or has its
object at the same place. -/
def SearchedAlike {D : Type} (d : D) (block block' : Nat → Byte) (dirname : List Byte) (type : Byte) (fuel : Nat) :
    Prop :=
  searchContainer d block' dirname type fuel = searchContainer d block dirname type fuel ∨
    ∃ o, searchContainer d block dirname type fuel = .inl (some (d, some (member block o))) ∧
      searchContainer d block' dirname type fuel = .inl (some (d, some (member block' o)))

/-- What is read decides the search of a container. -/
theorem searched_alike {D : Type} (same : ∀ x, ContainerRead block blocksize dirname type x → block' x = block x)
    (accepted : Accepted block blocksize) (d : D) (fuel : Nat) : SearchedAlike d block block' dirname type fuel := by
  unfold SearchedAlike
  have id : be32 block' sbhId = be32 block sbhId := word_same fun x word => same x (.id accepted word)
  by_cases container : be32 block sbhId = socId
  · have objects : @FoundAlike Unit block block' (.inl (nested (objectTurn block dirname type) fuel socObject))
        (.inl (nested (objectTurn block' dirname type) fuel socObject)) :=
      objects_alike fuel fun o x reached read => same x (.object accepted container reached read)
    have next (ended : nested (objectTurn block dirname type) fuel socObject = some none) :
        be32 block' socNext = be32 block socNext :=
      word_same fun x word => same x (.next accepted container ended word)
    rw [searchContainer, searchContainer, id, if_neg (not_not_intro container), if_neg (not_not_intro container)]
    generalize nested (objectTurn block dirname type) fuel socObject = r at objects next ⊢
    generalize nested (objectTurn block' dirname type) fuel socObject = r' at objects ⊢
    cases objects with
    | none =>
      left
      dsimp only
      rw [next rfl]
    | endless => exact .inl rfl
    | found o => exact .inr ⟨o, rfl, rfl⟩
  · left
    rw [searchContainer, searchContainer, id, if_pos container, if_pos container]

/-- What is behind a block makes no difference to the search of what fits into it. -/
theorem ContainerFits.alone {D : Type} (ended : (0 : Byte) ∉ dirname)
    (fits : ContainerFits block blocksize dirname type) (same : ∀ x < blocksize.toNat, block' x = block x) :
    (∀ fuel, verdict block' blocksize fuel = verdict block blocksize fuel) ∧
      (Accepted block blocksize → ∀ (d : D) fuel, SearchedAlike d block block' dirname type fuel) := by
  have inside := (container_inside_iff ended).mpr fits
  exact ⟨verdict_same fun x read => same x (inside x (.checksum read)),
    searched_alike fun x read => same x (inside x read)⟩

end

/-- The root directory of the small volume has its only object in its only container. -/
theorem smallVolume_inside :
    FindobjectInside (steadyHost smallSectors) smallVolume () smallVolume.root (chars "a") 0 := by
  refine (findobject_inside_iff (by decide)).mpr fun fuel d link reached more => ?_
  have first : be32 smallVolume.root soFirstdirblock = 1 := by decide
  have ended : Sum.elim Option.isSome (fun _ => false)
      (containerTurn (steadyHost smallSectors) smallVolume (chars "a") 0 200 ((), 1)) = true := by decide +kernel
  rw [first] at reached
  cases turn : containerTurn (steadyHost smallSectors) smallVolume (chars "a") 0 200 ((), 1) with
  | inr s =>
    rw [turn] at ended
    cases ended
  | inl r =>
    rw [turn] at ended
    obtain ⟨r, rfl⟩ := Option.isSome_iff_exists.mp ended
    cases nested_stays containerTurn_steady turn reached
    refine ⟨by decide, by decide, fun _ _ => .found (by decide) (by decide)⟩

/-- A container with one object, in which no string ends before a place. -/
def longContainer (ends i : Nat) : Byte :=
  if i < socObject then (chars "OBJC").getD i 0
  else if i = socObject + soObjectnode + 3 then 1
  else if i < socObject + soName then 0
  else if i < ends then 98
  else 0

/-- The block that a search has read. -/
def searched (sector : Nat → Byte) : Nat → Byte := (readBlock (steadyHost fun _ => sector) smallVolume () 1).2

private theorem searched_inside {sector : Nat → Byte} {i : Nat} (inside : i < 512) : searched sector i = sector i := by
  have below : i < 512 * (smallVolume.blocksize / 512).toNat := inside
  change (if i < 512 * (smallVolume.blocksize / 512).toNat then sector (i % 512) else 0) = sector i
  rw [if_pos below, Nat.mod_eq_of_lt inside]

private theorem searched_objects {sector : Nat → Byte}
    (inside : FindobjectInside (steadyHost fun _ => sector) smallVolume () smallVolume.root (chars "a") 0)
    (accepted : verdict (searched sector) 512 200 = some .accepted) (id : be32 (searched sector) sbhId = socId) :
    ObjectsInside (searched sector) 512 (chars "a") 0 socObject :=
  fun fuel _ x reached read => inside fuel () 1 (.start _) (by decide) x (.object ⟨200, accepted⟩ id reached read)

private theorem long_letters {ends x : Nat} (inside : ends ≤ 512) (above : socObject + soName ≤ x) (below : x < ends) :
    searched (longContainer ends) x ≠ 0 := by
  have node : soObjectnode + 3 < soName := by decide
  rw [searched_inside (below.trans_le inside), longContainer, if_neg (by omega), if_neg (by omega),
    if_neg (by omega), if_pos below]
  decide

/-- Where the objects fill a block there is no room for one with the node number zero, and
where a string does not end in it, its end is searched behind it. -/
theorem long_containers_left :
    ¬FindobjectInside (steadyHost fun _ => longContainer 510) smallVolume () smallVolume.root (chars "a") 0 ∧
      ¬FindobjectInside (steadyHost fun _ => longContainer 512) smallVolume () smallVolume.root (chars "a") 0 := by
  refine ⟨fun inside => ?_, fun inside => ?_⟩
  · have objects := searched_objects inside (by decide +kernel) (by decide)
    have follows : NextObject (searched (longContainer 510)) socObject 512 :=
      ⟨510, 511, ⟨by decide, by decide, fun x => long_letters (by decide)⟩,
        ⟨le_rfl, by decide, fun x above below => by omega⟩, by decide⟩
    have behind := (objects.further (by decide) (by decide) follows).here (.objectnode ⟨le_rfl, by decide⟩)
    exact absurd behind (by decide)
  · have objects := searched_objects inside (by decide +kernel) (by decide)
    obtain ⟨name, comment, ⟨begun, zero, -⟩, ⟨order, -, -⟩, below⟩ := nextobject_inside_iff.mp fun x read =>
      objects.here (.nextobject (by decide) (by decide) read)
    exact long_letters le_rfl begun (by omega) zero

end Parthenope.Sfs
