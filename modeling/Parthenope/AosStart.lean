import Parthenope.BootstrapJump
import Parthenope.NodeList

/-! The list of modules that `testboot_aos` hands to the kernel. All files go through one
buffer, so each module gets a block with a copy of its own; what `malloc` gives are blocks
that share no byte. -/
namespace Parthenope.AosStart
open Bootstrap hiding Word Mem
open ByteMemory Menu NodeList
open CString (Byte)

/-- `struct module` behind its node. -/
structure Module where
  name : Word
  options : Word
  id : BitVec 16
  flags : BitVec 16
  alloc : Word
  dealloc : Word
  address : Word
  size : Word
  deriving DecidableEq

def moduleAt (m : Memory) (p : Word) : Module where
  name := load32 m (p + 8)
  options := load32 m (p + 12)
  id := load16 m (p + 16)
  flags := load16 m (p + 18)
  alloc := load32 m (p + 20)
  dealloc := load32 m (p + 24)
  address := load32 m (p + 28)
  size := load32 m (p + 32)

/-- What `malloc` gives for the list, the modules and their copies, and where the menu has
the names of the files. -/
structure Blocks where
  list : Word
  module : Nat → Word
  address : Nat → Word
  name : Nat → Word

/-- A module's fields, and the copy of its file that is made between two of them. -/
def fillModule (blocks : Blocks) (buffer : Word) (i : Nat) (length : Int) (m : Memory) : Memory :=
  let module := blocks.module i
  let m := store32 m (module + 8) (blocks.name i)
  let m := store32 m (module + 12) 0
  let m := store16 m (module + 16) 2
  let m := store16 m (module + 18) 3
  let m := store32 m (module + 20) 0
  let m := store32 m (module + 24) 0
  let m := store32 m (module + 28) (blocks.address i)
  let m := copy m (blocks.address i) buffer length.toNat
  store32 m (module + 32) (BitVec.ofInt 32 length)

/-- A turn of the loop in `testboot_aos`, once the file is in the buffer. -/
def addModule (blocks : Blocks) (buffer : Word) (i : Nat) (length : Int) (m : Memory) : Memory :=
  listAppend (fillModule blocks buffer i length m) blocks.list (blocks.module i)

/-- The loop over `n` modules from module `i` on; `none` where a file cannot be read. -/
def addModules (o : Outcomes) (b : Buffers) (blocks : Blocks) : Nat → Nat → Memory → Option Memory
  | 0, _, m => some m
  | n + 1, i, m =>
    if o.length (.aosModule i) < 0 then none
    else addModules o b blocks n (i + 1)
      (addModule blocks b.module i (o.length (.aosModule i)) (o.read (.aosModule i) m))

/-- The memory at the jump of `testboot_aos`. -/
def aosMemory (o : Outcomes) (b : Buffers) (blocks : Blocks) (n : Nat) (m : Memory) : Option Memory :=
  addModules o b blocks n 0 (listNew m blocks.list).1

/-- A block that `malloc` has given. -/
inductive Part
  | list
  | module (i : Nat)
  | address (i : Nat)
  deriving DecidableEq

/-- The blocks that there are before module `n`. -/
def Part.Before (n : Nat) : Part → Prop
  | .list => True
  | .module i => i < n
  | .address i => i < n

def Blocks.Inside (blocks : Blocks) (o : Outcomes) (x : Word) : Part → Prop
  | .list => Within blocks.list 12 x
  | .module i => Within (blocks.module i) 36 x
  | .address i => Within (blocks.address i) (o.length (.aosModule i)).toNat x

/-- What is expected of `malloc` and of `load_file`: blocks of their own, also apart from the
buffer, and files that get into the buffer and change no block that there is. -/
structure Serves (o : Outcomes) (b : Buffers) (blocks : Blocks) (n : Nat) (file : Nat → Nat → BitVec 8) : Prop where
  apart : ∀ p q x, p.Before n → q.Before n → blocks.Inside o x p → blocks.Inside o x q → p = q
  buffer : ∀ i < n, ∀ k < (o.length (.aosModule i)).toNat, ∀ p : Part, p.Before n →
    ¬blocks.Inside o (b.module + BitVec.ofNat 32 k) p
  reads : ∀ i < n, 0 ≤ o.length (.aosModule i) ∧ ∀ m, ∀ k < (o.length (.aosModule i)).toNat,
    o.read (.aosModule i) m (b.module + BitVec.ofNat 32 k) = file i k
  keeps : ∀ i < n, ∀ m x, ∀ p : Part, p.Before i → blocks.Inside o x p → o.read (.aosModule i) m x = m x

/-- The list with the first `n` modules, and each of them with its file. -/
structure Built (o : Outcomes) (blocks : Blocks) (file : Nat → Nat → BitVec 8) (n : Nat) (m : Memory) : Prop where
  held : Held m blocks.list ((List.range n).map blocks.module)
  fields : ∀ i < n, moduleAt m (blocks.module i) =
    ⟨blocks.name i, 0, 2, 3, 0, 0, blocks.address i, BitVec.ofInt 32 (o.length (.aosModule i))⟩
  contents : ∀ i < n, ∀ k < (o.length (.aosModule i)).toNat, m (blocks.address i + BitVec.ofNat 32 k) = file i k

section
variable {m m' : Memory} {a b p x v : Word} {n : Nat}

/-- Two fields of one object. -/
theorem separate_fields {i j : Word} {n k : Nat} (far : n ≤ (j - i).toNat) (far' : k ≤ (i - j).toNat) :
    Separate (p + i) n (p + j) k := by
  constructor
  · rw [Within, add_sub_add_left_eq_sub]
    exact Nat.not_lt.mpr far
  · rw [Within, add_sub_add_left_eq_sub]
    exact Nat.not_lt.mpr far'

private theorem load32_word {i j : Word} (far : 4 ≤ (j - i).toNat) (far' : 4 ≤ (i - j).toNat) (v : Word) :
    load32 (store32 m (p + i) v) (p + j) = load32 m (p + j) :=
  load32_apart (by decide) v (separate_fields far' far)

private theorem load32_half {i j : Word} (far : 2 ≤ (j - i).toNat) (far' : 4 ≤ (i - j).toNat) (v : BitVec 16) :
    load32 (store16 m (p + i) v) (p + j) = load32 m (p + j) :=
  load32_congr (by decide) fun _ inside => store16_apart v ((separate_fields far' far).outside inside)

private theorem load16_word {i j : Word} (far : 4 ≤ (j - i).toNat) (far' : 2 ≤ (i - j).toNat) (v : Word) :
    load16 (store32 m (p + i) v) (p + j) = load16 m (p + j) :=
  load16_congr (by decide) fun _ inside => store32_apart v ((separate_fields far' far).outside inside)

private theorem load16_half {i j : Word} (far : 2 ≤ (j - i).toNat) (far' : 2 ≤ (i - j).toNat) (v : BitVec 16) :
    load16 (store16 m (p + i) v) (p + j) = load16 m (p + j) :=
  load16_congr (by decide) fun _ inside => store16_apart v ((separate_fields far' far).outside inside)

/-- A module depends on its own bytes behind the node only. -/
theorem moduleAt_congr (same : SameAt m m' (p + 8) 28) : moduleAt m p = moduleAt m' p := by
  have word {k : Nat} (fits : k + 4 ≤ 28) : load32 m (p + 8 + BitVec.ofNat 32 k) =
      load32 m' (p + 8 + BitVec.ofNat 32 k) :=
    load32_congr (by decide) (same.part fits)
  have half {k : Nat} (fits : k + 2 ≤ 28) : load16 m (p + 8 + BitVec.ofNat 32 k) =
      load16 m' (p + 8 + BitVec.ofNat 32 k) :=
    load16_congr (by decide) (same.part fits)
  simp only [BitVec.add_assoc] at word half
  rw [moduleAt, moduleAt, Module.mk.injEq]
  exact ⟨word (k := 0) (by decide), word (k := 4) (by decide), half (k := 8) (by decide), half (k := 10) (by decide),
    word (k := 12) (by decide), word (k := 16) (by decide), word (k := 20) (by decide), word (k := 24) (by decide)⟩

/-- The fields of a module as they are stored, where the copy is made elsewhere. -/
theorem fillModule_fields {blocks : Blocks} {buffer : Word} {i : Nat} {length : Int}
    (elsewhere : ∀ x, Within (blocks.module i) 36 x → ¬Within (blocks.address i) length.toNat x) :
    moduleAt (fillModule blocks buffer i length m) (blocks.module i) =
      ⟨blocks.name i, 0, 2, 3, 0, 0, blocks.address i, BitVec.ofInt 32 length⟩ := by
  have uncopied (m : Memory) (v : Word) :
      moduleAt (store32 (copy m (blocks.address i) buffer length.toNat) (blocks.module i + 32) v) (blocks.module i) =
        moduleAt (store32 m (blocks.module i + 32) v) (blocks.module i) := by
    refine moduleAt_congr fun x inside => ?_
    have outside := elsewhere x (@within_part _ (blocks.module i) x 8 28 inside)
    rw [store32, store32, copy, if_neg outside]
  rw [fillModule, uncopied, moduleAt, Module.mk.injEq]
  refine ⟨?_, ?_, ?_, ?_, ?_, ?_, ?_, ?_⟩
  · simp (disch := decide) only [load32_word, load32_half]
    exact load32_store32 (by decide) _
  · simp (disch := decide) only [load32_word, load32_half]
    exact load32_store32 (by decide) _
  · simp (disch := decide) only [load16_word, load16_half]
    exact load16_store16 (by decide) _
  · simp (disch := decide) only [load16_word]
    exact load16_store16 (by decide) _
  · simp (disch := decide) only [load32_word]
    exact load32_store32 (by decide) _
  · simp (disch := decide) only [load32_word]
    exact load32_store32 (by decide) _
  · simp (disch := decide) only [load32_word]
    exact load32_store32 (by decide) _
  · exact load32_store32 (by decide) _

/-- A field is a part of its object. -/
theorem field_apart {n : Nat} (outside : ¬Within p n x) (j : Word) (k : Nat) (fits : j.toNat + k ≤ n) :
    ¬Within (p + j) k x := by
  have offset : BitVec.ofNat 32 j.toNat = j := by simp
  intro inside
  rw [← offset] at inside
  exact outside ((within_part inside).trans_le fits)

private theorem fillModule_other {blocks : Blocks} {buffer : Word} {i : Nat} {length : Int}
    (module : ¬Within (blocks.module i) 36 x) (address : ¬Within (blocks.address i) length.toNat x) :
    fillModule blocks buffer i length m x = m x := by
  have field := @field_apart (blocks.module i) x 36 module
  rw [fillModule, store32_apart _ (field 32 4 (by decide)), copy, if_neg address,
    store32_apart _ (field 28 4 (by decide)), store32_apart _ (field 24 4 (by decide)),
    store32_apart _ (field 20 4 (by decide)), store16_apart _ (field 18 2 (by decide)),
    store16_apart _ (field 16 2 (by decide)), store32_apart _ (field 12 4 (by decide)),
    store32_apart _ (field 8 4 (by decide))]

/-- The copy takes what is in the buffer. -/
theorem fillModule_copies {blocks : Blocks} {buffer : Word} {i k : Nat} {length : Int} (inside : k < length.toNat)
    (small : length.toNat ≤ 2 ^ 32)
    (elsewhere : ∀ x, Within (blocks.module i) 36 x → ¬Within (blocks.address i) length.toNat x)
    (buffered : ¬Within (blocks.module i) 36 (buffer + BitVec.ofNat 32 k)) :
    fillModule blocks buffer i length m (blocks.address i + BitVec.ofNat 32 k) = m (buffer + BitVec.ofNat 32 k) := by
  have field := @field_apart (blocks.module i) _ 36 buffered
  have distance : blocks.address i + BitVec.ofNat 32 k - blocks.address i = BitVec.ofNat 32 k := add_sub_cancel_left ..
  have here : Within (blocks.address i) length.toNat (blocks.address i + BitVec.ofNat 32 k) := by
    rw [Within, distance, BitVec.toNat_ofNat, Nat.mod_eq_of_lt (inside.trans_le small)]
    exact inside
  rw [fillModule, store32_apart _ (field_apart (fun both => elsewhere _ both here) 32 4 (by decide)), copy, if_pos here,
    distance, store32_apart _ (field 28 4 (by decide)), store32_apart _ (field 24 4 (by decide)),
    store32_apart _ (field 20 4 (by decide)), store16_apart _ (field 18 2 (by decide)),
    store16_apart _ (field 16 2 (by decide)), store32_apart _ (field 12 4 (by decide)),
    store32_apart _ (field 8 4 (by decide))]

/-- Appending a node changes the list's header and the nodes. -/
theorem listAppend_other {l node : Word} {nodes : List Word} (held : Held m l nodes)
    (objects : Objects l (node :: nodes))
    (header : ¬Within l 12 x) (others : ∀ y ∈ node :: nodes, ¬Within y 8 x) : listAppend m l node x = m x := by
  have owned : Owned l nodes (l + 8) := .inl ⟨8, by decide, by decide, rfl⟩
  have kept (v w : Word) : lTailpred (store32 (store32 m node v) (node + 4) w) l = lTailpred m l := by
    rw [lTailpred, objects.load_store (.new_next ..) owned.more, if_neg (objects.fresh owned).2,
      objects.load_store (.new ..) owned.more, if_neg (objects.fresh owned).1, lTailpred]
  have new := others node List.mem_cons_self
  obtain ⟨front, place⟩ := held.last
  have last : lTailpred m l = l ∨ lTailpred m l ∈ nodes := by
    have both : l :: nodes ++ [l + 4] = front ++ [lTailpred m l] ++ [l + 4] := by
      rw [List.append_assoc]
      exact place
    have ends : lTailpred m l ∈ l :: nodes := by
      rw [List.append_cancel_right both]
      exact List.mem_append_right _ (List.mem_singleton_self _)
    exact List.mem_cons.mp ends
  have tail : ¬Within (lTailpred m l) 4 x := by
    rcases last with same | inside
    · rw [same]
      exact fun within => header (within.trans (by decide))
    · exact fun within => others _ (List.mem_cons_of_mem _ inside) (within.trans (by decide))
  rw [listAppend_addTail objects, addTail, kept, store32_apart _ (field_apart header 8 4 (by decide)),
    store32_apart _ tail, store32_apart _ (field_apart new 4 4 (by decide)),
    store32_apart _ fun within => new (within.trans (by decide))]

/-- A list stays while its header and its nodes stay. -/
theorem held_congr {l : Word} {nodes : List Word} (held : Held m l nodes) (header : SameAt m' m l 12)
    (others : ∀ y ∈ nodes, SameAt m' m y 8) : Held m' l nodes := by
  have words {c : Word} (owned : Owned l nodes c) : load32 m' c = load32 m c := by
    rcases owned with ⟨i, below, whole, rfl⟩ | ⟨y, inside, i, below, whole, rfl⟩
    · exact load32_congr (by decide) (header.part (by omega))
    · exact load32_congr (by decide) ((others y inside).part (by omega))
  refine ⟨held.objects, held.linked.congr (fun y inside => ?_) fun y inside => ?_, ?_⟩
  · exact words (Owned.succ (List.mem_of_mem_dropLast inside))
  · exact words (Owned.pred (List.mem_of_mem_tail inside))
  · rw [lTail, words (.inl (wordOf_next l (by decide)))]
    exact held.tail

variable {o : Outcomes} {buffers : Buffers} {blocks : Blocks} {file : Nat → Nat → BitVec 8} {i : Nat}

/-- The start of a block is in it. -/
theorem within_start {k : Nat} (some : 0 < k) : Within p k p := by
  rw [Within, BitVec.sub_self]
  exact some

/-- A block that fits into the memory beside another is no longer than the memory. -/
theorem Serves.small (serves : Serves o buffers blocks n file) (inside : i < n) :
    (o.length (.aosModule i)).toNat ≤ 2 ^ 32 := by
  refine Nat.le_of_not_lt fun long => ?_
  have everywhere : blocks.Inside o blocks.list (.address i) := (BitVec.isLt _).trans long
  exact Part.noConfusion (serves.apart .list (.address i) _ trivial inside (within_start (by decide)) everywhere)

theorem Part.Before.mono {k : Nat} {part : Part} (before : part.Before n) (most : n ≤ k) : part.Before k := by
  cases part with
  | list => exact trivial
  | module i => exact lt_of_lt_of_le before most
  | address i => exact lt_of_lt_of_le before most

/-- Nothing of what there is before module `i` is stored to on its turn. -/
theorem Serves.others (serves : Serves o buffers blocks n file) (inside : i < n) {part : Part} (before : part.Before i)
    (within : blocks.Inside o x part) :
    ¬Within (blocks.module i) 36 x ∧ ¬Within (blocks.address i) (o.length (.aosModule i)).toNat x := by
  have there := before.mono inside.le
  constructor
  · intro both
    rw [serves.apart part (.module i) x there inside within both] at before
    exact Nat.lt_irrefl i before
  · intro both
    rw [serves.apart part (.address i) x there inside within both] at before
    exact Nat.lt_irrefl i before

theorem Serves.elsewhere (serves : Serves o buffers blocks n file) (inside : i < n) (x : Word)
    (within : Within (blocks.module i) 36 x) : ¬Within (blocks.address i) (o.length (.aosModule i)).toNat x :=
  fun both => Part.noConfusion (serves.apart (.module i) (.address i) x inside inside within both)

/-- The nodes are in the modules. -/
theorem Serves.objects (serves : Serves o buffers blocks n file) (inside : i < n) :
    Objects blocks.list (blocks.module i :: (List.range i).map blocks.module) := by
  have header (j : Nat) (most : j < n) : Separate blocks.list 12 (blocks.module j) 8 := by
    constructor
    · intro within
      exact Part.noConfusion (serves.apart .list (.module j) _ trivial most within (within_start (by decide)))
    · intro within
      exact Part.noConfusion (serves.apart .list (.module j) _ trivial most (within_start (by decide))
        (within.trans (by decide)))
  have nodes (j k : Nat) (most : j < n) (most' : k < n) (other : j ≠ k) :
      Separate (blocks.module j) 8 (blocks.module k) 8 := by
    constructor
    · intro within
      exact other (Part.module.inj (serves.apart (.module j) (.module k) _ most most' (within.trans (by decide))
        (within_start (by decide))))
    · intro within
      exact other (Part.module.inj (serves.apart (.module j) (.module k) _ most most' (within_start (by decide))
        (within.trans (by decide))))
  refine ⟨fun y there => ?_, List.pairwise_cons.mpr ⟨fun y there => ?_, List.pairwise_map.mpr ?_⟩⟩
  · rcases List.mem_cons.mp there with rfl | there
    · exact header i inside
    · obtain ⟨j, before, rfl⟩ := List.mem_map.mp there
      exact header j ((List.mem_range.mp before).trans inside)
  · obtain ⟨j, before, rfl⟩ := List.mem_map.mp there
    have before := List.mem_range.mp before
    exact nodes i j inside (before.trans inside) before.ne'
  · refine List.pairwise_lt_range.imp_of_mem fun {j k} _ there less => ?_
    have before := (List.mem_range.mp there).trans inside
    exact nodes j k (less.trans before) before less.ne

/-- What changes no block leaves what is built. -/
theorem Built.congr (built : Built o blocks file i m)
    (same : ∀ (part : Part) x, part.Before i → blocks.Inside o x part → m' x = m x) : Built o blocks file i m' := by
  refine ⟨held_congr built.held (fun x within => same .list x trivial within) fun y inside => ?_, ?_, ?_⟩
  · obtain ⟨j, before, rfl⟩ := List.mem_map.mp inside
    exact fun x within => same (.module j) x (List.mem_range.mp before) (within.trans (by decide))
  · intro j before
    rw [← built.fields j before]
    exact moduleAt_congr fun x within => same (.module j) x before (@within_part _ (blocks.module j) x 8 28 within)
  · intro j before k below
    rw [← built.contents j before k below]
    refine same (.address j) _ before ?_
    rw [Blocks.Inside, Within, add_sub_cancel_left, BitVec.toNat_ofNat]
    exact (Nat.mod_le ..).trans_lt below

/-- A turn of the loop adds its module. -/
theorem Built.addModule (serves : Serves o buffers blocks n file) (inside : i < n) (built : Built o blocks file i m) :
    Built o blocks file (i + 1)
      (addModule blocks buffers.module i (o.length (.aosModule i)) (o.read (.aosModule i) m)) := by
  have objects := serves.objects inside
  generalize filled : fillModule blocks buffers.module i (o.length (.aosModule i)) (o.read (.aosModule i) m) = m'
  have kept : Built o blocks file i m' := by
    refine built.congr fun part x before within => ?_
    obtain ⟨module, address⟩ := serves.others inside before within
    rw [← filled, fillModule_other module address]
    exact serves.keeps i inside m x part before within
  have fields : moduleAt m' (blocks.module i) =
      ⟨blocks.name i, 0, 2, 3, 0, 0, blocks.address i, BitVec.ofInt 32 (o.length (.aosModule i))⟩ := by
    rw [← filled]
    exact fillModule_fields (serves.elsewhere inside)
  have contents (k : Nat) (below : k < (o.length (.aosModule i)).toNat) :
      m' (blocks.address i + BitVec.ofNat 32 k) = file i k := by
    rw [← filled, fillModule_copies below (serves.small inside) (serves.elsewhere inside)
      (serves.buffer i inside k below (.module i) inside)]
    exact (serves.reads i inside).2 m k below
  -- only the header and the nodes are stored to
  have appended (part : Part) (x : Word) (before : part.Before (i + 1)) (within : blocks.Inside o x part)
      (header : part ≠ .list) (node : ∀ j, part = .module j → ¬Within (blocks.module j) 8 x) :
      listAppend m' blocks.list (blocks.module i) x = m' x := by
    have there := before.mono inside
    refine listAppend_other kept.held objects (fun both => ?_) fun y inside' both => ?_
    · exact header (serves.apart part .list x there trivial within both)
    · obtain ⟨j, most, rfl⟩ : ∃ j < n, blocks.module j = y := by
        rcases List.mem_cons.mp inside' with rfl | inside'
        · exact ⟨i, inside, rfl⟩
        · obtain ⟨j, before, rfl⟩ := List.mem_map.mp inside'
          exact ⟨j, (List.mem_range.mp before).trans inside, rfl⟩
      exact node j (serves.apart part (.module j) x there most within (both.trans (by decide))) both
  rw [AosStart.addModule, filled]
  refine ⟨?_, fun j before => ?_, fun j before k below => ?_⟩
  · rw [listAppend_addTail objects, List.range_succ, List.map_append]
    exact kept.held.addTail objects
  · have same : moduleAt (listAppend m' blocks.list (blocks.module i)) (blocks.module j) =
      moduleAt m' (blocks.module j) := by
      refine moduleAt_congr fun x within => ?_
      refine appended (.module j) x before (@within_part _ (blocks.module j) x 8 28 within)
        (by simp) fun k same both => ?_
      rw [← Part.module.inj same, Within] at both
      rw [Within] at within
      bv_omega
    rw [same]
    rcases Nat.lt_succ_iff_lt_or_eq.mp before with before | rfl
    · exact kept.fields j before
    · exact fields
  · have within : blocks.Inside o (blocks.address j + BitVec.ofNat 32 k) (.address j) := by
      rw [Blocks.Inside, Within, add_sub_cancel_left, BitVec.toNat_ofNat]
      exact (Nat.mod_le ..).trans_lt below
    rw [appended (.address j) _ before within (by simp) (by simp)]
    rcases Nat.lt_succ_iff_lt_or_eq.mp before with before | rfl
    · exact kept.contents j before k below
    · exact contents k below

/-- The loop adds all the modules that are left. -/
theorem Built.addModules (serves : Serves o buffers blocks n file) (k : Nat) (most : i + k ≤ n)
    (built : Built o blocks file i m) :
    ∃ m', addModules o buffers blocks k i m = some m' ∧ Built o blocks file (i + k) m' := by
  induction k generalizing i m with
  | zero => exact ⟨m, rfl, built⟩
  | succ k ih =>
    have inside : i < n := by omega
    obtain ⟨m', ran, rest⟩ := ih (by omega) (built.addModule serves inside)
    rw [Nat.add_right_comm, Nat.add_assoc] at rest
    refine ⟨m', ?_, rest⟩
    rw [AosStart.addModules, if_neg (Int.not_lt.mpr (serves.reads i inside).1), ran]

/-- A list without modules. -/
theorem built_zero (o : Outcomes) (blocks : Blocks) (file : Nat → Nat → BitVec 8) (m : Memory) :
    Built o blocks file 0 (listNew m blocks.list).1 :=
  ⟨listNew_held m blocks.list, fun _ below => absurd below (Nat.not_lt_zero _),
    fun _ below => absurd below (Nat.not_lt_zero _)⟩

/-- With every file there, the jump has them all with their lengths, in the menu's order. -/
theorem aosModules_handed {modules : List EntryObject} {start : Machine} (list : List (List Byte × Int))
    (present : ∀ j < modules.length, 0 ≤ o.length (.aosModule (i + j))) :
    (aosModules o buffers i modules list start).1 =
      some (list ++ (modules.zipIdx i).map fun at' => (at'.1.name, o.length (.aosModule at'.2))) := by
  induction modules generalizing i list start with
  | nil => simp [aosModules]
  | cons module rest ih =>
    have read : ¬o.length (.aosModule i) < 0 := Int.not_lt.mpr (present 0 (Nat.zero_lt_succ _))
    have later (j : Nat) (below : j < rest.length) : 0 ≤ o.length (.aosModule (i + 1 + j)) := by
      rw [Nat.add_right_comm, Nat.add_assoc]
      exact present (j + 1) (Nat.succ_lt_succ below)
    rw [aosModules]
    simp only [Machine.loadFile, read, if_false]
    rw [ih _ later, List.append_assoc]
    rfl

end

/-- What `testboot_aos` jumps with, if it has room for the title: the kernel finds the modules in
the menu's order from either end of the list, each with its name, its length and a copy of its file. -/
theorem aos_list_handed {o : Outcomes} {b : Buffers} {blocks : Blocks} {file : Nat → Nat → BitVec 8} {entry : Entry}
    (short : ShortTitle entry) (serves : Serves o b blocks entry.modules.length file) (machine : Machine) :
    (∃ after, testbootAos o b entry machine = (if o.kernelReturns then .back after else .gone after) ∧
      after.trace.getLast? = some (.rawJump b.kernel
        (entry.modules.zipIdx.map fun at' => (at'.1.name, o.length (.aosModule at'.2))))) ∧
      ∃ m, aosMemory o b blocks entry.modules.length machine.mem = some m ∧
        WellFormed m blocks.list ((List.range entry.modules.length).map blocks.module) ∧
        ∀ i < entry.modules.length,
          moduleAt m (blocks.module i) =
            ⟨blocks.name i, 0, 2, 3, 0, 0, blocks.address i, BitVec.ofInt 32 (o.length (.aosModule i))⟩ ∧
          ∀ k < (o.length (.aosModule i)).toNat, m (blocks.address i + BitVec.ofNat 32 k) = file i k := by
  constructor
  · have handed := @aosModules_handed o b 0 entry.modules machine [] fun j below => by
      rw [Nat.zero_add]
      exact (serves.reads j below).1
    rw [List.nil_append] at handed
    rw [aos_writes short, handed]
    exact ⟨_, rfl, List.getLast?_concat⟩
  · obtain ⟨m, ran, built⟩ := (built_zero o blocks file machine.mem).addModules serves entry.modules.length (by omega)
    rw [Nat.zero_add] at built
    exact ⟨m, ran, built.held.wellFormed, fun i below => ⟨built.fields i below, built.contents i below⟩⟩

/-- Two modules of three bytes each. -/
def pairEntry : Entry :=
  { entryAlloc with title := some [0x50], modules := [⟨[0x6d], none, none⟩, ⟨[0x6e], none, none⟩] }

private theorem pair_short : ShortTitle pairEntry := ⟨[0x50], rfl, by decide⟩

def pairBuffers : Buffers := ⟨0x10000, 0x20000, 0x30000, 0x40000, 0x50000⟩

def pairFile (i k : Nat) : BitVec 8 := BitVec.ofNat 8 (10 * i + k)

def pairOutcomes : Outcomes where
  bootingDevice := true
  ide _ _ := true
  tftp := false
  cdrom := false
  length _ := 3
  read site m := match site with
    | .aosModule i => fun x =>
      if Within pairBuffers.module 3 x then pairFile i (x - pairBuffers.module).toNat else m x
    | _ => m
  bootm _ := none
  kernelReturns := false

def pairBlocks : Blocks where
  list := 64
  module i := BitVec.ofNat 32 (128 + 64 * i)
  address i := BitVec.ofNat 32 (256 + 64 * i)
  name i := BitVec.ofNat 32 (512 + 64 * i)

/-- Which 64 bytes a block is in. -/
def Part.slot : Part → Nat
  | .list => 1
  | .module i => 2 + i
  | .address i => 4 + i

private theorem pair_slot {p : Part} {x : Word} (before : p.Before 2) (inside : pairBlocks.Inside pairOutcomes x p) :
    x.toNat / 64 = p.slot := by
  cases p with
  | list =>
    change (x - 64).toNat < 12 at inside
    rw [Part.slot]
    bv_omega
  | module i =>
    change i < 2 at before
    change (x - BitVec.ofNat 32 (128 + 64 * i)).toNat < 36 at inside
    rw [Part.slot]
    bv_omega
  | address i =>
    change i < 2 at before
    change (x - BitVec.ofNat 32 (256 + 64 * i)).toNat < 3 at inside
    rw [Part.slot]
    bv_omega

theorem pair_serves : Serves pairOutcomes pairBuffers pairBlocks 2 pairFile where
  apart p q x before before' inside inside' := by
    have same : p.slot = q.slot := (pair_slot before inside).symm.trans (pair_slot before' inside')
    cases p <;> cases q <;> simp only [Part.slot, Part.Before] at same before before' <;> grind
  buffer i _ k below p before inside := by
    have slot := pair_slot before inside
    change k < 3 at below
    change (0x30000 + BitVec.ofNat 32 k).toNat / 64 = p.slot at slot
    have low : p.slot < 6 := by cases p <;> simp only [Part.slot, Part.Before] at before ⊢ <;> omega
    bv_omega
  reads i _ := by
    refine ⟨Int.natCast_nonneg 3, fun m k below => ?_⟩
    change k < 3 at below
    have within : Within pairBuffers.module 3 (pairBuffers.module + BitVec.ofNat 32 k) := by
      rw [Within]
      bv_omega
    change (if _ then _ else _) = _
    rw [if_pos within, add_sub_cancel_left, BitVec.toNat_ofNat, Nat.mod_eq_of_lt (by omega)]
  keeps i most m x p before inside := by
    have slot := pair_slot (before.mono most.le) inside
    have low : p.slot < 6 := by cases p <;> simp only [Part.slot, Part.Before] at before ⊢ <;> omega
    refine if_neg fun within => ?_
    change (x - 0x30000).toNat < 3 at within
    bv_omega

def pairStart : Machine := ⟨.initial fun _ => 0, []⟩

theorem pair_handed :
    (∃ after, testbootAos pairOutcomes pairBuffers pairEntry pairStart = .gone after ∧
      after.trace.getLast? = some (.rawJump 0x10000 [([0x6d], 3), ([0x6e], 3)])) ∧
      ∃ m, aosMemory pairOutcomes pairBuffers pairBlocks 2 pairStart.mem = some m ∧ WellFormed m 64 [128, 192] ∧
        ∀ i < 2, moduleAt m (pairBlocks.module i) = ⟨pairBlocks.name i, 0, 2, 3, 0, 0, pairBlocks.address i, 3⟩ ∧
          ∀ k < 3, m (pairBlocks.address i + BitVec.ofNat 32 k) = pairFile i k :=
  @aos_list_handed pairOutcomes pairBuffers pairBlocks pairFile pairEntry pair_short pair_serves pairStart

end Parthenope.AosStart
