import Parthenope.ByteMemory
import Parthenope.DoublyLinked

/-! The lists of `support.h` and `support.c`. A list header is two nodes that overlap:
the pointer to the first node, a null pointer and the pointer to the last. The null
pointer is where both nodes end, so an empty list has its pointers into itself. -/
namespace Parthenope.NodeList
open ByteMemory DoublyLinked

abbrev Word := BitVec 32
abbrev Memory := ByteMemory.Memory 32

/-- `struct node`. -/
def nSucc (m : Memory) (n : Word) : Word := load32 m n
def nPred (m : Memory) (n : Word) : Word := load32 m (n + 4)

/-- `struct list`. -/
def lHead (m : Memory) (l : Word) : Word := load32 m l
def lTail (m : Memory) (l : Word) : Word := load32 m (l + 4)
def lTailpred (m : Memory) (l : Word) : Word := load32 m (l + 8)

def newList (m : Memory) (l : Word) : Memory :=
  let m := store32 m (l + 8) l
  let m := store32 m (l + 4) 0
  store32 m l (l + 4)

def addHead (m : Memory) (l n : Word) : Memory :=
  let m := store32 m n (lHead m l)
  let m := store32 m (n + 4) l
  let m := store32 m (lHead m l + 4) n
  store32 m l n

def addTail (m : Memory) (l n : Word) : Memory :=
  let m := store32 m n (l + 4)
  let m := store32 m (n + 4) (lTailpred m l)
  let m := store32 m (lTailpred m l) n
  store32 m (l + 8) n

def remove (m : Memory) (n : Word) : Memory × Word :=
  let m := store32 m (nPred m n) (nSucc m n)
  let m := store32 m (nSucc m n + 4) (nPred m n)
  (m, n)

/-- `list_new`, with what `malloc` returns. -/
def listNew (m : Memory) (self : Word) : Memory × Word :=
  let m := store32 m self (self + 4)
  let m := store32 m (self + 4) 0
  let m := store32 m (self + 8) self
  (m, self)

def listAppend (m : Memory) (self node : Word) : Memory :=
  let m := store32 m node (self + 4)
  let m := store32 m (node + 4) (lTailpred m self)
  let m := store32 m (nPred m node) node
  store32 m (self + 8) node

/-- The operations on a list. -/
inductive Op
  | addHead (n : Word)
  | addTail (n : Word)
  | listAppend (n : Word)
  | remove (n : Word)

def Op.run (l : Word) (m : Memory) : Op → Memory
  | .addHead n => NodeList.addHead m l n
  | .addTail n => NodeList.addTail m l n
  | .listAppend n => NodeList.listAppend m l n
  | .remove n => (NodeList.remove m n).1

/-- The nodes an operation is to leave. -/
def Op.nodes (nodes : List Word) : Op → List Word
  | .addHead n => n :: nodes
  | .addTail n => nodes ++ [n]
  | .listAppend n => nodes ++ [n]
  | .remove n => nodes.erase n

/-- The header and the nodes are objects of their own. -/
structure Objects (l : Word) (nodes : List Word) : Prop where
  header : ∀ x ∈ nodes, Separate l 12 x 8
  nodes : nodes.Pairwise fun x y => Separate x 8 y 8

/-- A node that is added is another object, and a node that is removed is in the list. -/
def Op.Valid (l : Word) (nodes : List Word) : Op → Prop
  | .addHead n => Objects l (n :: nodes)
  | .addTail n => Objects l (n :: nodes)
  | .listAppend n => Objects l (n :: nodes)
  | .remove n => n ∈ nodes

/-- Each of the operations is valid where its turn comes. -/
def ValidAll (l : Word) : List Word → List Op → Prop
  | _, [] => True
  | nodes, op :: ops => op.Valid l nodes ∧ ValidAll l (op.nodes nodes) ops

/-- Both ways through a list give its nodes, from sentinel to sentinel. -/
structure WellFormed (m : Memory) (l : Word) (nodes : List Word) : Prop where
  forward : Leads (nSucc m) (l + 4) (lHead m l) nodes
  backward : Leads (nPred m) l (lTailpred m l) nodes.reverse
  sentinels : l ∉ nodes ∧ l + 4 ∉ nodes
  tail : lTail m l = 0

/-- A word of an object. -/
def WordOf (x : Word) (size : Nat) (c : Word) : Prop := ∃ i < size, 4 ∣ i ∧ c = x + BitVec.ofNat 32 i

/-- A word of a header or of one of its nodes. -/
def Owned (l : Word) (nodes : List Word) (c : Word) : Prop := WordOf l 12 c ∨ ∃ x ∈ nodes, WordOf x 8 c

/-- The sentinels and the nodes between them. -/
def cells (l : Word) (nodes : List Word) : List Word := l :: nodes ++ [l + 4]

/-- A list and its nodes in memory. -/
structure Held (m : Memory) (l : Word) (nodes : List Word) : Prop where
  objects : Objects l nodes
  linked : Linked (nSucc m) (nPred m) (cells l nodes)
  tail : lTail m l = 0

section
variable {m m' : Memory} {l n a b c c' x y : Word} {nodes others front back : List Word}

private theorem wordOf_start (x : Word) {size : Nat} (some : 0 < size) : WordOf x size x :=
  ⟨0, some, Nat.dvd_zero 4, (BitVec.add_zero x).symm⟩

theorem wordOf_next (x : Word) {size : Nat} (some : 4 < size) : WordOf x size (x + 4) :=
  ⟨4, some, Nat.dvd_refl 4, rfl⟩

/-- The word behind the second sentinel. -/
theorem wordOf_last (l : Word) : WordOf l 12 (l + 4 + 4) := ⟨8, by decide, by decide, BitVec.add_assoc l 4 4⟩

theorem WordOf.ne {size size' : Nat} (small : size ≤ 12) (small' : size' ≤ 12) (apart : Separate x size y size')
    (left : WordOf x size c) (right : WordOf y size' c') : c ≠ c' := by
  obtain ⟨i, below, -, rfl⟩ := left
  obtain ⟨j, below', -, rfl⟩ := right
  refine apart.ne ?_ ?_
  · rw [Within]
    bv_omega
  · rw [Within]
    bv_omega

theorem WordOf.same {size : Nat} (small : size ≤ 12) (left : WordOf x size c) (right : WordOf x size c') :
    c = c' ∨ Separate c 4 c' 4 := by
  obtain ⟨i, below, whole, rfl⟩ := left
  obtain ⟨j, below', whole', rfl⟩ := right
  rcases eq_or_ne i j with rfl | other
  · exact .inl rfl
  · right
    have far : i + 4 ≤ j ∨ j + 4 ≤ i := by omega
    constructor <;> rw [Within] <;> bv_omega

theorem WordOf.apart {size size' : Nat} (whole : 4 ∣ size) (whole' : 4 ∣ size') (apart : Separate x size y size')
    (left : WordOf x size c) (right : WordOf y size' c') : Separate c 4 c' 4 := by
  obtain ⟨i, below, part, rfl⟩ := left
  obtain ⟨j, below', part', rfl⟩ := right
  exact apart.part (by omega) (by omega) (by decide) (by decide)

theorem Objects.apart (objects : Objects l nodes) (left : x ∈ nodes) (right : y ∈ nodes) (other : x ≠ y) :
    Separate x 8 y 8 := by
  have symm : Std.Symm fun x y : Word => Separate x 8 y 8 := ⟨fun _ _ apart => apart.symm⟩
  exact objects.nodes.forall left right other

/-- Two words of a list and its nodes are one word, or they do not overlap. -/
theorem Objects.words (objects : Objects l nodes) (left : Owned l nodes c) (right : Owned l nodes c') :
    c = c' ∨ Separate c 4 c' 4 := by
  rcases left with ours | ⟨x, inside, ours⟩ <;> rcases right with others | ⟨y, inside', others⟩
  · exact ours.same (by decide) others
  · exact .inr (ours.apart (by decide) (by decide) (objects.header y inside') others)
  · exact .inr (others.apart (by decide) (by decide) (objects.header x inside) ours).symm
  · rcases eq_or_ne x y with rfl | other
    · exact ours.same (by decide) others
    · exact .inr (ours.apart (by decide) (by decide) (objects.apart inside inside' other) others)

theorem Objects.load_store (objects : Objects l nodes) (left : Owned l nodes c) (right : Owned l nodes c')
    (v : Word) : load32 (store32 m c v) c' = if c' = c then v else load32 m c' := by
  split
  · rename_i same
    rw [same, load32_store32 (by decide)]
  · rename_i other
    rcases objects.words right left with same | apart
    · exact absurd same other
    · exact load32_apart (by decide) v apart

private theorem mem_cells : x ∈ cells l nodes ↔ x = l ∨ x ∈ nodes ∨ x = l + 4 := by
  simp [cells]

/-- Links of two kinds are in one word only where the sentinels overlap. -/
theorem Objects.crossing (objects : Objects l nodes) (left : x ∈ cells l nodes) (right : y ∈ cells l nodes)
    (same : x = y + 4) : x = l + 4 ∧ y = l := by
  have header {x c c' : Word} (inside : x ∈ nodes) (left : WordOf l 12 c) (right : WordOf x 8 c') : c ≠ c' :=
    left.ne (by decide) (by decide) (objects.header x inside) right
  have start (x : Word) : WordOf x 8 x := wordOf_start x (by decide)
  have next (x : Word) : WordOf x 8 (x + 4) := wordOf_next x (by decide)
  rcases mem_cells.mp left with rfl | inside | rfl <;> rcases mem_cells.mp right with rfl | inside' | rfl
  · bv_omega
  · exact absurd same (header inside' (wordOf_start x (by decide)) (next y))
  · bv_omega
  · exact absurd same.symm (header inside (wordOf_next y (by decide)) (start x))
  · rcases eq_or_ne x y with rfl | other
    · bv_omega
    · exact absurd same ((start x).ne (by decide) (by decide) (objects.apart inside inside' other) (next y))
  · exact absurd same.symm (header inside (wordOf_last l) (start x))
  · exact ⟨rfl, rfl⟩
  · exact absurd same (header inside' (wordOf_next l (by decide)) (next y))
  · bv_omega

private theorem Objects.sentinels (objects : Objects l nodes) : l ∉ nodes ∧ l + 4 ∉ nodes := by
  have start (x : Word) : WordOf x 8 x := wordOf_start x (by decide)
  constructor
  · intro inside
    exact (wordOf_start l (by decide)).ne (by decide) (by decide) (objects.header l inside) (start l) rfl
  · intro inside
    exact (wordOf_next l (by decide)).ne (by decide) (by decide) (objects.header _ inside) (start _) rfl

theorem Objects.nodup (objects : Objects l nodes) : (cells l nodes).Nodup := by
  have own : nodes.Nodup := objects.nodes.imp fun {x y} apart =>
    (wordOf_start x (by decide)).ne (by decide) (by decide) apart (wordOf_start y (by decide))
  have differ : l ≠ l + 4 := by bv_omega
  obtain ⟨first, last⟩ := objects.sentinels
  refine List.nodup_append.mpr ⟨List.nodup_cons.mpr ⟨first, own⟩, List.nodup_singleton _, ?_⟩
  rintro x inside y ends rfl
  rw [List.mem_singleton.mp ends] at inside
  rcases List.mem_cons.mp inside with same | inside
  · exact differ same.symm
  · exact last inside

theorem Owned.succ (inside : x ∈ cells l nodes) : Owned l nodes x := by
  rcases mem_cells.mp inside with rfl | inside | rfl
  · exact .inl (wordOf_start x (by decide))
  · exact .inr ⟨x, inside, wordOf_start x (by decide)⟩
  · exact .inl (wordOf_next l (by decide))

theorem Owned.pred (inside : x ∈ cells l nodes) : Owned l nodes (x + 4) := by
  rcases mem_cells.mp inside with rfl | inside | rfl
  · exact .inl (wordOf_next x (by decide))
  · exact .inr ⟨x, inside, wordOf_next x (by decide)⟩
  · exact .inl (wordOf_last l)

/-- The stores have put `n` between `a` and `b`. -/
structure Inserted (l : Word) (nodes : List Word) (m m' : Memory) (a n b : Word) : Prop where
  before : nSucc m' a = n
  after : nPred m' b = n
  succ : nSucc m' n = b
  pred : nPred m' n = a
  others : ∀ c, Owned l nodes c → c ≠ a → c ≠ b + 4 → load32 m' c = load32 m c

/-- The first sentinel is not behind a cell, nor the second before one. -/
theorem Objects.ends (objects : Objects l nodes) (place : cells l nodes = front ++ a :: b :: back) :
    b ≠ l ∧ a ≠ l + 4 := by
  have once := objects.nodup
  constructor
  · rintro rfl
    have later : b ∈ (cells b nodes).tail := by
      rw [place]
      cases front <;> simp
    exact (List.nodup_cons.mp once).1 later
  · rintro rfl
    have earlier : l + 4 ∈ (cells l nodes).dropLast := by
      rw [place, List.dropLast_append_of_ne_nil (List.cons_ne_nil _ _)]
      simp
    rw [cells, List.dropLast_concat] at earlier
    exact (List.nodup_append.mp once).2.2 _ earlier _ List.mem_cons_self rfl

/-- What a change between two neighbours leaves as it was. -/
theorem Objects.kept (objects : Objects l nodes) (place : cells l nodes = front ++ a :: b :: back)
    (others : ∀ c, Owned l nodes c → c ≠ a → c ≠ b + 4 → load32 m' c = load32 m c) :
    (∀ x ∈ front ++ a :: b :: back, x ≠ a → nSucc m' x = nSucc m x) ∧
      (∀ y ∈ front ++ a :: b :: back, y ≠ b → nPred m' y = nPred m y) ∧ lTail m' l = lTail m l := by
  have left : a ∈ cells l nodes := by simp [place]
  have right : b ∈ cells l nodes := by simp [place]
  obtain ⟨notFirst, notLast⟩ := objects.ends place
  rw [← place]
  refine ⟨?_, ?_, ?_⟩
  · intro x inside other
    refine others x (.succ inside) other fun same => ?_
    exact notFirst (objects.crossing inside right same).2
  · intro y inside other
    refine others (y + 4) (.pred inside) (fun same => ?_) fun same => ?_
    · exact notLast (objects.crossing left inside same.symm).1
    · exact other (add_right_cancel same)
  · refine others (l + 4) (.inl (wordOf_next l (by decide))) notLast.symm fun same => ?_
    exact notFirst (add_right_cancel same).symm

theorem Held.insert (held : Held m l nodes) (place : cells l nodes = front ++ a :: b :: back)
    (inserted : Inserted l nodes m m' a n b) :
    Linked (nSucc m') (nPred m') (front ++ a :: n :: b :: back) ∧ lTail m' l = 0 := by
  obtain ⟨after, before, tail⟩ := held.objects.kept place inserted.others
  have once := held.objects.nodup
  have linked := held.linked
  rw [place] at once linked
  refine ⟨Linked.insert once after before linked ?_ ?_, tail.trans held.tail⟩
  · exact ⟨inserted.before, inserted.pred⟩
  · exact ⟨inserted.succ, inserted.after⟩

theorem Owned.more (owned : Owned l nodes c) : Owned l (n :: nodes) c :=
  owned.imp_right fun ⟨x, inside, word⟩ => ⟨x, List.mem_cons_of_mem _ inside, word⟩

theorem Owned.new (l n : Word) (nodes : List Word) : Owned l (n :: nodes) n :=
  .inr ⟨n, List.mem_cons_self, wordOf_start n (by decide)⟩

theorem Owned.new_next (l n : Word) (nodes : List Word) : Owned l (n :: nodes) (n + 4) :=
  .inr ⟨n, List.mem_cons_self, wordOf_next n (by decide)⟩

/-- A node that is added shares no word with the list. -/
theorem Objects.fresh (objects : Objects l (n :: nodes)) (owned : Owned l nodes c) : c ≠ n ∧ c ≠ n + 4 := by
  have apart {x c' : Word} (inside : x ∈ nodes) (left : WordOf x 8 c) (right : WordOf n 8 c') : c ≠ c' :=
    (right.ne (by decide) (by decide) ((List.pairwise_cons.mp objects.nodes).1 x inside) left).symm
  have start : WordOf n 8 n := wordOf_start n (by decide)
  have next : WordOf n 8 (n + 4) := wordOf_next n (by decide)
  rcases owned with word | ⟨x, inside, word⟩
  · have header := objects.header n List.mem_cons_self
    exact ⟨word.ne (by decide) (by decide) header start, word.ne (by decide) (by decide) header next⟩
  · exact ⟨apart inside word start, apart inside word next⟩

/-- The four stores in one. -/
theorem inserted_of_reads (objects : Objects l (n :: nodes)) (left : a ∈ cells l nodes) (right : b ∈ cells l nodes)
    (reads : ∀ c, Owned l (n :: nodes) c → load32 m' c =
      if c = a ∨ c = b + 4 then n else if c = n + 4 then a else if c = n then b else load32 m c) :
    Inserted l nodes m m' a n b := by
  have owned := Owned.succ left
  have owned' := Owned.pred right
  have new := Owned.new l n nodes
  have new' := Owned.new_next l n nodes
  obtain ⟨apart, apart'⟩ := objects.fresh owned
  obtain ⟨after, after'⟩ := objects.fresh owned'
  have two : n ≠ n + 4 := by bv_omega
  constructor
  · rw [nSucc, reads a owned.more, if_pos (.inl rfl)]
  · rw [nPred, reads _ owned'.more, if_pos (.inr rfl)]
  · rw [nSucc, reads n new, if_neg (not_or.mpr ⟨apart.symm, after.symm⟩), if_neg two, if_pos rfl]
  · rw [nPred, reads _ new', if_neg (not_or.mpr ⟨apart'.symm, after'.symm⟩), if_pos rfl]
  · intro c ours other other'
    obtain ⟨old, old'⟩ := objects.fresh ours
    rw [reads c ours.more, if_neg (not_or.mpr ⟨other, other'⟩), if_neg old', if_neg old]

theorem Held.first (held : Held m l nodes) : ∃ back, cells l nodes = [] ++ l :: lHead m l :: back := by
  have linked := held.linked
  obtain ⟨b, back, rest⟩ : ∃ b back, nodes ++ [l + 4] = b :: back :=
    List.exists_cons_of_ne_nil (List.append_ne_nil_of_right_ne_nil _ (List.cons_ne_nil _ _))
  rw [cells, List.cons_append, rest] at linked ⊢
  obtain ⟨⟨forth, -⟩, -⟩ := List.isChain_cons_cons.mp linked
  have head : lHead m l = b := forth
  exact ⟨back, by rw [head, List.nil_append]⟩

private theorem tailpred_pred (m : Memory) (l : Word) : lTailpred m l = nPred m (l + 4) := by
  rw [lTailpred, nPred, BitVec.add_assoc]
  rfl

theorem Held.last (held : Held m l nodes) :
    ∃ front, cells l nodes = front ++ lTailpred m l :: (l + 4) :: [] := by
  have linked := held.linked
  obtain ⟨front, a, rest⟩ : ∃ front a, l :: nodes = front ++ [a] := by
    rcases List.eq_nil_or_concat' (l :: nodes) with none | some
    · cases none
    · exact some
  rw [cells, rest, List.append_assoc, List.singleton_append] at linked ⊢
  obtain ⟨-, ⟨-, back⟩, -⟩ := List.isChain_append_cons_cons.mp linked
  exact ⟨front, by rw [tailpred_pred, back]⟩

/-- A node of the list and what is on both sides of it. -/
theorem Held.around (held : Held m l nodes) (inside : n ∈ nodes) :
    ∃ front back, cells l nodes = front ++ nPred m n :: n :: nSucc m n :: back ∧
      cells l (nodes.erase n) = front ++ nPred m n :: nSucc m n :: back := by
  have linked := held.linked
  have once := held.objects.nodup
  obtain ⟨s, t, rfl⟩ := List.append_of_mem inside
  have unseen : n ∉ s := by
    have apart := (List.nodup_append.mp (List.nodup_append.mp (List.nodup_cons.mp once).2).1).2.2
    exact fun earlier => apart n earlier n List.mem_cons_self rfl
  have erased : (s ++ n :: t).erase n = s ++ t := by
    rw [List.erase_append_right _ unseen, List.erase_cons_head]
  obtain ⟨front, a, before⟩ : ∃ front a, l :: s = front ++ [a] := by
    rcases List.eq_nil_or_concat' (l :: s) with none | some
    · cases none
    · exact some
  obtain ⟨b, back, behind⟩ : ∃ b back, t ++ [l + 4] = b :: back :=
    List.exists_cons_of_ne_nil (List.append_ne_nil_of_right_ne_nil _ (List.cons_ne_nil _ _))
  have split : cells l (s ++ n :: t) = front ++ a :: n :: b :: back := by
    calc
      cells l (s ++ n :: t) = l :: s ++ n :: (t ++ [l + 4]) := by simp [cells]
      _ = front ++ [a] ++ n :: b :: back := by rw [before, behind]
      _ = front ++ a :: n :: b :: back := List.append_assoc ..
  have rest : cells l (s ++ t) = front ++ a :: b :: back := by
    calc
      cells l (s ++ t) = l :: s ++ (t ++ [l + 4]) := by simp [cells]
      _ = front ++ [a] ++ b :: back := by rw [before, behind]
      _ = front ++ a :: b :: back := List.append_assoc ..
  rw [split] at linked
  obtain ⟨-, into, others⟩ := List.isChain_append_cons_cons.mp linked
  obtain ⟨out, -⟩ := List.isChain_cons_cons.mp others
  exact ⟨front, back, by rw [into.2, out.1, split], by rw [into.2, out.1, erased, rest]⟩

private theorem addHead_inserted (held : Held m l nodes) (objects : Objects l (n :: nodes)) :
    Inserted l nodes m (addHead m l n) l n (lHead m l) := by
  obtain ⟨back, place⟩ := held.first
  have left : l ∈ cells l nodes := mem_cells.mpr (.inl rfl)
  have right : lHead m l ∈ cells l nodes := by simp [place]
  have new := Owned.new l n nodes
  have new' := Owned.new_next l n nodes
  have owned : Owned l (n :: nodes) l := (Owned.succ left).more
  obtain ⟨apart, apart'⟩ := objects.fresh (Owned.succ left)
  have read : lHead (store32 (store32 m n (lHead m l)) (n + 4) l) l = lHead m l := by
    rw [lHead, objects.load_store new' owned, if_neg apart', objects.load_store new owned, if_neg apart, lHead]
  refine inserted_of_reads objects left right fun c ours => ?_
  rw [addHead, read, objects.load_store owned ours, objects.load_store (Owned.pred right).more ours,
    objects.load_store new' ours, objects.load_store new ours, ite_or]

private theorem addTail_inserted (held : Held m l nodes) (objects : Objects l (n :: nodes)) :
    Inserted l nodes m (addTail m l n) (lTailpred m l) n (l + 4) := by
  obtain ⟨front, place⟩ := held.last
  have left : lTailpred m l ∈ cells l nodes := by simp [place]
  have right : l + 4 ∈ cells l nodes := mem_cells.mpr (.inr (.inr rfl))
  have new := Owned.new l n nodes
  have new' := Owned.new_next l n nodes
  have last : l + 8 = l + 4 + 4 := (BitVec.add_assoc l 4 4).symm
  have owned : Owned l nodes (l + 8) := last ▸ Owned.pred right
  obtain ⟨apart, apart'⟩ := objects.fresh owned
  have once : lTailpred (store32 m n (l + 4)) l = lTailpred m l := by
    rw [lTailpred, objects.load_store new owned.more, if_neg apart, lTailpred]
  have twice (v : Word) : lTailpred (store32 (store32 m n (l + 4)) (n + 4) v) l = lTailpred m l := by
    rw [lTailpred, objects.load_store new' owned.more, if_neg apart', ← lTailpred, once]
  refine inserted_of_reads objects left right fun c ours => ?_
  rw [addTail, once, twice, objects.load_store owned.more ours, objects.load_store (Owned.succ left).more ours,
    objects.load_store new' ours, objects.load_store new ours, last, ← ite_or]
  exact if_congr or_comm rfl rfl

/-- `list_append` stores what `add_tail` stores. -/
theorem listAppend_addTail (objects : Objects l (n :: nodes)) : listAppend m l n = addTail m l n := by
  have new' := Owned.new_next l n nodes
  have owned : Owned l nodes (l + 8) := .inl ⟨8, by decide, by decide, rfl⟩
  have reread (m : Memory) (v : Word) : nPred (store32 m (n + 4) v) n = v := load32_store32 (by decide) v
  have kept (m : Memory) (v : Word) : lTailpred (store32 m (n + 4) v) l = lTailpred m l := by
    rw [lTailpred, objects.load_store new' owned.more, if_neg (objects.fresh owned).2, lTailpred]
  rw [listAppend, addTail, reread, kept]

/-- `remove` joins the neighbours of a node. -/
theorem remove_reads (held : Held m l nodes) (inside : n ∈ nodes) (ours : Owned l nodes c) :
    load32 (NodeList.remove m n).1 c =
      if c = nSucc m n + 4 then nPred m n else if c = nPred m n then nSucc m n else load32 m c := by
  obtain ⟨front, back, place, -⟩ := held.around inside
  have objects := held.objects
  have once := objects.nodup
  have here : n ∈ cells l nodes := mem_cells.mpr (.inr (.inl inside))
  have left : nPred m n ∈ cells l nodes := by simp [place]
  have right : nSucc m n ∈ cells l nodes := by simp [place]
  have apart : n ≠ nPred m n := by
    rw [place] at once
    exact fun same => (List.nodup_cons.mp (List.nodup_append.mp once).2.1).1 (same ▸ List.mem_cons_self)
  have apart' : n + 4 ≠ nPred m n := by
    intro same
    obtain ⟨-, rfl⟩ := objects.crossing left here same.symm
    exact objects.sentinels.1 inside
  have succ : nSucc (store32 m (nPred m n) (nSucc m n)) n = nSucc m n := by
    rw [nSucc, objects.load_store (.succ left) (.succ here), if_neg apart, nSucc]
  have pred : nPred (store32 m (nPred m n) (nSucc m n)) n = nPred m n := by
    rw [nPred, objects.load_store (.succ left) (.pred here), if_neg apart', nPred]
  rw [NodeList.remove, succ, pred, objects.load_store (.pred right) ours, objects.load_store (.succ left) ours]

private theorem objects_nil (l : Word) : Objects l [] := ⟨by simp, .nil⟩

theorem Objects.perm (objects : Objects l nodes) (same : nodes.Perm others) : Objects l others := by
  refine ⟨fun x inside => objects.header x (same.mem_iff.mpr inside), ?_⟩
  exact (same.pairwise_iff fun apart => apart.symm).mp objects.nodes

theorem Objects.sublist (objects : Objects l nodes) (part : others.Sublist nodes) : Objects l others :=
  ⟨fun x inside => objects.header x (part.subset inside), objects.nodes.sublist part⟩

theorem Held.remove (held : Held m l nodes) (inside : n ∈ nodes) :
    Held (NodeList.remove m n).1 l (nodes.erase n) := by
  obtain ⟨front, back, place, rest⟩ := held.around inside
  have part : (nodes.erase n).Sublist nodes := List.erase_sublist
  have objects := held.objects.sublist part
  have left : nPred m n ∈ cells l (nodes.erase n) := by simp [rest]
  have right : nSucc m n ∈ cells l (nodes.erase n) := by simp [rest]
  have more {c : Word} (ours : Owned l (nodes.erase n) c) : Owned l nodes c :=
    ours.imp_right fun ⟨x, there, word⟩ => ⟨x, part.subset there, word⟩
  have others (c : Word) (ours : Owned l (nodes.erase n) c) (other : c ≠ nPred m n) (other' : c ≠ nSucc m n + 4) :
      load32 (NodeList.remove m n).1 c = load32 m c := by
    rw [remove_reads held inside (more ours), if_neg other', if_neg other]
  obtain ⟨after, before, tail⟩ := objects.kept rest others
  have linked := held.linked
  have once := objects.nodup
  rw [rest] at once
  rw [place] at linked
  refine ⟨objects, ?_, tail.trans held.tail⟩
  rw [rest]
  obtain ⟨notFirst, -⟩ := objects.ends rest
  have apart : nPred m n ≠ nSucc m n + 4 := fun same => notFirst (objects.crossing left right same).2
  refine Linked.remove once after before linked ⟨?_, ?_⟩
  · rw [nSucc, remove_reads held inside (more (.succ left)), if_neg apart, if_pos rfl]
  · rw [nPred, remove_reads held inside (more (.pred right)), if_pos rfl]

private theorem Held.addHead (held : Held m l nodes) (objects : Objects l (n :: nodes)) :
    Held (NodeList.addHead m l n) l (n :: nodes) := by
  obtain ⟨back, place⟩ := held.first
  obtain ⟨linked, tail⟩ := held.insert place (addHead_inserted held objects)
  have behind : nodes ++ [l + 4] = lHead m l :: back := (List.cons.inj place).2
  refine ⟨objects, ?_, tail⟩
  rw [List.nil_append, ← behind] at linked
  exact linked

theorem Held.addTail (held : Held m l nodes) (objects : Objects l (n :: nodes)) :
    Held (NodeList.addTail m l n) l (nodes ++ [n]) := by
  obtain ⟨front, place⟩ := held.last
  obtain ⟨linked, tail⟩ := held.insert place (addTail_inserted held objects)
  have before : l :: nodes = front ++ [lTailpred m l] := by
    have both : l :: nodes ++ [l + 4] = front ++ [lTailpred m l] ++ [l + 4] := by
      rw [List.append_assoc]
      exact place
    exact List.append_cancel_right both
  have split : cells l (nodes ++ [n]) = front ++ lTailpred m l :: n :: (l + 4) :: [] := by
    calc
      cells l (nodes ++ [n]) = l :: nodes ++ [n, l + 4] := by simp [cells]
      _ = front ++ lTailpred m l :: n :: (l + 4) :: [] := by simp [before]
  refine ⟨objects.perm (List.perm_append_singleton n nodes).symm, ?_, tail⟩
  rwa [split]

theorem Held.empty (head : lHead m l = l + 4) (tail : lTail m l = 0) (tailpred : lTailpred m l = l) :
    Held m l [] := by
  refine ⟨objects_nil l, List.isChain_pair.mpr ⟨head, ?_⟩, tail⟩
  rw [← tailpred_pred, tailpred]

/-- A store to one pointer of a header, seen at another. -/
theorem header_read (m : Memory) (l v : Word) :
    lHead (store32 m (l + 4) v) l = lHead m l ∧ lHead (store32 m (l + 8) v) l = lHead m l ∧
      lTail (store32 m l v) l = lTail m l ∧ lTail (store32 m (l + 8) v) l = lTail m l ∧
      lTailpred (store32 m l v) l = lTailpred m l ∧ lTailpred (store32 m (l + 4) v) l = lTailpred m l := by
  have objects := objects_nil l
  have first : Owned l [] l := .inl (wordOf_start l (by decide))
  have second : Owned l [] (l + 4) := .inl (wordOf_next l (by decide))
  have third : Owned l [] (l + 8) := .inl ⟨8, by decide, by decide, rfl⟩
  refine ⟨?_, ?_, ?_, ?_, ?_, ?_⟩
  · exact (objects.load_store second first v).trans (if_neg (by bv_omega))
  · exact (objects.load_store third first v).trans (if_neg (by bv_omega))
  · exact (objects.load_store first second v).trans (if_neg (by bv_omega))
  · exact (objects.load_store third second v).trans (if_neg (by bv_omega))
  · exact (objects.load_store first third v).trans (if_neg (by bv_omega))
  · exact (objects.load_store second third v).trans (if_neg (by bv_omega))

private theorem newList_held (m : Memory) (l : Word) : Held (newList m l) l [] := by
  refine .empty ?_ ?_ ?_
  · exact load32_store32 (by decide) _
  · rw [newList, (header_read _ _ _).2.2.1]
    exact load32_store32 (by decide) _
  · rw [newList, (header_read _ _ _).2.2.2.2.1, (header_read _ _ _).2.2.2.2.2]
    exact load32_store32 (by decide) _

theorem listNew_held (m : Memory) (l : Word) : Held (listNew m l).1 l [] := by
  refine .empty ?_ ?_ ?_
  · rw [listNew, (header_read _ _ _).2.1, (header_read _ _ _).1]
    exact load32_store32 (by decide) _
  · rw [listNew, (header_read _ _ _).2.2.2.1]
    exact load32_store32 (by decide) _
  · exact load32_store32 (by decide) _

/-- A valid operation keeps the list. -/
theorem Held.run (held : Held m l nodes) (op : Op) (valid : op.Valid l nodes) :
    Held (op.run l m) l (op.nodes nodes) := by
  cases op with
  | addHead n => exact held.addHead valid
  | addTail n => exact held.addTail valid
  | listAppend n =>
    rw [Op.run, listAppend_addTail valid]
    exact held.addTail valid
  | remove n => exact held.remove valid

private theorem Held.runAll (held : Held m l nodes) (ops : List Op) (valid : ValidAll l nodes ops) :
    Held (ops.foldl (Op.run l) m) l (ops.foldl Op.nodes nodes) := by
  induction ops generalizing m nodes with
  | nil => exact held
  | cons op ops ih => exact ih (held.run op valid.1) valid.2

theorem Held.wellFormed (held : Held m l nodes) : WellFormed m l nodes where
  forward := held.linked.leads
  backward := by
    rw [tailpred_pred]
    exact held.linked.leads_back
  sentinels := held.objects.sentinels
  tail := held.tail

/-- Whatever is done to a list, it is well formed. -/
theorem operations_wellFormed (m : Memory) (l : Word) (ops : List Op) (valid : ValidAll l [] ops) :
    WellFormed (ops.foldl (Op.run l) (newList m l)) l (ops.foldl Op.nodes []) ∧
      WellFormed (ops.foldl (Op.run l) (listNew m l).1) l (ops.foldl Op.nodes []) :=
  ⟨((newList_held m l).runAll ops valid).wellFormed, ((listNew_held m l).runAll ops valid).wellFormed⟩

end

/-- Three nodes are added in three ways, and the middle one is removed. -/
theorem operations_three :
    ValidAll 4096 [] [.addTail 64, .addHead 96, .listAppend 128, .remove 64] ∧
      WellFormed ([Op.addTail 64, .addHead 96, .listAppend 128, .remove 64].foldl (Op.run 4096)
        (newList (fun _ => 0) 4096))
        4096 [96, 128] := by
  have first : Objects 4096 [64] := ⟨by simp [Separate, Within], by simp [Separate, Within]⟩
  have second : Objects 4096 [96, 64] := ⟨by simp [Separate, Within], by simp [Separate, Within]⟩
  have third : Objects 4096 [128, 96, 64] := ⟨by simp [Separate, Within], by simp [Separate, Within]⟩
  have there : (64 : Word) ∈ [96, 64, 128] := by decide
  have valid : ValidAll 4096 [] [.addTail 64, .addHead 96, .listAppend 128, .remove 64] :=
    ⟨first, second, third, there, trivial⟩
  exact ⟨valid, (operations_wellFormed _ 4096 _ valid).1⟩

end Parthenope.NodeList
