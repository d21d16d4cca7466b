import Mathlib.Data.List.Perm.Basic
import Mathlib.Data.List.Range
import Parthenope.LinkedList
import Parthenope.MenuBook

/-! Who owns the entries while the parser runs. An entry is in the list, freed,
or held by the parser, and in one of these places only. -/
namespace Parthenope.Menu
open CString LinkedList

def Heap.link (heap : Heap) (a : Addr) : Option (Option Addr) := (heap.cells a).map Node.next

/-- A menu list, and nothing where `malloc` goes on. -/
structure Heap.Lists (heap : Heap) (menu : Addr) (l : List Addr) : Prop where
  spelled : Spells heap.link menu l
  unused : ∀ a, heap.fresh ≤ a → heap.cells a = none

def allocatedOf (events : List Event) : List Addr :=
  events.filterMap fun | .allocated a => some a | _ => none

def appendedOf (events : List Event) : List Addr :=
  events.filterMap fun | .appended a => some a | _ => none

def freedOf (events : List Event) : List Addr :=
  events.filterMap fun | .freed a => some a | _ => none

section
variable (events : List Event) (a : Addr)

@[simp] theorem allocatedOf_allocated :
    allocatedOf (events ++ [.allocated a]) = allocatedOf events ++ [a] := by simp [allocatedOf]

@[simp] theorem allocatedOf_appended :
    allocatedOf (events ++ [.appended a]) = allocatedOf events := by simp [allocatedOf]

@[simp] theorem allocatedOf_freed :
    allocatedOf (events ++ [.freed a]) = allocatedOf events := by simp [allocatedOf]

@[simp] theorem appendedOf_allocated :
    appendedOf (events ++ [.allocated a]) = appendedOf events := by simp [appendedOf]

@[simp] theorem appendedOf_appended :
    appendedOf (events ++ [.appended a]) = appendedOf events ++ [a] := by simp [appendedOf]

@[simp] theorem appendedOf_freed :
    appendedOf (events ++ [.freed a]) = appendedOf events := by simp [appendedOf]

@[simp] theorem freedOf_allocated :
    freedOf (events ++ [.allocated a]) = freedOf events := by simp [freedOf]

@[simp] theorem freedOf_appended :
    freedOf (events ++ [.appended a]) = freedOf events := by simp [freedOf]

@[simp] theorem freedOf_freed :
    freedOf (events ++ [.freed a]) = freedOf events ++ [a] := by simp [freedOf]

end

/-- The list: the old entries as they were, then the book's, and the numbers in
the head. -/
structure Listed (start : Heap) (menu : Addr) (old appended : List Addr) (heap : Heap) (b : Book) :
    Prop where
  spelled : Spells heap.link menu (old ++ appended)
  menu_old : menu ∈ old
  kept : ∀ a ∈ old, (heap.cells a).map Node.entry = (start.cells a).map Node.entry
  added : appended.map (fun a => (heap.cells a).map Node.entry) = b.added.map some
  numbers : ∃ node, heap.cells menu = some node ∧ node.defaultOs = b.defaultOs ∧ node.delay = b.delay

/-- Every allocation is accounted for once. -/
structure Accounted (start : Heap) (old held : List Addr) (heap : Heap) (events : List Event) :
    Prop where
  once : (appendedOf events ++ freedOf events ++ held).Perm (allocatedOf events)
  allocated : allocatedOf events = List.range' start.fresh (heap.fresh - start.fresh)
  grown : start.fresh ≤ heap.fresh
  unused : ∀ a, heap.fresh ≤ a → heap.cells a = none
  old_below : ∀ a ∈ old, a < start.fresh

section
variable {start heap heap' : Heap} {menu a z : Addr} {old appended held : List Addr} {b b' : Book}
  {events : List Event} {cell : Option Node} {node node' : Node}

@[simp] theorem Heap.set_same : (heap.set a cell).cells a = cell := if_pos rfl

theorem Heap.set_other (other : z ≠ a) : (heap.set a cell).cells z = heap.cells z := if_neg other

theorem Listed.congr (listed : Listed start menu old appended heap b)
    (same : ∀ a ∈ old ++ appended, heap'.cells a = heap.cells a) (added : b'.added = b.added)
    (defaultOs : b'.defaultOs = b.defaultOs) (delay : b'.delay = b.delay) :
    Listed start menu old appended heap' b' := by
  have inOld {a} (inside : a ∈ old) := same a (List.mem_append_left _ inside)
  have inAppended {a} (inside : a ∈ appended) := same a (List.mem_append_right _ inside)
  refine ⟨?_, listed.menu_old, ?_, ?_, ?_⟩
  · apply listed.spelled.congr
    intro a inside
    rw [Heap.link, Heap.link, same a inside]
  · intro a inside
    rw [inOld inside]
    exact listed.kept a inside
  · rw [added, ← listed.added]
    apply List.map_congr_left
    intro a inside
    rw [inAppended inside]
  · rw [inOld listed.menu_old, defaultOs, delay]
    exact listed.numbers

/-- A cell outside the list may change. -/
theorem Listed.set_apart (listed : Listed start menu old appended heap b)
    (apart : a ∉ old ++ appended) : Listed start menu old appended (heap.set a cell) b := by
  refine listed.congr ?_ rfl rfl rfl
  intro z inside
  apply Heap.set_other
  rintro rfl
  exact apart inside

/-- A cell of the list may change in all but its link and its entry. -/
theorem Listed.set_numbers (listed : Listed start menu old appended heap b)
    (present : heap.cells menu = some node) (next : node'.next = node.next)
    (entry : node'.entry = node.entry) (added : b'.added = b.added)
    (defaultOs : node'.defaultOs = b'.defaultOs) (delay : node'.delay = b'.delay) :
    Listed start menu old appended (heap.set menu (some node')) b' := by
  have entries (a : Addr) :
      ((heap.set menu (some node')).cells a).map Node.entry = (heap.cells a).map Node.entry := by
    by_cases same : a = menu
    · subst same
      rw [Heap.set_same, present, Option.map_some, Option.map_some, entry]
    · rw [Heap.set_other same]
  refine ⟨?_, listed.menu_old, ?_, ?_, ⟨node', Heap.set_same, defaultOs, delay⟩⟩
  · apply listed.spelled.congr
    intro a _
    by_cases same : a = menu
    · subst same
      rw [Heap.link, Heap.link, Heap.set_same, present, Option.map_some, Option.map_some, next]
    · rw [Heap.link, Heap.link, Heap.set_other same]
  · intro a inside
    rw [entries]
    exact listed.kept a inside
  · simp only [entries, added]
    exact listed.added

/-- The last link takes a cell from outside. -/
theorem Listed.append (listed : Listed start menu old appended heap b)
    (last : (old ++ appended).getLast? = some z) (present : heap.cells z = some node)
    (apart : a ∉ old ++ appended) (held : heap.cells a = some node') (ends : node'.next = none)
    (added : b'.added = b.added ++ [node'.entry]) (defaultOs : b'.defaultOs = b.defaultOs)
    (delay : b'.delay = b.delay) :
    Listed start menu old (appended ++ [a]) (heap.set z (some { node with next := some a })) b' := by
  have inside : z ∈ old ++ appended := List.mem_of_getLast? last
  have other : a ≠ z := fun same => apart (same ▸ inside)
  have entries (x : Addr) : ((heap.set z (some { node with next := some a })).cells x).map Node.entry =
      (heap.cells x).map Node.entry := by
    by_cases same : x = z
    · subst same
      rw [Heap.set_same, present, Option.map_some, Option.map_some]
    · rw [Heap.set_other same]
  refine ⟨?_, listed.menu_old, ?_, ?_, ?_⟩
  · rw [← List.append_assoc]
    apply listed.spelled.append last
    · intro x _ different
      rw [Heap.link, Heap.link, Heap.set_other different]
    · rw [Heap.link, Heap.set_same, Option.map_some]
    · rw [Heap.link, Heap.set_other other, held, Option.map_some, ends]
  · intro x inOld
    rw [entries]
    exact listed.kept x inOld
  · simp only [List.map_append, entries, listed.added, added, List.map_cons, List.map_nil, held,
      Option.map_some]
  · obtain ⟨first, presentFirst, numbers⟩ := listed.numbers
    rw [defaultOs, delay]
    by_cases same : menu = z
    · subst same
      rw [present] at presentFirst
      cases presentFirst
      exact ⟨_, Heap.set_same, numbers⟩
    · exact ⟨first, (Heap.set_other same).trans presentFirst, numbers⟩

theorem Accounted.nodup (accounted : Accounted start old held heap events) :
    (appendedOf events ++ freedOf events ++ held).Nodup := by
  rw [accounted.once.nodup_iff, accounted.allocated]
  exact List.nodup_range'

theorem Accounted.allocated_range (accounted : Accounted start old held heap events)
    (inside : a ∈ appendedOf events ++ freedOf events ++ held) :
    start.fresh ≤ a ∧ a < heap.fresh := by
  have range := accounted.once.mem_iff.mp inside
  rw [accounted.allocated, List.mem_range'_1] at range
  rw [Nat.add_sub_cancel' accounted.grown] at range
  exact range

/-- What the parser holds is not in the list. -/
theorem Accounted.held_apart (accounted : Accounted start old [a] heap events) :
    a ∉ old ++ appendedOf events := by
  intro inside
  rcases List.mem_append.mp inside with inOld | inAppended
  · have below := accounted.old_below a inOld
    have range := accounted.allocated_range (List.mem_append_right _ (List.mem_singleton.mpr rfl))
    exact absurd below (Nat.not_lt.mpr range.1)
  · have apart := List.disjoint_of_nodup_append accounted.nodup
    exact apart (List.mem_append_left _ inAppended) (List.mem_singleton.mpr rfl)

theorem Accounted.below (accounted : Accounted start old held heap events)
    (inside : a ∈ old ++ appendedOf events) : a < heap.fresh := by
  rcases List.mem_append.mp inside with inOld | inAppended
  · exact Nat.lt_of_lt_of_le (accounted.old_below a inOld) accounted.grown
  · exact (accounted.allocated_range (List.mem_append_left _ (List.mem_append_left _ inAppended))).2

theorem Accounted.set (cell : Option Node) (accounted : Accounted start old held heap events)
    (below : a < heap.fresh) : Accounted start old held (heap.set a cell) events := by
  refine ⟨accounted.once, accounted.allocated, accounted.grown, ?_, accounted.old_below⟩
  intro z unused
  have other : z ≠ a := by
    rintro rfl
    exact absurd below (Nat.not_lt.mpr unused)
  rw [Heap.set_other other]
  exact accounted.unused z unused

/-- `malloc` gives an address nobody has had. -/
theorem Accounted.allocate (accounted : Accounted start old [] heap events) :
    Accounted start old [heap.fresh] { heap.set heap.fresh cell with fresh := heap.fresh + 1 }
      (events ++ [.allocated heap.fresh]) := by
  have grown := accounted.grown
  refine ⟨?_, ?_, Nat.le_succ_of_le grown, ?_, accounted.old_below⟩
  · have once := accounted.once
    rw [List.append_nil] at once
    simpa using once.append_right [heap.fresh]
  · have next : start.fresh + 1 * (heap.fresh - start.fresh) = heap.fresh := by
      rw [Nat.one_mul, Nat.add_sub_cancel' grown]
    rw [allocatedOf_allocated, accounted.allocated, Nat.succ_sub grown, List.range'_concat, next]
  · intro z unused
    have other : z ≠ heap.fresh := Nat.ne_of_gt unused
    exact (Heap.set_other other).trans (accounted.unused z (Nat.le_of_succ_le unused))

theorem Accounted.append (accounted : Accounted start old [a] heap events) :
    Accounted start old [] heap (events ++ [.appended a]) := by
  refine ⟨?_, ?_, accounted.grown, accounted.unused, accounted.old_below⟩
  · simp only [appendedOf_appended, freedOf_appended, allocatedOf_appended, List.append_nil]
    refine List.Perm.trans ?_ accounted.once
    rw [List.append_assoc, List.append_assoc]
    exact List.perm_append_comm.append_left _
  · rw [allocatedOf_appended]
    exact accounted.allocated

theorem Accounted.free (accounted : Accounted start old [a] heap events) :
    Accounted start old [] (heap.set a none) (events ++ [.freed a]) := by
  have range := accounted.allocated_range (List.mem_append_right _ (List.mem_singleton.mpr rfl))
  have changed := accounted.set none range.2
  refine ⟨?_, ?_, changed.grown, changed.unused, changed.old_below⟩
  · simpa only [appendedOf_freed, freedOf_freed, allocatedOf_freed, List.append_nil,
      List.append_assoc] using accounted.once
  · rw [allocatedOf_freed]
    exact changed.allocated

end

end Parthenope.Menu
