import Parthenope.Cdrom
import Parthenope.FileTree
import Parthenope.Sfs

/-! The two ways of taking a path apart. They differ in a slash at its end, which one
leaves with the last element and the other puts a component without a name behind; a
file is named by neither. -/
namespace Parthenope.FileNames
open CString Buffer FileTree Cdrom Sfs

/-- A name that a path can have in it. -/
def IsFileName (name : List Byte) : Prop := name ≠ [] ∧ (47 : Byte) ∉ name ∧ (0 : Byte) ∉ name

section
variable {path : List Byte} {c : Byte}

theorem tolower_slash (c : Byte) (stroke : tolower c = 47) : c = 47 := by
  revert c
  decide

theorem components_ne_nil (path : List Byte) : components path ≠ [] := by
  cases path with
  | nil => exact List.cons_ne_nil _ _
  | cons c rest =>
    rw [components]
    split
    · exact List.cons_ne_nil _ _
    · split <;> exact List.cons_ne_nil _ _

/-- What is in no part of a path is not in its components. -/
theorem components_ended (ended : c ∉ path) : ∀ name ∈ components path, c ∉ name := by
  induction path with
  | nil =>
    intro name inside
    rw [List.mem_singleton.mp inside]
    exact List.not_mem_nil
  | cons b rest ih =>
    have rest' := ih fun inside => ended (List.mem_cons_of_mem _ inside)
    obtain ⟨first, names, parts⟩ := List.exists_cons_of_ne_nil (components_ne_nil rest)
    rw [components, parts]
    rw [parts] at rest'
    split
    · intro name inside
      rcases List.mem_cons.mp inside with rfl | further
      · exact List.not_mem_nil
      · exact rest' name further
    · intro name inside
      rcases List.mem_cons.mp inside with rfl | further
      · intro member
        rcases List.mem_cons.mp member with rfl | member
        · exact ended List.mem_cons_self
        · exact rest' first List.mem_cons_self member
      · exact rest' name (List.mem_cons_of_mem _ further)

theorem splitElements_cons (more : path ≠ []) :
    splitElements (c :: path) =
      if c = 47 then [] :: splitElements path
      else
        match splitElements path with
        | element :: elements => (c :: element) :: elements
        | [] => [[c]] := by
  cases path with
  | nil => exact absurd rfl more
  | cons d rest => rfl

theorem splitElements_ne_nil (path : List Byte) : splitElements path ≠ [] := by
  cases path with
  | nil => exact List.cons_ne_nil _ _
  | cons c rest =>
    cases rest with
    | nil => exact List.cons_ne_nil _ _
    | cons d rest =>
      rw [splitElements_cons (List.cons_ne_nil _ _)]
      split
      · exact List.cons_ne_nil _ _
      · split <;> exact List.cons_ne_nil _ _

theorem splitElements_length_le (path : List Byte) : (splitElements path).length ≤ (components path).length := by
  induction path with
  | nil => exact le_rfl
  | cons c rest ih =>
    cases rest with
    | nil => exact List.length_pos_iff.mpr (components_ne_nil [c])
    | cons d rest =>
      obtain ⟨first, elements, split⟩ := List.exists_cons_of_ne_nil (splitElements_ne_nil (d :: rest))
      obtain ⟨name, names, parts⟩ := List.exists_cons_of_ne_nil (components_ne_nil (d :: rest))
      rw [splitElements_cons (List.cons_ne_nil _ _), components, split, parts]
      rw [split, parts] at ih
      split
      · exact Nat.succ_le_succ ih
      · exact ih

/-- What is in no part of a path is not in its elements. -/
theorem split_ended (ended : c ∉ path) : ∀ element ∈ splitElements path, c ∉ element := by
  induction path with
  | nil =>
    intro element inside
    rw [List.mem_singleton.mp inside]
    exact List.not_mem_nil
  | cons b rest ih =>
    cases rest with
    | nil =>
      intro element inside
      rw [List.mem_singleton.mp inside]
      exact ended
    | cons d rest =>
      have rest' := ih fun inside => ended (List.mem_cons_of_mem _ inside)
      obtain ⟨first, elements, split⟩ := List.exists_cons_of_ne_nil (splitElements_ne_nil (d :: rest))
      rw [splitElements_cons (List.cons_ne_nil _ _), split]
      rw [split] at rest'
      split
      · intro element inside
        rcases List.mem_cons.mp inside with rfl | further
        · exact List.not_mem_nil
        · exact rest' element further
      · intro element inside
        rcases List.mem_cons.mp inside with rfl | further
        · intro member
          rcases List.mem_cons.mp member with rfl | member
          · exact ended List.mem_cons_self
          · exact rest' first List.mem_cons_self member
        · exact rest' element (List.mem_cons_of_mem _ further)

theorem split_same (unslashed : path.getLast? ≠ some 47) : splitElements path = components path := by
  induction path with
  | nil => rfl
  | cons c rest ih =>
    cases rest with
    | nil =>
      have other : c ≠ 47 := fun same => unslashed (congrArg some same)
      rw [components, if_neg other]
      rfl
    | cons d rest =>
      rw [List.getLast?_cons_cons] at unslashed
      rw [splitElements_cons (List.cons_ne_nil _ _), ih unslashed]
      rfl

/-- A path with a slash at its end. -/
theorem split_slash (slashed : path.getLast? = some 47) :
    (∃ name names, components path = name :: (names ++ [[]])) ∧
      ∃ e, (splitElements path).getLast? = some e ∧ (47 : Byte) ∈ e := by
  induction path with
  | nil => cases slashed
  | cons c rest ih =>
    cases rest with
    | nil =>
      cases slashed
      exact ⟨⟨[], [], rfl⟩, [47], rfl, List.mem_cons_self⟩
    | cons d rest =>
      rw [List.getLast?_cons_cons] at slashed
      obtain ⟨⟨name, names, parts⟩, e, last, slash⟩ := ih slashed
      obtain ⟨first, elements, split⟩ := List.exists_cons_of_ne_nil (splitElements_ne_nil (d :: rest))
      have here : components (c :: d :: rest) =
          if c = 47 then [] :: name :: (names ++ [[]]) else (c :: name) :: (names ++ [[]]) := by
        rw [components, parts]
      rw [splitElements_cons (List.cons_ne_nil _ _), here, split]
      rw [split] at last
      by_cases stroke : c = 47
      · rw [if_pos stroke, if_pos stroke, List.getLast?_cons_cons]
        exact ⟨⟨[], name :: names, rfl⟩, e, last, slash⟩
      · rw [if_neg stroke, if_neg stroke]
        refine ⟨⟨c :: name, names, rfl⟩, ?_⟩
        cases elements with
        | nil =>
          cases last
          exact ⟨c :: first, rfl, List.mem_cons_of_mem c slash⟩
        | cons second elements => exact ⟨e, last, slash⟩

end

/-- Both ways of taking a path apart lead to the same. -/
theorem follow_elements {κ ι ρ : Type} {entries : ι → List (List Byte × Node κ ι)}
    {Lists : ι → List (List Byte × Node κ ι) → Prop} {root : ι} (kind : Node κ ι → Option ρ) (path : List Byte)
    (formed : WellFormed Lists IsFileName entries root) :
    follow fold (lookupAs fold kind) entries (splitElements path) root =
      follow fold (lookupAs fold kind) entries (components path) root := by
  by_cases slashed : path.getLast? = some 47
  · obtain ⟨⟨name, names, parts⟩, e, last, slash⟩ := split_slash slashed
    have nothing : follow fold (lookupAs fold kind) entries (splitElements path) root = none := by
      cases found : follow fold (lookupAs fold kind) entries (splitElements path) root with
      | none => rfl
      | some r =>
        obtain ⟨j, nonempty, below, here⟩ := follow_last .root found
        obtain ⟨entry, member, same, -⟩ := lookupAs_mem here
        rw [List.getLast?_eq_some_getLast nonempty] at last
        rw [Option.some.inj last] at same
        have folded : (47 : Byte) ∈ fold entry.1 := same ▸ List.mem_map.mpr ⟨47, slash, rfl⟩
        obtain ⟨c, inside, stroke⟩ := List.mem_map.mp folded
        cases tolower_slash c stroke
        exact absurd inside (formed.names j below entry member).2.1
    have nothing' : follow fold (lookupAs fold kind) entries (components path) root = none := by
      cases found : follow fold (lookupAs fold kind) entries (components path) root with
      | none => rfl
      | some r =>
        obtain ⟨j, nonempty, below, here⟩ := follow_last .root found
        obtain ⟨entry, member, same, -⟩ := lookupAs_mem here
        have last : (components path).getLast? = some [] := by
          rw [parts, ← List.cons_append, List.getLast?_concat]
        rw [List.getLast?_eq_some_getLast nonempty] at last
        rw [Option.some.inj last] at same
        exact absurd (List.map_eq_nil_iff.mp same) (formed.names j below entry member).1
    rw [nothing, nothing']
  · rw [split_same slashed]

end Parthenope.FileNames
