import Mathlib.Data.List.Basic

/-! Directories and what paths name in them. Directories may lead anywhere, back to
themselves included, and names are compared by a key. A path leads through the first
directory with each of its names but the last. A loader owes the length and the content
of what a path names if that is a file, and otherwise a negative result. -/
namespace FileTree

inductive Node (κ ι : Type*)
  | file (content : κ)
  | dir (i : ι)
  deriving DecidableEq

variable {ν μ κ ι ρ β : Type*} [DecidableEq μ] (key : ν → μ)

def Node.file? : Node κ ι → Option κ
  | .file content => some content
  | .dir _ => none

def Node.dir? : Node κ ι → Option ι
  | .file _ => none
  | .dir i => some i

def Node.isDir : Node κ ι → Bool
  | .file _ => false
  | .dir _ => true

/-- The first entry with a name. -/
def lookup (name : ν) (listed : List (ν × Node κ ι)) : Option (Node κ ι) :=
  (listed.find? fun e => key e.1 = key name).map Prod.snd

/-- The first of them that is of a kind. -/
def lookupAs (kind : Node κ ι → Option ρ) (name : ν) (listed : List (ν × Node κ ι)) : Option ρ :=
  listed.findSome? fun e => if key e.1 = key name then kind e.2 else none

/-- What a path leads to from a directory, by what its last name means there. -/
def follow (last : ν → List (ν × Node κ ι) → Option ρ) (entries : ι → List (ν × Node κ ι)) :
    List ν → ι → Option ρ
  | [], _ => none
  | [name], i => last name (entries i)
  | name :: rest, i => (lookupAs key Node.dir? name (entries i)).bind (follow last entries rest)

/-- The directories that are found from one on. -/
inductive Below (entries : ι → List (ν × Node κ ι)) (root : ι) : ι → Prop
  | root : Below entries root root
  | step {i j : ι} {name : ν} : Below entries root i → (name, .dir j) ∈ entries i → Below entries root j

/-- The directories are listed as `entries` says, by proper names. -/
structure WellFormed (Lists : ι → List (ν × Node κ ι) → Prop) (Name : ν → Prop)
    (entries : ι → List (ν × Node κ ι)) (root : ι) : Prop where
  lists : ∀ i, Below entries root i → Lists i (entries i)
  names : ∀ i, Below entries root i → ∀ e ∈ entries i, Name e.1

/-- No directory has a file and a directory of the same name. -/
def Unmixed (entries : ι → List (ν × Node κ ι)) (root : ι) : Prop :=
  ∀ i, Below entries root i → ∀ a ∈ entries i, ∀ b ∈ entries i, key a.1 = key b.1 → a.2.isDir = b.2.isDir

/-- What a loader owes, which returns a number and leaves bytes behind. -/
def Contract (named : Option (Node κ ι)) (content : κ → List β) (Loads : Int → List β → Prop) : Prop :=
  (∀ file, named = some (.file file) → Loads (content file).length (content file)) ∧
  ((∀ file, named ≠ some (.file file)) → ∃ r bytes, r < 0 ∧ Loads r bytes)

section
variable {key} {entries : ι → List (ν × Node κ ι)} {listed : List (ν × Node κ ι)} {name next : ν}
  {node : Node κ ι} {root i j : ι} {r : ρ} {names : List ν} {kind : Node κ ι → Option ρ}
  {last : ν → List (ν × Node κ ι) → Option ρ}

theorem lookup_mem (found : lookup key name listed = some node) :
    ∃ e ∈ listed, key e.1 = key name ∧ e.2 = node := by
  obtain ⟨e, first, same⟩ := Option.map_eq_some_iff.mp found
  have named := List.find?_some first
  exact ⟨e, List.mem_of_find?_eq_some first, of_decide_eq_true named, same⟩

theorem lookupAs_mem (found : lookupAs key kind name listed = some r) :
    ∃ e ∈ listed, key e.1 = key name ∧ kind e.2 = some r := by
  obtain ⟨e, member, here⟩ := List.exists_of_findSome?_eq_some found
  split at here
  · rename_i named
    exact ⟨e, member, named, here⟩
  · cases here

/-- Among entries of one type the first with a name is the first of that type. -/
theorem lookupAs_unmixed (typed : ∀ n n', n.isDir = n'.isDir → kind n = none → kind n' = none)
    (unmixed : ∀ a ∈ listed, ∀ b ∈ listed, key a.1 = key b.1 → a.2.isDir = b.2.isDir) :
    lookupAs key kind name listed = (lookup key name listed).bind kind := by
  induction listed with
  | nil => rfl
  | cons e rest ih =>
    have further := ih fun a inside b inside' =>
      unmixed a (List.mem_cons_of_mem _ inside) b (List.mem_cons_of_mem _ inside')
    rw [lookupAs, List.findSome?_cons, lookup, List.find?_cons]
    by_cases same : key e.1 = key name
    · rw [if_pos same, decide_eq_true same, Option.map_some, Option.bind_some]
      cases here : kind e.2 with
      | none =>
        cases found : lookupAs key kind name rest with
        | none => exact found
        | some r =>
          obtain ⟨e', member, named, kept⟩ := lookupAs_mem found
          have alike := unmixed e List.mem_cons_self e' (List.mem_cons_of_mem _ member) (same.trans named.symm)
          rw [typed _ _ alike here] at kept
          cases kept
      | some r => rfl
    · rw [if_neg same, decide_eq_false same]
      exact further

theorem bind_file_eq_some {named : Option (Node κ ι)} {file : κ} :
    named.bind Node.file? = some file ↔ named = some (.file file) := by
  constructor
  · intro found
    obtain ⟨node, rfl, kind⟩ := Option.bind_eq_some_iff.mp found
    cases node with
    | file => exact congrArg (fun file => some (Node.file file)) (Option.some.inj kind)
    | dir => cases kind
  · rintro rfl
    rfl

theorem file?_typed (n n' : Node κ ι) (alike : n.isDir = n'.isDir) (other : n.file? = none) : n'.file? = none := by
  cases n with
  | file => cases other
  | dir =>
    cases n' with
    | file => cases alike
    | dir => rfl

theorem lookupAs_some (f : Node κ ι → ρ) :
    lookupAs key (fun node => some (f node)) name listed = (lookup key name listed).map f := by
  induction listed with
  | nil => rfl
  | cons e rest ih =>
    rw [lookupAs, List.findSome?_cons, lookup, List.find?_cons]
    by_cases same : key e.1 = key name
    · rw [if_pos same, decide_eq_true same]
      rfl
    · rw [if_neg same, decide_eq_false same]
      exact ih

theorem follow_next (more : names ≠ []) :
    follow key last entries (name :: names) i =
      (lookupAs key Node.dir? name (entries i)).bind (follow key last entries names) := by
  cases names with
  | nil => exact absurd rfl more
  | cons next rest => rfl

theorem Below.lookupAs (below : Below entries root i)
    (found : FileTree.lookupAs key Node.dir? name (entries i) = some j) : Below entries root j := by
  obtain ⟨⟨name', node⟩, member, -, here⟩ := lookupAs_mem found
  cases node with
  | file content => cases here
  | dir k =>
    cases here
    exact below.step member

/-- What a path leads to is what its last name means in some directory. -/
theorem follow_last (below : Below entries root i) (found : follow key last entries names i = some r) :
    ∃ j, ∃ nonempty : names ≠ [], Below entries root j ∧
      last (names.getLast nonempty) (entries j) = some r := by
  induction names generalizing i with
  | nil => cases found
  | cons name rest ih =>
    cases rest with
    | nil => exact ⟨i, List.cons_ne_nil _ _, below, found⟩
    | cons next rest =>
      obtain ⟨j, step, further⟩ := Option.bind_eq_some_iff.mp found
      obtain ⟨k, nonempty, below', here⟩ := ih (below.lookupAs step) further
      exact ⟨k, List.cons_ne_nil _ _, below', here⟩

/-- Where files and directories have different names, a path leads to the file that it names. -/
theorem follow_unmixed (unmixed : Unmixed key entries root) (below : Below entries root i) :
    follow key (lookupAs key Node.file?) entries names i =
      (follow key (lookup key) entries names i).bind Node.file? := by
  induction names generalizing i with
  | nil => rfl
  | cons name rest ih =>
    cases rest with
    | nil => exact lookupAs_unmixed file?_typed (unmixed i below)
    | cons next rest =>
      rw [follow_next (List.cons_ne_nil _ _), follow_next (List.cons_ne_nil _ _)]
      cases step : FileTree.lookupAs key Node.dir? name (entries i) with
      | none => rfl
      | some j => exact ih (below.lookupAs step)

end

end FileTree
