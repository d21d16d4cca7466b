import Mathlib.Data.Finite.Prod
import Mathlib.Data.Set.Finite.Range
import Mathlib.Order.Interval.Finset.Nat
import Parthenope.Cdrom
import Parthenope.NestedLoop

/-! Whether the walk of the System Use entries ends. Within an area every entry that
is passed over must lead further; from area to area no continuation may come back.
A drive with finitely many states gives the walk finitely many. -/
namespace Parthenope.Cdrom
open CString Buffer StepLoop

variable {D : Type}

instance [Finite D] : Finite (Cache D) := by
  let parts (boot : Cache D) := (boot.phys, boot.tmpbuf, boot.sectorInBuf, boot.filled)
  refine Finite.of_injective parts ?_
  rintro ⟨_, _, _, _⟩ ⟨_, _, _, _⟩ same
  cases same
  rfl

/-- A walk that gets on: no entry it passes over has length zero, and no continuation
area leads back to the CE entry it came from. -/
structure Advances (host : Host D) {α : Type} (iterFunc : (Nat → Byte) → Option α) (w : Walk D) : Prop where
  further : ∀ t u, Reaches (entryTurn host iterFunc) w t → entryTurn host iterFunc t = .inr u →
    signed (t.entry host) "CE" = false → t.entry host suspLen ≠ 0
  onward : ∀ t u, Reaches (entryTurn host iterFunc) w t → entryTurn host iterFunc t = .inr u →
    signed (t.entry host) "CE" = true → ¬Reaches (entryTurn host iterFunc) u t

section
variable {host : Host D} {α : Type} {iterFunc : (Nat → Byte) → Option α} {w t u : Walk D}

/-- A walk passes through finitely many states. -/
theorem walk_finite [Finite D] : {t | Reaches (entryTurn host iterFunc) w t}.Finite := by
  let areas : Set (List Byte) := {w.sua} ∪
    Set.range fun r : Cache D × Word × Word × Word => written (cdromRead host.read r.1 r.2.1 r.2.2.1 r.2.2.2).2
  let parts (t : Walk D) := (t.boot, t.sua, t.size, t.ptr)
  have injective : Function.Injective parts := by
    rintro ⟨_, _, _, _⟩ ⟨_, _, _, _⟩ same
    cases same
    rfl
  have finite : (Set.univ ×ˢ areas ×ˢ Set.univ ×ˢ Set.Iic (w.ptr + 2 ^ 32) :
      Set (Cache D × List Byte × Word × Nat)).Finite :=
    Set.finite_univ.prod (((Set.finite_singleton _).union (Set.finite_range _)).prod
      (Set.finite_univ.prod (Set.finite_Iic _)))
  refine (finite.preimage injective.injOn).subset fun t reached => ?_
  have bounded : t.sua ∈ areas ∧ t.ptr ≤ w.ptr + 2 ^ 32 := by
    refine reached.invariant (fun t => t.sua ∈ areas ∧ t.ptr ≤ w.ptr + 2 ^ 32) ?_
      ⟨.inl rfl, Nat.le_add_right _ _⟩
    rintro s t ⟨known, -⟩ next
    rcases entryTurn_next next with ⟨-, zero, answer⟩ | ⟨-, -, inside, same⟩
    · let call := (s.boot, be32 (s.entry host) ceBlk, be32 (s.entry host) ceOff, t.size)
      exact ⟨.inr ⟨call, congrArg (fun r => written r.2) answer⟩, zero ▸ Nat.zero_le _⟩
    · have := s.size.isLt
      refine ⟨?_, by omega⟩
      rw [same]
      exact known
  exact ⟨Set.mem_univ _, bounded.1, Set.mem_univ _, bounded.2⟩

/-- On the way to a state a walk comes by a CE entry, or it stays in its area. -/
theorem reaches_in_area (reached : Reaches (entryTurn host iterFunc) u t) :
    (∃ v v', Reaches (entryTurn host iterFunc) u v ∧ signed (v.entry host) "CE" = true ∧
      entryTurn host iterFunc v = .inr v' ∧ Reaches (entryTurn host iterFunc) v' t) ∨ u.ptr ≤ t.ptr := by
  induction reached with
  | start => exact .inr le_rfl
  | turn before turns ih =>
    rcases ih with ⟨v, v', comes, continued, next, after⟩ | below
    · exact .inl ⟨v, v', comes, continued, next, after.turn turns⟩
    · rcases entryTurn_next turns with ⟨continued, -, -⟩ | ⟨-, further, -, -⟩
      · exact .inl ⟨_, _, before, continued, turns, .start _⟩
      · exact .inr (by omega)

/-- A walk ends if and only if it gets on. -/
theorem walk_ends_iff [Finite D] :
    (∃ n r, run (entryTurn host iterFunc) n w = some r) ↔ Advances host iterFunc w := by
  rw [ends_iff_forward walk_finite]
  constructor
  · intro forward
    refine ⟨?_, fun t u reached next _ => forward t u reached next⟩
    intro t u reached next plain zero
    rcases entryTurn_next next with ⟨continued, -, -⟩ | ⟨-, place, -, same⟩
    · rw [continued] at plain
      cases plain
    · have still : u = t := by
        rw [zero] at place
        rw [same, place]
        rfl
      exact forward t u reached next (still ▸ .start u)
  · intro advances t u reached next back
    by_cases continued : signed (t.entry host) "CE" = true
    · exact advances.onward t u reached next continued back
    · have plain := Bool.eq_false_iff.mpr continued
      have some := advances.further t u reached next plain
      rcases entryTurn_next next with ⟨continued', -, -⟩ | ⟨-, place, -, -⟩
      · exact continued continued'
      · rcases reaches_in_area back with ⟨v, v', comes, ce, away, after⟩ | below
        · exact advances.onward v v' ((reached.turn next).trans comes) away ce
            ((after.turn next).trans comes)
        · have positive : (t.entry host suspLen).toNat ≠ 0 := by
            intro zero
            exact some (BitVec.eq_of_toNat_eq zero)
          omega

end

/-- The walk for an entry gets on, if the area can be read at all. -/
def Settles (host : Host D) (boot : Cache D) (block offset size : Word) (sig : String) : Prop :=
  ∀ boot' sua, host.allocates size = true → cdromRead host.read boot block offset size = (boot', .ok sua) →
    Advances host (myIteration sig) ⟨boot', sua, size, 0⟩

section
variable {host : Host D} {dev : CdromBootDev D} {boot : Cache D} {block offset size : Word} {sig : String}
  {place fuel more : Nat} {dirent : Nat → Byte} {r : Cache D × Option (List Byte)}

theorem getEntry_ends_iff [Finite D] :
    (∃ fuel r, getEntry host boot block offset size sig fuel = some r) ↔
      Settles host boot block offset size sig := by
  unfold getEntry iterateEntries Settles
  cases host.allocates size with
  | false => simp
  | true =>
    rcases cdromRead host.read boot block offset size with ⟨boot', dest | sua⟩
    · simp
    · have same : (∃ n r, run (entryTurn host (myIteration sig)) n ⟨boot', sua, size, 0⟩ = some r) ↔
          Advances host (myIteration sig) ⟨boot', sua, size, 0⟩ := walk_ends_iff
      constructor
      · intro ends boot₁ sua₁ _ read
        cases read
        exact same.mp ends
      · intro settles
        exact same.mpr (settles boot' sua rfl rfl)

theorem getEntry_more (found : getEntry host boot block offset size sig fuel = some r)
    (enough : fuel ≤ more) : getEntry host boot block offset size sig more = some r := by
  unfold getEntry iterateEntries at found ⊢
  cases allocates : host.allocates size with
  | false =>
    rw [allocates] at found
    exact found
  | true =>
    rw [allocates] at found
    rcases answer : cdromRead host.read boot block offset size with ⟨boot', dest | sua⟩
    · rw [answer] at found
      exact found
    · rw [answer] at found
      exact run_mono found enough

/-- A search has one result. -/
theorem getEntry_unique {fuel' : Nat} {r' : Cache D × Option (List Byte)}
    (found : getEntry host boot block offset size sig fuel = some r)
    (found' : getEntry host boot block offset size sig fuel' = some r') : r = r' := by
  have one := getEntry_more found (le_max_left fuel fuel')
  have two := getEntry_more found' (le_max_right fuel fuel')
  rw [one] at two
  exact Option.some.inj two

theorem recordName_ends_iff [Finite D] :
    (∃ fuel r, recordName host dev boot block place dirent fuel = some r) ↔
      (dev.rr = true → Settles host boot block
        (BitVec.ofNat 32 (suaStart dirent + (place + dev.suspSkip.toNat))) (suaSize dirent) "NM") := by
  unfold recordName
  cases dev.rr with
  | false => simp
  | true =>
    rw [← getEntry_ends_iff]
    constructor
    · rintro ⟨fuel, r, named⟩ -
      obtain ⟨step, searched, -⟩ := Option.map_eq_some_iff.mp named
      obtain ⟨found, got, -⟩ := Option.map_eq_some_iff.mp searched
      exact ⟨fuel, found, got⟩
    · intro ends
      obtain ⟨fuel, found, got⟩ := ends rfl
      exact ⟨fuel, _, Option.map_eq_some_iff.mpr ⟨_, Option.map_eq_some_iff.mpr ⟨found, got, rfl⟩, rfl⟩⟩

theorem recordName_more (named : recordName host dev boot block place dirent fuel = some r)
    (enough : fuel ≤ more) : recordName host dev boot block place dirent more = some r := by
  unfold recordName at named ⊢
  cases rr : dev.rr with
  | false =>
    rw [rr] at named
    exact named
  | true =>
    rw [rr] at named
    obtain ⟨step, searched, same⟩ := Option.map_eq_some_iff.mp named
    obtain ⟨found, got, made⟩ := Option.map_eq_some_iff.mp searched
    exact Option.map_eq_some_iff.mpr
      ⟨step, Option.map_eq_some_iff.mpr ⟨found, getEntry_more got enough, made⟩, same⟩

end

end Parthenope.Cdrom
