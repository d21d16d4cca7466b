import Parthenope.CdromRead

/-! The entries of a System Use area as they lie in memory, and what a turn of the walk
makes of each kind. -/
namespace Parthenope.Cdrom
open CString Buffer StepLoop

/-- `sizeof (struct iso9660_susp_entry)` and `sizeof (struct iso9660_susp_ce)`. -/
def suspSize : Nat := 4
def ceSize : Nat := 28

variable {D : Type}

/-- The same machine with other bytes in the memory that `malloc` hands out. -/
def Host.holding (host : Host D) (stale : Nat → Byte) : Host D := { host with stale := stale }

/-- Machines that differ in the memory that `malloc` hands out only. -/
structure OtherHeap (host host' : Host D) : Prop where
  reads : host'.read = host.read
  allocates : host'.allocates = host.allocates

theorem holding_otherHeap (host : Host D) (stale stale' : Nat → Byte) :
    OtherHeap (host.holding stale) (host.holding stale') := ⟨rfl, rfl⟩

/-- The beginning of a walk over an area of the disc. -/
def areaWalk (disc : Word → Sector) (boot : Cache D) (block offset size : Word) : Walk D :=
  ⟨boot, slice (discByte disc block offset) 0 size.toNat, size, 0⟩

section
variable {host : Host D} {w : Walk D} {e e' : Nat → Byte} {sig : String} {n : Nat}

theorem signed_congr (same : ∀ i < n, e i = e' i) (enough : suspLen ≤ n) (sig : String) :
    signed e sig = signed e' sig := by
  have two : 2 ≤ n := enough
  have letters : slice e 0 2 = slice e' 0 2 := slice_congr fun i small => same _ (by omega)
  unfold signed
  rw [letters]

/-- An entry has one signature. -/
theorem signed_other (named : signed e sig = true) (sig' : String)
    (other : chars sig ≠ chars sig') : signed e sig' = false := by
  unfold signed at named ⊢
  rw [eq_of_beq named]
  exact beq_eq_false_iff_ne.mpr other

theorem myIteration_other (other : signed e sig = false) : myIteration sig e = none := by
  rw [myIteration, if_neg (Bool.eq_false_iff.mp other)]

theorem myIteration_found (named : signed e sig = true) :
    myIteration sig e = some (slice e 0 (e suspLen).toNat) := by
  rw [myIteration, if_pos named]

/-- A continuation area is where the CE entry says. -/
theorem entryTurn_area {α : Type} {disc : Word → Sector} (iterFunc : (Nat → Byte) → Option α)
    (serves : Serves host.read disc) (coherent : Coherent disc w.boot)
    (continued : signed (w.entry host) "CE" = true)
    (allocated : host.allocates (be32 (w.entry host) ceLen) = true) :
    ∃ boot', Coherent disc boot' ∧ entryTurn host iterFunc w = .inr
      (areaWalk disc boot' (be32 (w.entry host) ceBlk) (be32 (w.entry host) ceOff) (be32 (w.entry host) ceLen)) := by
  obtain ⟨boot', coherent', answer⟩ := cdromRead_serves serves coherent (be32 (w.entry host) ceBlk)
    (be32 (w.entry host) ceOff) (be32 (w.entry host) ceLen)
  exact ⟨boot', coherent', entryTurn_continues continued allocated ⟨rfl, rfl, rfl⟩ answer⟩

/-- What is found is a copy of an entry with the signature. -/
theorem entryTurn_found {boot : Cache D} {entry : List Byte}
    (found : entryTurn host (myIteration sig) w = .inl (boot, some entry)) :
    signed (w.entry host) sig = true ∧ entry = slice (w.entry host) 0 (w.entry host suspLen).toNat := by
  unfold entryTurn at found
  dsimp only at found
  split at found
  · split at found
    · split at found <;> cases found
    · cases found
  · split at found
    · cases found
    · split at found
      · rename_i copied
        cases found
        unfold myIteration at copied
        split at copied
        · rename_i named
          exact ⟨named, (Option.some.inj copied).symm⟩
        · cases copied
      · split at found <;> cases found

/-- Without an area that can be read nothing is found. -/
theorem getEntry_some {boot boot' : Cache D} {block offset size : Word} {entry : List Byte}
    (found : getEntry host boot block offset size sig n = some (boot', some entry)) :
    host.allocates size = true ∧ ∃ read sua, cdromRead host.read boot block offset size = (read, .ok sua) ∧
      run (entryTurn host (myIteration sig)) n ⟨read, sua, size, 0⟩ = some (boot', some entry) := by
  unfold getEntry iterateEntries at found
  cases allocated : host.allocates size with
  | false =>
    rw [allocated] at found
    cases found
  | true =>
    rw [allocated, if_pos rfl] at found
    rcases answer : cdromRead host.read boot block offset size with ⟨read, dest | sua⟩
    · rw [answer] at found
      cases found
    · rw [answer] at found
      exact ⟨rfl, read, sua, rfl, found⟩

end

/-- A disc with all there is in sector 17. -/
def directoryDisc (records : List Byte) (block : Word) : Sector := fun i =>
  if block = 17 then records.getD i 0 else 0

theorem directoryDisc_serves (records : List Byte) :
    Serves (steadyHost (directoryDisc records)).read (directoryDisc records) :=
  ⟨steady_faithful _, fun _ _ _ => rfl⟩

end Parthenope.Cdrom
