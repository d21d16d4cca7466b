import Parthenope.CdromEntries
import Parthenope.CdromWalk

/-! The order in which the entries of a System Use area follow each other, against the
order of the walk. A CE entry says where the area goes on behind its last entry;
`iterate_entries` goes there at once and does not come back. -/
namespace Parthenope.Cdrom
open CString Buffer StepLoop

/-- An entry that is as long as it says. -/
structure SuspEntry where
  bytes : List Byte
  large : suspSize ≤ bytes.length
  whole : (contents (fun _ => 0) bytes suspLen).toNat = bytes.length

def SuspEntry.view (e : SuspEntry) : Nat → Byte := contents (fun _ => 0) e.bytes

/-- The entries of an area, and what is behind the last of them unless that is an ST entry. -/
inductive Entries : List Byte → List SuspEntry → Option (List Byte) → Prop
  | rest {bytes : List Byte} : bytes.length < suspSize → Entries bytes [] (some bytes)
  | stop {e : SuspEntry} {behind : List Byte} : signed e.view "ST" = true → Entries (e.bytes ++ behind) [] none
  | entry {e : SuspEntry} {bytes : List Byte} {es : List SuspEntry} {rest : Option (List Byte)} :
      signed e.view "ST" = false → Entries bytes es rest → Entries (e.bytes ++ bytes) (e :: es) rest

structure SuspArea where
  entries : List SuspEntry
  rest : Option (List Byte)

/-- The area lies on the disc. -/
def SuspArea.On (area : SuspArea) (disc : Word → Sector) (block offset size : Word) : Prop :=
  Entries (slice (discByte disc block offset) 0 size.toNat) area.entries area.rest

/-- An entry in the order of the standard. `behindCe` says that a CE entry comes before
it in an area on the way to it. -/
structure Placed where
  entry : SuspEntry
  behindCe : Bool

def hidden (sequence : List Placed) : List Placed := sequence.map fun e => { e with behindCe := true }

/-- The entries of an area from some entry on, those of its continuations, and the area
in which the walk ends. The continuation follows the whole of the area; should there be
another CE entry, its continuation follows that. -/
inductive Follows (disc : Word → Sector) :
    SuspArea → List SuspEntry → List Placed → List Placed → SuspArea → Prop
  | done {area : SuspArea} : Follows disc area [] [] [] area
  | entry {area last : SuspArea} {e : SuspEntry} {es : List SuspEntry} {own further : List Placed} :
      signed e.view "CE" = false → Follows disc area es own further last →
      Follows disc area (e :: es) (⟨e, false⟩ :: own) further last
  | continued {area area' last last' : SuspArea} {e : SuspEntry} {es : List SuspEntry}
      {own own' further further' : List Placed} :
      signed e.view "CE" = true → ceSize ≤ e.bytes.length →
      area'.On disc (be32 e.view ceBlk) (be32 e.view ceOff) (be32 e.view ceLen) →
      Follows disc area' area'.entries own' further' last' → Follows disc area es own further last →
      Follows disc area (e :: es) (hidden own) (own' ++ further' ++ hidden further) last'

/-- The logical sequence of a well-formed area. -/
def LogicalOrder (disc : Word → Sector) (block offset size : Word) (sequence : List Placed) (last : SuspArea) :
    Prop :=
  ∃ area own further, SuspArea.On area disc block offset size ∧
    Follows disc area area.entries own further last ∧ sequence = own ++ further

/-- The first entry with a signature. -/
def firstSigned (sig : String) (sequence : List Placed) : Option SuspEntry :=
  (sequence.find? fun e => signed e.entry.view sig).map Placed.entry

/-- What no CE entry comes before. -/
def unhidden (sequence : List Placed) : List Placed := sequence.filter fun e => !e.behindCe

/-- What the loop takes for an entry behind the last one: two bytes or three, and fewer
where there is no entry at all. -/
def SuspArea.misread (area : SuspArea) : Option (List Byte) :=
  area.rest.filter fun rest => area.entries.isEmpty || 2 ≤ rest.length

/-- Bytes too few for an entry that the loop passes over or ends at, whatever is behind
them in memory. -/
def Harmless (sig : String) : List Byte → Prop
  | [a] => [a] ≠ (chars "CE").take 1 ∧ [a] ≠ (chars sig).take 1
  | [a, b] => [a, b] = chars "ST"
  | [a, b, len] => [a, b] = chars "ST" ∨ [a, b] ≠ chars "CE" ∧ [a, b] ≠ chars sig ∧ 1 < len.toNat
  | _ => False

/-- The first entry with the signature is not hidden, or is the same as the first that is
not; where all that are not have another one, the walk ends in an area that it leaves. -/
structure FirstUnhidden (sig : String) (sequence : List Placed) (last : SuspArea) : Prop where
  same : (firstSigned sig sequence).map SuspEntry.bytes = (firstSigned sig (unhidden sequence)).map SuspEntry.bytes
  leaves : firstSigned sig (unhidden sequence) = none → ∀ rest, last.misread = some rest → Harmless sig rest

section
variable {D : Type} {host : Host D} {disc : Word → Sector} {w t : Walk D} {sig : String} {area last : SuspArea}
  {es : List SuspEntry} {e : SuspEntry} {bytes front more : List Byte} {own further sequence : List Placed} {n : Nat}

private theorem unhidden_append (first rest : List Placed) :
    unhidden (first ++ rest) = unhidden first ++ unhidden rest :=
  List.filter_append ..

private theorem unhidden_hidden (sequence : List Placed) : unhidden (hidden sequence) = [] := by
  rw [unhidden, List.filter_eq_nil_iff]
  intro e member
  obtain ⟨e', -, rfl⟩ := List.mem_map.mp member
  simp

private theorem firstSigned_cons (e : Placed) (sequence : List Placed) :
    firstSigned sig (e :: sequence) =
      if signed e.entry.view sig then some e.entry else firstSigned sig sequence := by
  unfold firstSigned
  cases named : signed e.entry.view sig with
  | true => rw [List.find?_cons_of_pos (by exact named), if_pos rfl, Option.map_some]
  | false => rw [List.find?_cons_of_neg (by simp [named]), if_neg (by simp)]

private theorem entries_large (entries : Entries bytes (e :: es) area.rest) : suspSize ≤ bytes.length := by
  cases entries with
  | entry _ _ =>
    rw [List.length_append]
    exact Nat.le_add_right_of_le e.large

/-- What is ahead of `ptr` in an area that has been read. -/
structure Stands (w : Walk D) (bytes : List Byte) : Prop where
  ahead : w.sua.drop w.ptr = bytes
  size : w.sua.length = w.size.toNat
  inside : w.ptr ≤ w.sua.length

theorem Stands.length (stands : Stands w bytes) : w.ptr + bytes.length = w.size.toNat := by
  have inside := stands.inside
  rw [← stands.ahead, List.length_drop, ← stands.size]
  omega

private theorem areaWalk_stands (disc : Word → Sector) (boot : Cache D) (block offset size : Word) :
    Stands (areaWalk disc boot block offset size) (slice (discByte disc block offset) 0 size.toNat) :=
  ⟨rfl, slice_length, Nat.zero_le _⟩

/-- The bytes ahead are what the loop sees. -/
theorem Stands.entry (stands : Stands w (front ++ more)) (host : Host D) :
    ∀ i < front.length, w.entry host i = contents (fun _ => 0) front i := by
  intro i inside
  have ahead := stands.ahead
  have place : w.sua[w.ptr + i]? = front[i]? := by
    rw [← List.getElem?_drop, ahead, List.getElem?_append_left inside]
  rw [Walk.entry, contents, contents, List.getD_eq_getElem?_getD, List.getD_eq_getElem?_getD, place,
    List.getElem?_eq_getElem inside]
  rfl

theorem Stands.behind (stands : Stands w (front ++ more)) :
    Stands { w with ptr := w.ptr + front.length } more := by
  have length := stands.length
  have inside := stands.inside
  have size := stands.size
  rw [List.length_append] at length
  refine ⟨?_, size, ?_⟩
  · show w.sua.drop (w.ptr + front.length) = more
    rw [← List.drop_drop, stands.ahead, List.drop_left]
  · show w.ptr + front.length ≤ w.sua.length
    omega

private theorem Stands.signature (stands : Stands w (e.bytes ++ more)) (host : Host D) (sig : String) :
    signed (w.entry host) sig = signed e.view sig :=
  signed_congr (stands.entry host) (Nat.le_trans (by decide) e.large) sig

private theorem Stands.entry_length (stands : Stands w (e.bytes ++ more)) (host : Host D) :
    (w.entry host suspLen).toNat = e.bytes.length := by
  rw [stands.entry host suspLen (Nat.lt_of_lt_of_le (by decide) e.large)]
  exact e.whole

theorem Stands.copy (stands : Stands w (front ++ more)) (host : Host D) :
    slice (w.entry host) 0 front.length = front := by
  refine List.ext_getElem slice_length fun i _ inside => ?_
  simp only [slice, List.getElem_map, List.getElem_range, Nat.zero_add, stands.entry host i inside]
  exact contents_lt inside

/-- Where the walk leads: to the entry found, or to the end of the area that is the last,
past it or to what it takes for one more entry. -/
def Leads (host : Host D) (disc : Word → Sector) (sig : String) (last : SuspArea) (w : Walk D) :
    Option SuspEntry → Prop
  | some e => ∃ n boot, run (entryTurn host (myIteration sig)) n w = some (boot, some e.bytes)
  | none =>
    (last.misread = none ∧ ∃ n boot, run (entryTurn host (myIteration sig)) n w = some (boot, none)) ∨
    ∃ rest t, last.misread = some rest ∧ rest.length < suspSize ∧
      Reaches (entryTurn host (myIteration sig)) w t ∧ Coherent disc t.boot ∧ Stands t rest ∧
        (t.ptr = 0 ∨ 2 ≤ rest.length)

theorem Leads.before {found : Option SuspEntry} (turns : entryTurn host (myIteration sig) w = .inr t)
    (leads : Leads host disc sig last t found) : Leads host disc sig last w found := by
  cases found with
  | some e =>
    obtain ⟨n, boot, runs⟩ := leads
    exact ⟨n + 1, boot, (run_turns turns).trans runs⟩
  | none =>
    rcases leads with ⟨past, n, boot, runs⟩ | ⟨rest, u, misread, short, reached, further⟩
    · exact .inl ⟨past, n + 1, boot, (run_turns turns).trans runs⟩
    · exact .inr ⟨rest, u, misread, short, reached.before turns, further⟩

/-- From an entry of a well-formed area on, the walk leads to the first entry with the
signature that is not hidden. -/
theorem walk_leads (host : Host D) (serves : Serves host.read disc) (memory : ∀ n, host.allocates n = true)
    (follows : Follows disc area es own further last) (entries : Entries bytes es area.rest)
    (suffix : es <:+ area.entries) (stands : Stands w bytes) (coherent : Coherent disc w.boot)
    (visited : area.entries = [] ∧ w.ptr = 0 ∨ 2 ≤ bytes.length) :
    Leads host disc sig last w (firstSigned sig (unhidden (own ++ further))) := by
  induction follows generalizing w bytes with
  | @done area =>
    cases rest : area.rest with
    | none =>
      rw [rest] at entries
      cases entries with
      | @stop e behind stops =>
        have turn : entryTurn host (myIteration sig) w = .inl (w.boot, none) := by
          apply entryTurn_stops
          · exact signed_other ((stands.signature host "ST").trans stops) "CE" (by decide)
          · exact (stands.signature host "ST").trans stops
        exact .inl ⟨by rw [SuspArea.misread, rest]; rfl, 1, w.boot, run_ends turn⟩
    | some left =>
      rw [rest] at entries
      cases entries with
      | rest short =>
        refine .inr ⟨bytes, w, ?_, short, .start w, coherent, stands, visited.imp And.right id⟩
        rw [SuspArea.misread, rest, Option.filter_some, if_pos]
        rcases visited with ⟨none, -⟩ | two
        · simp [none]
        · simp [two]
  | @entry area last e es own further plain follows ih =>
    have decided : unhidden (⟨e, false⟩ :: own ++ further) = ⟨e, false⟩ :: unhidden (own ++ further) := rfl
    rw [decided, firstSigned_cons]
    have some : area.entries ≠ [] := by
      rintro none
      rw [none] at suffix
      cases List.suffix_nil.mp suffix
    have suffix := (List.suffix_cons e es).trans suffix
    generalize left : area.rest = rest at entries
    cases entries with
    | @entry _ more _ _ goes behind =>
      have signature := stands.signature host
      cases named : signed e.view sig with
      | true =>
        rw [if_pos rfl]
        have finds := myIteration_found ((signature sig).trans named)
        rw [stands.entry_length host, stands.copy host] at finds
        have turn := entryTurn_finds ((signature "CE").trans plain) ((signature "ST").trans goes) finds
        exact ⟨1, w.boot, run_ends turn⟩
      | false =>
        rw [if_neg Bool.false_ne_true]
        have turn := entryTurn_passes ((signature "CE").trans plain) ((signature "ST").trans goes)
          (myIteration_other ((signature sig).trans named))
        have length := stands.length
        rw [List.length_append] at length
        rw [stands.entry_length host] at turn
        by_cases two : 2 ≤ more.length
        · rw [if_pos (by omega)] at turn
          exact Leads.before turn (ih (left ▸ behind) suffix stands.behind coherent (.inr two))
        · -- Less than two bytes are no entry, so that this one was the last.
          rw [if_neg (by omega)] at turn
          cases behind with
          | rest short =>
            cases follows with
            | done =>
              refine .inl ⟨?_, 1, w.boot, run_ends turn⟩
              rw [SuspArea.misread, left, Option.filter_some, if_neg]
              simp [some, two]
          | @stop e' =>
            rw [List.length_append] at two
            exact absurd (Nat.le_trans (by decide) (Nat.le_add_right_of_le e'.large)) two
          | @entry e' =>
            rw [List.length_append] at two
            exact absurd (Nat.le_trans (by decide) (Nat.le_add_right_of_le e'.large)) two
  | @continued area area' last last' e es own own' further further' continued whole on inner _ ih _ =>
    cases entries with
    | @entry _ more _ _ goes behind =>
      have signature := stands.signature host
      have fields : ∀ i < e.bytes.length, w.entry host i = e.view i := stands.entry host
      have block := be32_congr (m := ceBlk) fields (Nat.le_trans (by decide) whole)
      have offset := be32_congr (m := ceOff) fields (Nat.le_trans (by decide) whole)
      have length := be32_congr (m := ceLen) fields (Nat.le_trans (by decide) whole)
      obtain ⟨boot', coherent', turn⟩ := entryTurn_area (myIteration sig) serves coherent
        ((signature "CE").trans continued) (memory _)
      rw [block, offset, length] at turn
      have same : unhidden (hidden own ++ (own' ++ further' ++ hidden further)) = unhidden (own' ++ further') := by
        simp only [unhidden_append, unhidden_hidden, List.nil_append, List.append_nil]
      rw [same]
      refine Leads.before turn (ih on List.suffix_rfl (areaWalk_stands ..) coherent' ?_)
      cases none : area'.entries with
      | nil => exact .inl ⟨rfl, rfl⟩
      | cons e' es' =>
        rw [SuspArea.On, none] at on
        exact .inr (Nat.le_trans (by decide) (entries_large on))

private theorem signed_letters (e : Nat → Byte) (sig : String) : signed e sig = ([e 0, e 1] == chars sig) := rfl

theorem Stands.byte (stands : Stands w bytes) (host : Host D) :
    ∀ i < bytes.length, w.entry host i = contents (fun _ => 0) bytes i :=
  Stands.entry ((List.append_nil bytes).symm ▸ stands) host

/-- Two bytes that are left are the signature of what the loop reads there. -/
theorem Stands.letters {a b : Byte} {left : List Byte} (stands : Stands w (a :: b :: left)) (host : Host D)
    (sig : String) : signed (w.entry host) sig = ([a, b] == chars sig) := by
  rw [signed_letters, stands.byte host 0 (Nat.zero_lt_succ _),
    stands.byte host 1 (Nat.succ_lt_succ (Nat.zero_lt_succ _))]
  rfl

private theorem Stands.unsigned {a b : Byte} {left : List Byte} (stands : Stands w (a :: b :: left)) (host : Host D)
    (other : [a, b] ≠ chars sig) : signed (w.entry host) sig = false :=
  (stands.letters host sig).trans (beq_eq_false_iff_ne.mpr other)

/-- The loop leaves an area that ends in harmless bytes. -/
theorem harmless_leaves (harmless : Harmless sig bytes) (stands : Stands w bytes)
    (visited : w.ptr = 0 ∨ 2 ≤ bytes.length) :
    ∃ n boot, run (entryTurn host (myIteration sig)) n w = some (boot, none) := by
  have length := stands.length
  have byte := stands.byte host
  -- An ST entry ends the loop; where there is none, neither may be a CE entry nor another.
  have leaves (plain : signed (w.entry host) "ST" = false → signed (w.entry host) "CE" = false ∧
      signed (w.entry host) sig = false ∧ w.size.toNat ≤ w.ptr + (w.entry host suspLen).toNat + 1) :
      ∃ n boot, run (entryTurn host (myIteration sig)) n w = some (boot, none) := by
    cases stops : signed (w.entry host) "ST" with
    | true =>
      have continued := signed_other stops "CE" (by decide)
      exact ⟨1, w.boot, run_ends (entryTurn_stops continued stops)⟩
    | false =>
      obtain ⟨continued, named, past⟩ := plain stops
      have turn := entryTurn_passes continued stops (myIteration_other named)
      rw [if_neg (by omega)] at turn
      exact ⟨1, w.boot, run_ends turn⟩
  match bytes, harmless with
  | [a], ⟨other, other'⟩ =>
    have first : w.entry host 0 = a := byte 0 (by simp)
    have place : w.ptr = 0 := visited.resolve_right (by simp)
    apply leaves
    intro goes
    refine ⟨?_, ?_, ?_⟩
    · rw [signed_letters, first]
      exact beq_eq_false_iff_ne.mpr fun same => other (congrArg (List.take 1) same)
    · rw [signed_letters, first]
      exact beq_eq_false_iff_ne.mpr fun same => other' (congrArg (List.take 1) same)
    · simp only [List.length_singleton] at length
      omega
  | [a, b], stops =>
    apply leaves
    intro goes
    rw [stands.letters host] at goes
    exact absurd stops (beq_eq_false_iff_ne.mp goes)
  | [a, b, len], harmless =>
    have third : w.entry host suspLen = len := byte 2 (by simp)
    apply leaves
    intro goes
    rw [stands.letters host] at goes
    obtain ⟨other, other', large⟩ := harmless.resolve_left (beq_eq_false_iff_ne.mp goes)
    refine ⟨stands.unsigned host other, stands.unsigned host other', ?_⟩
    simp only [List.length_cons, List.length_nil] at length
    rw [third]
    omega

/-- Memory that holds a CE entry whose area is empty. -/
def echo (i : Nat) : Byte := (chars "CE").getD i 0

/-- In an empty area such memory is read for ever. -/
theorem echo_forever (serves : Serves host.read disc) (memory : ∀ n, host.allocates n = true)
    (echoes : host.stale = echo) (coherent : Coherent disc w.boot) (empty : w.sua = []) (start : w.ptr = 0) :
    run (entryTurn host (myIteration sig)) n w = none := by
  let Inv (w : Walk D) : Prop := Coherent disc w.boot ∧ w.sua = [] ∧ w.ptr = 0
  refine run_forever Inv ?_ ⟨coherent, empty, start⟩
  rintro w ⟨coherent, empty, start⟩
  have entry : w.entry host = echo := by
    funext i
    rw [Walk.entry, empty, start, echoes, Nat.zero_add]
    rfl
  have continued : signed (w.entry host) "CE" = true := by
    rw [entry]
    decide
  obtain ⟨boot', coherent', turns⟩ := entryTurn_area (myIteration sig) serves coherent continued (memory _)
  rw [entry] at turns
  exact ⟨_, turns, coherent', rfl, rfl⟩

/-- What is found in memory is not found in the area. -/
theorem found_wrong {boot boot' : Cache D} {copy : List Byte} {expected : Option (List Byte)}
    (finds : entryTurn host (myIteration sig) w = .inl (boot, some copy)) (wrong : some copy ≠ expected) :
    run (entryTurn host (myIteration sig)) n w ≠ some (boot', expected) := by
  intro runs
  cases n with
  | zero => cases runs
  | succ n =>
    rw [run_ends finds] at runs
    cases runs
    exact wrong rfl

/-- No entry is as short as a copy of less than four bytes. -/
theorem short_copy (view : Nat → Byte) (small : n < suspSize) (expected : Option SuspEntry) :
    some (slice view 0 n) ≠ expected.map SuspEntry.bytes := by
  intro same
  obtain ⟨e, -, copy⟩ := Option.map_eq_some_iff.mp same.symm
  have large := e.large
  rw [copy, slice_length] at large
  omega

private theorem echo_behind (echoes : host.stale = echo) (stands : Stands w bytes) {i : Nat} (behind : bytes.length ≤ i)
    (past : 2 ≤ w.ptr + i) : w.entry host i = 0 := by
  have length := stands.length
  have size := stands.size
  have none : echo (w.ptr + i) = 0 := List.getD_eq_default _ _ past
  rw [Walk.entry, contents, List.getD_eq_default _ _ (by omega), echoes, none]

/-- A CE entry at the end of an area leads to an empty area. -/
theorem echo_follows (serves : Serves host.read disc) (memory : ∀ n, host.allocates n = true)
    (echoes : host.stale = echo) (coherent : Coherent disc w.boot) (stands : Stands w bytes)
    (short : bytes.length < suspSize) (continued : signed (w.entry host) "CE" = true) :
    run (entryTurn host (myIteration sig)) n w = none := by
  have zero (i : Nat) (behind : ceBlk ≤ i) : w.entry host i = 0 := by
    have small : bytes.length < 4 := short
    have eight : 8 ≤ i := behind
    exact echo_behind echoes stands (by omega) (by omega)
  have field (m : Nat) (behind : ceBlk ≤ m) : be32 (w.entry host) m = 0 := by
    rw [be32, zero m behind, zero (m + 1) (by omega), zero (m + 2) (by omega), zero (m + 3) (by omega)]
    rfl
  obtain ⟨boot', coherent', turns⟩ := entryTurn_area (myIteration sig) serves coherent continued (memory _)
  rw [field ceBlk (by decide), field ceOff (by decide), field ceLen (by decide)] at turns
  cases n with
  | zero => rfl
  | succ n =>
    rw [run_turns turns]
    exact echo_forever serves memory echoes coherent' rfl rfl

/-- Two bytes that are no ST entry have a length of zero behind them in such memory. -/
theorem echo_two {a b : Byte} {boot : Cache D} (serves : Serves host.read disc)
    (memory : ∀ n, host.allocates n = true) (echoes : host.stale = echo) (coherent : Coherent disc w.boot)
    (stands : Stands w [a, b]) (goes : [a, b] ≠ chars "ST") (expected : Option SuspEntry) :
    run (entryTurn host (myIteration sig)) n w ≠ some (boot, expected.map SuspEntry.bytes) := by
  have length : w.entry host suspLen = 0 := echo_behind echoes stands (Nat.le_refl 2) (Nat.le_add_left _ _)
  have goes := stands.unsigned host goes
  cases continued : signed (w.entry host) "CE" with
  | true =>
    rw [echo_follows serves memory echoes coherent stands (by simp [suspSize]) continued]
    exact (Option.some_ne_none _).symm
  | false =>
    cases named : signed (w.entry host) sig with
    | true =>
      refine found_wrong (entryTurn_finds continued goes (myIteration_found named)) ?_
      rw [length]
      exact short_copy _ (by decide) expected
    | false =>
      have turn := entryTurn_passes continued goes (myIteration_other named)
      have size := stands.length
      have zero : (0 : Byte).toNat = 0 := rfl
      simp only [List.length_cons, List.length_nil] at size
      rw [length, zero, if_pos (by omega)] at turn
      rw [run_stuck (.start w) turn]
      exact (Option.some_ne_none _).symm

/-- A signature of which an area has only the first letter may be completed by memory. -/
theorem completed_wrong {a b : Byte} {boot : Cache D} (letters : chars sig = [a, b])
    (other : chars sig ≠ chars "CE") (other' : chars sig ≠ chars "ST")
    (completes : host.stale = fun i => if i = 1 then b else 0) (stands : Stands w [a]) (start : w.ptr = 0)
    (expected : Option SuspEntry) :
    run (entryTurn host (myIteration sig)) n w ≠ some (boot, expected.map SuspEntry.bytes) := by
  have first : w.entry host 0 = a := stands.byte host 0 (by simp)
  have behind (i : Nat) (behind : 1 ≤ i) : w.entry host i = if i = 1 then b else 0 := by
    have size := stands.size
    have length := stands.length
    simp only [List.length_singleton] at length
    rw [Walk.entry, contents, List.getD_eq_default _ _ (by omega), completes, start, Nat.zero_add]
  have named : signed (w.entry host) sig = true := by
    rw [signed_letters, first, behind 1 le_rfl, if_pos rfl, letters]
    exact BEq.rfl
  have length : w.entry host suspLen = 0 := behind 2 (by decide)
  refine found_wrong (entryTurn_finds (signed_other named "CE" other) (signed_other named "ST" other')
    (myIteration_found named)) ?_
  rw [length]
  exact short_copy _ (by decide) expected

/-- A copy that ends behind the area is not always the same. -/
theorem copied_wrong {a b len : Byte} {boot : Cache D} {expected : Option SuspEntry}
    (letters : [a, b] = chars sig) (other : chars sig ≠ chars "CE") (other' : chars sig ≠ chars "ST")
    (differs : ∀ i, host.stale i = (expected.elim 0 fun e => e.view 3) + 1) (stands : Stands w [a, b, len]) :
    run (entryTurn host (myIteration sig)) n w ≠ some (boot, expected.map SuspEntry.bytes) := by
  have named : signed (w.entry host) sig = true := (stands.letters host sig).trans (beq_iff_eq.mpr letters)
  refine found_wrong (entryTurn_finds (signed_other named "CE" other) (signed_other named "ST" other')
    (myIteration_found named)) fun same => ?_
  obtain ⟨e, rfl, copy⟩ := Option.map_eq_some_iff.mp same.symm
  have large := e.large
  have four : 3 < e.bytes.length := large
  have fourth : e.view 3 = w.entry host 3 := by
    rw [SuspEntry.view, contents_lt four]
    simp [copy, slice]
  have stale : w.entry host 3 = e.view 3 + 1 := by
    have size := stands.size
    have length := stands.length
    simp only [List.length_cons, List.length_nil] at length
    rw [Walk.entry, contents, List.getD_eq_default _ _ (by omega), differs]
    rfl
  rw [fourth] at stale
  generalize w.entry host 3 = c at stale
  revert c
  decide

/-- Three bytes that are neither an ST entry nor one with the signature are passed over
only if their length leads past them. -/
theorem echo_three {a b len : Byte} {boot : Cache D} (serves : Serves host.read disc)
    (memory : ∀ n, host.allocates n = true) (echoes : host.stale = echo) (coherent : Coherent disc w.boot)
    (stands : Stands w [a, b, len]) (goes : [a, b] ≠ chars "ST")
    (passes : [a, b] ≠ chars "CE" → [a, b] ≠ chars sig ∧ len.toNat ≤ 1) (expected : Option SuspEntry) :
    run (entryTurn host (myIteration sig)) n w ≠ some (boot, expected.map SuspEntry.bytes) := by
  have third : w.entry host suspLen = len := stands.byte host 2 (by simp)
  have goes := stands.unsigned host goes
  cases continued : signed (w.entry host) "CE" with
  | true =>
    rw [echo_follows serves memory echoes coherent stands (by simp [suspSize]) continued]
    exact (Option.some_ne_none _).symm
  | false =>
    obtain ⟨other, small⟩ := passes (beq_eq_false_iff_ne.mp ((stands.letters host "CE").symm.trans continued))
    have named := stands.unsigned host other
    have turn := entryTurn_passes continued goes (myIteration_other named)
    have size := stands.length
    simp only [List.length_cons, List.length_nil] at size
    rw [third, if_pos (by omega)] at turn
    rcases Nat.le_one_iff_eq_zero_or_eq_one.mp small with zero | one
    · rw [zero] at turn
      rw [run_stuck (.start w) turn]
      exact (Option.some_ne_none _).symm
    · -- The second byte and the length come to stand where the next entry would.
      have next : Stands { w with ptr := w.ptr + len.toNat } [b, len] := by
        rw [one]
        have behind : Stands { w with ptr := w.ptr + [a].length } [b, len] := Stands.behind stands
        exact behind
      have other : [b, len] ≠ chars "ST" := by
        intro same
        cases same
        exact absurd one (by decide)
      cases n with
      | zero => exact (Option.some_ne_none _).symm
      | succ n =>
        rw [run_turns turn]
        exact echo_two (w := { w with ptr := w.ptr + len.toNat }) serves memory echoes coherent next other expected

/-- Behind bytes that are not harmless some memory makes the result another one. -/
theorem harmful_wrong (disc : Word → Sector) (letters : (chars sig).length = 2) (other : chars sig ≠ chars "CE")
    (other' : chars sig ≠ chars "ST") (short : bytes.length < suspSize) (harmful : ¬Harmless sig bytes)
    (expected : Option SuspEntry) :
    ∃ stale, ∀ host : Host D, host.stale = stale → Serves host.read disc → (∀ n, host.allocates n = true) →
      ∀ w, Coherent disc w.boot → Stands w bytes → (w.ptr = 0 ∨ 2 ≤ bytes.length) → ∀ n boot,
        run (entryTurn host (myIteration sig)) n w ≠ some (boot, expected.map SuspEntry.bytes) := by
  match bytes, short, harmful with
  | [], short, _ =>
    refine ⟨echo, fun host echoes serves memory w coherent stands visited n boot => ?_⟩
    have start : w.ptr = 0 := visited.resolve_right (by simp)
    have empty : w.sua = [] := by
      have ahead := stands.ahead
      rwa [start, List.drop_zero] at ahead
    rw [echo_forever serves memory echoes coherent empty start]
    exact (Option.some_ne_none _).symm
  | [a], short, harmful =>
    by_cases continued : [a] = (chars "CE").take 1
    · refine ⟨echo, fun host echoes serves memory w coherent stands visited n boot => ?_⟩
      have start : w.ptr = 0 := visited.resolve_right (by simp)
      have first : w.entry host 0 = 67 := by
        rw [stands.byte host 0 (by simp)]
        exact List.singleton_inj.mp continued
      have second : w.entry host 1 = 69 := by
        have size := stands.size
        have length := stands.length
        simp only [List.length_singleton] at length
        rw [Walk.entry, contents, List.getD_eq_default _ _ (by omega), echoes, start]
        rfl
      have continued : signed (w.entry host) "CE" = true := by
        rw [signed_letters, first, second]
        rfl
      rw [echo_follows serves memory echoes coherent stands short continued]
      exact (Option.some_ne_none _).symm
    · obtain ⟨x, y, same⟩ := List.length_eq_two.mp letters
      have first : [a] = (chars sig).take 1 := by
        by_contra differs
        exact harmful ⟨continued, differs⟩
      rw [same] at first
      cases first
      refine ⟨fun i => if i = 1 then y else 0, fun host completes _ _ w _ stands visited n boot => ?_⟩
      exact completed_wrong same other other' completes stands (visited.resolve_right (by simp)) expected
  | [a, b], short, goes =>
    exact ⟨echo, fun host echoes serves memory w coherent stands _ n boot =>
      echo_two serves memory echoes coherent stands goes expected⟩
  | [a, b, len], short, harmful =>
    have goes : [a, b] ≠ chars "ST" := fun same => harmful (.inl same)
    by_cases named : [a, b] = chars sig
    · exact ⟨fun _ => (expected.elim 0 fun e => e.view 3) + 1, fun host differs _ _ w _ stands _ n boot =>
        copied_wrong named other other' (fun i => congrFun differs i) stands⟩
    · refine ⟨echo, fun host echoes serves memory w coherent stands _ n boot =>
        echo_three serves memory echoes coherent stands goes (fun plain => ⟨named, ?_⟩) expected⟩
      by_contra large
      exact harmful (.inr ⟨plain, named, Nat.lt_of_not_le large⟩)
  | a :: b :: c :: d :: _, short, _ => exact absurd short (by simp [suspSize])

/-- A search is a walk over the area that it reads. -/
theorem getEntry_walks (host : Host D) {boot : Cache D} (serves : Serves host.read disc)
    (coherent : Coherent disc boot) (memory : ∀ n, host.allocates n = true) (block offset size : Word) (sig : String) :
    ∃ boot', Coherent disc boot' ∧ ∀ n, getEntry host boot block offset size sig n =
      run (entryTurn host (myIteration sig)) n (areaWalk disc boot' block offset size) := by
  obtain ⟨boot', coherent', answer⟩ := cdromRead_serves serves coherent block offset size
  refine ⟨boot', coherent', fun n => ?_⟩
  unfold getEntry iterateEntries
  rw [if_pos (memory size), answer]
  rfl

/-- A walk that leads to no entry finds none where what it misreads is harmless. -/
theorem Leads.finds_none (leads : Leads host disc sig last w none)
    (leaves : ∀ rest, last.misread = some rest → Harmless sig rest) :
    ∃ n boot, run (entryTurn host (myIteration sig)) n w = some (boot, none) := by
  rcases leads with ⟨-, n, boot, runs⟩ | ⟨rest, t, misread, -, reached, -, stands, visited⟩
  · exact ⟨n, boot, runs⟩
  · obtain ⟨n, boot, runs⟩ := harmless_leaves (leaves rest misread) stands visited
    obtain ⟨m, runs⟩ := run_reaches reached runs
    exact ⟨m, boot, runs⟩

end

/-- `get_entry` returns a copy of the first entry with the signature, or NULL if there is
none, whatever the heap holds. -/
def GetsFirst {D : Type} (host : Host D) (boot : Cache D) (block offset size : Word) (sig : String)
    (sequence : List Placed) : Prop :=
  ∀ stale, ∃ fuel boot', getEntry (host.holding stale) boot block offset size sig fuel =
    some (boot', (firstSigned sig sequence).map SuspEntry.bytes)

section
variable {D : Type} {host : Host D} {disc : Word → Sector} {boot : Cache D} {block offset size : Word}
  {sig : String} {sequence : List Placed} {last : SuspArea}

/-- The walk of a search, on every heap. -/
theorem getEntry_leads (sig : String) (serves : Serves host.read disc) (coherent : Coherent disc boot)
    (memory : ∀ n, host.allocates n = true) (ordered : LogicalOrder disc block offset size sequence last)
    (stale : Nat → Byte) :
    ∃ boot', Coherent disc boot' ∧
      (∀ n, getEntry (host.holding stale) boot block offset size sig n =
        run (entryTurn (host.holding stale) (myIteration sig)) n (areaWalk disc boot' block offset size)) ∧
      Leads (host.holding stale) disc sig last (areaWalk disc boot' block offset size)
        (firstSigned sig (unhidden sequence)) := by
  obtain ⟨area, own, further, on, follows, rfl⟩ := ordered
  obtain ⟨boot', coherent', walks⟩ :=
    getEntry_walks (host.holding stale) serves coherent memory block offset size sig
  refine ⟨boot', coherent', walks, ?_⟩
  apply walk_leads (host.holding stale) serves memory follows on List.suffix_rfl (areaWalk_stands ..) coherent'
  cases none : area.entries with
  | nil => exact .inl ⟨rfl, rfl⟩
  | cons e es =>
    rw [SuspArea.On, none] at on
    exact .inr (Nat.le_trans (by decide) (entries_large on))

/-- What `get_entry` returns where the walk finds an entry that is not hidden, or leaves
the area that it ends in. -/
theorem getEntry_unhidden (serves : Serves host.read disc) (coherent : Coherent disc boot)
    (memory : ∀ n, host.allocates n = true) (ordered : LogicalOrder disc block offset size sequence last)
    (leaves : firstSigned sig (unhidden sequence) = none → ∀ rest, last.misread = some rest → Harmless sig rest) :
    GetsFirst host boot block offset size sig (unhidden sequence) := by
  intro stale
  obtain ⟨boot', -, walks, leads⟩ := getEntry_leads sig serves coherent memory ordered stale
  cases found : firstSigned sig (unhidden sequence) with
  | some e =>
    rw [found] at leads
    obtain ⟨n, boot', runs⟩ := leads
    exact ⟨n, boot', (walks n).trans runs⟩
  | none =>
    rw [found] at leads
    obtain ⟨n, boot', runs⟩ := leads.finds_none (leaves found)
    exact ⟨n, boot', (walks n).trans runs⟩

/-- Where the result is the first entry on every heap, the walk leaves the area it ends in. -/
theorem GetsFirst.leaves (serves : Serves host.read disc) (coherent : Coherent disc boot)
    (memory : ∀ n, host.allocates n = true) (letters : (chars sig).length = 2) (other : chars sig ≠ chars "CE")
    (other' : chars sig ≠ chars "ST") (ordered : LogicalOrder disc block offset size sequence last)
    (gets : GetsFirst host boot block offset size sig sequence)
    (nothing : firstSigned sig (unhidden sequence) = none) :
    ∀ rest, last.misread = some rest → Harmless sig rest := by
  intro rest misread
  by_contra harmful
  have walk (stale : Nat → Byte) := getEntry_leads sig serves coherent memory ordered stale
  rw [nothing] at walk
  have short : rest.length < suspSize := by
    obtain ⟨boot', -, -, ⟨past, -⟩ | ⟨rest', t, misread', short, -⟩⟩ := walk host.stale
    · rw [misread] at past
      cases past
    · rw [misread] at misread'
      cases misread'
      exact short
  obtain ⟨stale, wrong⟩ := harmful_wrong (D := D) disc letters other other' short harmful
    (firstSigned sig sequence)
  obtain ⟨fuel, boot₁, got⟩ := gets stale
  obtain ⟨boot', -, walks, leads⟩ := walk stale
  rcases leads with ⟨past, -⟩ | ⟨rest', t, misread', -, reached, coherent', stands, visited⟩
  · rw [misread] at past
    cases past
  · rw [misread] at misread'
    cases misread'
    rw [walks] at got
    obtain ⟨m, -, runs⟩ := run_later got reached
    exact wrong (host.holding stale) rfl serves memory t coherent' stands visited m boot₁ runs

/-- `get_entry` returns the first entry with a signature if and only if no CE entry hides
it and the walk can leave the area that it ends in. -/
theorem getEntry_first_iff (serves : Serves host.read disc) (coherent : Coherent disc boot)
    (memory : ∀ n, host.allocates n = true) (letters : (chars sig).length = 2) (other : chars sig ≠ chars "CE")
    (other' : chars sig ≠ chars "ST") (ordered : LogicalOrder disc block offset size sequence last) :
    GetsFirst host boot block offset size sig sequence ↔ FirstUnhidden sig sequence last := by
  constructor
  · intro gets
    have leaves (nothing : firstSigned sig (unhidden sequence) = none) :=
      gets.leaves serves coherent memory letters other other' ordered nothing
    obtain ⟨fuel, boot', got⟩ := gets host.stale
    obtain ⟨fuel', boot'', got'⟩ := getEntry_unhidden serves coherent memory ordered leaves host.stale
    exact ⟨congrArg Prod.snd (getEntry_unique got got'), leaves⟩
  · rintro ⟨same, leaves⟩ stale
    rw [same]
    exact getEntry_unhidden serves coherent memory ordered leaves stale

end

def attributes : SuspEntry := ⟨chars "PX" ++ [4, 1], by decide, by decide⟩
def alternateName : SuspEntry := ⟨chars "NM" ++ [6, 1, 0, 97], by decide, by decide⟩

/-- A CE entry for bytes of sector 17 from byte 40 on. -/
def continuation (length : Byte) : SuspEntry where
  bytes := chars "CE" ++ [28, 1] ++ List.replicate 7 0 ++ [17] ++ List.replicate 7 0 ++ [40] ++
    List.replicate 7 0 ++ [length]
  large := by simp [suspSize]
  whole := rfl

def continuedDisc : Word → Sector :=
  directoryDisc (attributes.bytes ++ (continuation 6).bytes ++ List.replicate 8 0 ++ alternateName.bytes)

private theorem continuedDisc_order :
    LogicalOrder continuedDisc 17 0 32 [⟨attributes, false⟩, ⟨alternateName, false⟩] ⟨[alternateName], some []⟩ := by
  have area : slice (discByte continuedDisc 17 0) 0 32 = attributes.bytes ++ ((continuation 6).bytes ++ []) := by
    decide
  have further : slice (discByte continuedDisc 17 40) 0 6 = alternateName.bytes ++ [] := by decide
  have last : SuspArea.On ⟨[alternateName], some []⟩ continuedDisc 17 40 6 := by
    rw [SuspArea.On, show (6 : Word).toNat = 6 from rfl, further]
    exact .entry (by decide) (.rest (by decide))
  refine ⟨⟨[attributes, continuation 6], some []⟩, [⟨attributes, false⟩], [⟨alternateName, false⟩], ?_, ?_, rfl⟩
  · rw [SuspArea.On, show (32 : Word).toNat = 32 from rfl, area]
    exact .entry (by decide) (.entry (by decide) (.rest (by decide)))
  · have name : Follows continuedDisc ⟨[alternateName], some []⟩ [alternateName] [⟨alternateName, false⟩] [] _ :=
      .entry (by decide) .done
    have behind : Follows continuedDisc ⟨[attributes, continuation 6], some []⟩ [] [] [] _ := .done
    exact .entry (by decide) (.continued (by decide) (by decide) last name behind)

/-- A name in the continuation of an area is found. -/
theorem continued_name :
    GetsFirst (steadyHost continuedDisc) ⟨(), continuedDisc 17, 17, true⟩ 17 0 32 "NM"
      [⟨attributes, false⟩, ⟨alternateName, false⟩] := by
  have coherent : Coherent continuedDisc (⟨(), continuedDisc 17, 17, true⟩ : Cache Unit) := rfl
  refine (getEntry_first_iff (directoryDisc_serves _) coherent (fun _ => rfl) (by decide) (by decide) (by decide)
    continuedDisc_order).mpr ⟨rfl, fun nothing => ?_⟩
  cases nothing

/-- Behind the CE entry of this area is a name, and none is in its continuation. -/
def hiddenDisc : Word → Sector :=
  directoryDisc ((continuation 4).bytes ++ alternateName.bytes ++ List.replicate 6 0 ++ attributes.bytes)

def hiddenOrder : List Placed := [⟨alternateName, true⟩, ⟨attributes, false⟩]

private theorem hiddenDisc_order : LogicalOrder hiddenDisc 17 0 34 hiddenOrder ⟨[attributes], some []⟩ := by
  have area : slice (discByte hiddenDisc 17 0) 0 34 = (continuation 4).bytes ++ (alternateName.bytes ++ []) := by
    decide
  have further : slice (discByte hiddenDisc 17 40) 0 4 = attributes.bytes ++ [] := by decide
  have last : SuspArea.On ⟨[attributes], some []⟩ hiddenDisc 17 40 4 := by
    rw [SuspArea.On, show (4 : Word).toNat = 4 from rfl, further]
    exact .entry (by decide) (.rest (by decide))
  refine ⟨⟨[continuation 4, alternateName], some []⟩, [⟨alternateName, true⟩], [⟨attributes, false⟩], ?_, ?_, rfl⟩
  · rw [SuspArea.On, show (34 : Word).toNat = 34 from rfl, area]
    exact .entry (by decide) (.entry (by decide) (.rest (by decide)))
  · have further : Follows hiddenDisc ⟨[attributes], some []⟩ [attributes] [⟨attributes, false⟩] [] _ :=
      .entry (by decide) .done
    have behind : Follows hiddenDisc ⟨[continuation 4, alternateName], some []⟩ [alternateName]
        [⟨alternateName, false⟩] [] _ := .entry (by decide) .done
    exact .continued (by decide) (by decide) last further behind

/-- The name is not found. -/
theorem hidden_name_missed :
    LogicalOrder hiddenDisc 17 0 34 hiddenOrder ⟨[attributes], some []⟩ ∧
      ¬GetsFirst (steadyHost hiddenDisc) ⟨(), hiddenDisc 17, 17, true⟩ 17 0 34 "NM" hiddenOrder := by
  refine ⟨hiddenDisc_order, fun gets => ?_⟩
  have coherent : Coherent hiddenDisc (⟨(), hiddenDisc 17, 17, true⟩ : Cache Unit) := rfl
  obtain ⟨fuel, boot, got⟩ := gets fun _ => 0
  have leaves : ∀ rest, SuspArea.misread ⟨[attributes], some []⟩ = some rest → Harmless "NM" rest := by
    intro rest misread
    cases misread
  obtain ⟨fuel', boot', missed⟩ := getEntry_unhidden (directoryDisc_serves _) coherent (fun _ => rfl)
    hiddenDisc_order (fun _ => leaves) fun _ => 0
  have same := congrArg Prod.snd (getEntry_unique got missed)
  cases same

end Parthenope.Cdrom
