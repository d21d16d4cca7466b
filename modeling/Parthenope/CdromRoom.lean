import Parthenope.CdromEntries

/-! What the walk for the name of a record reads. `sua_off` goes behind the bytes that
`susp_skip` counts, `sua_size` still counts them, and the first header is read before
anything is compared with the end. -/
namespace Parthenope.Cdrom
open CString Buffer StepLoop

/-- How far a turn looks into an entry: to the last field of a CE entry, the signature of
an ST entry, the length of any other. -/
def headerSize (e : Nat → Byte) : Nat :=
  if signed e "CE" then ceSize else if signed e "ST" then suspLen else suspLen + 1

/-- The bytes of a record behind those that are skipped, and where they are. -/
def suaRoom (suspSkip : Byte) (dirent : Nat → Byte) : Nat :=
  (dirent dirLen).toNat - (suaStart dirent + suspSkip.toNat)

def suaOffset (suspSkip : Byte) (offset : Nat) (dirent : Nat → Byte) : Word :=
  BitVec.ofNat 32 (suaStart dirent + (offset + suspSkip.toNat))

section
variable {D : Type} (host : Host D)

/-- What a turn reads is in the first `room` bytes of the area: the header, and an entry
that is copied, which has the flags that the copy is asked for. -/
structure Inside (room : Nat) (w : Walk D) : Prop where
  header : w.ptr + headerSize (w.entry host) ≤ room
  copied : signed (w.entry host) "NM" = true →
    suspData < (w.entry host suspLen).toNat ∧ w.ptr + (w.entry host suspLen).toNat ≤ room

/-- A turn together with how much of the area belongs to the record. All that is read
for a CE entry does. -/
def roomTurn : Nat × Walk D → (Cache D × Option (List Byte)) ⊕ (Nat × Walk D)
  | (room, w) =>
    match entryTurn host (myIteration "NM") w with
    | .inl ended => .inl ended
    | .inr u => .inr (if signed (w.entry host) "CE" then u.sua.length else room, u)

/-- Every turn of a walk reads inside. -/
def ReadsInside (room : Nat) (w : Walk D) : Prop :=
  ∀ room' u, Reaches (roomTurn host) (room, w) (room', u) → Inside host room' u

end

/-- The entries of an area of a record fit into it, as far as `n` turns come. `window` is
what the walk takes the area for. -/
def Fits (allocates : Word → Bool) (disc : Word → Sector) : Nat → Nat → List Byte → Prop
  | 0, _, _ => True
  | n + 1, window, area =>
    let e := contents (fun _ => 0) area
    let len := (e suspLen).toNat
    headerSize e ≤ area.length ∧
      if signed e "CE" then
        allocates (be32 e ceLen) = true → Fits allocates disc n (be32 e ceLen).toNat
          (slice (discByte disc (be32 e ceBlk) (be32 e ceOff)) 0 (be32 e ceLen).toNat)
      else if signed e "ST" then True
      else if signed e "NM" then suspData < len ∧ len ≤ area.length
      else window ≤ len + 1 ∨ Fits allocates disc n (window - len) (area.drop len)

/-- The entries of a record fit into its area and the continuations of it. -/
def RecordFits {D : Type} (host : Host D) (disc : Word → Sector) (dev : CdromBootDev D) (block : Word)
    (offset : Nat) (dirent : Nat → Byte) : Prop :=
  dev.rr = true → host.allocates (suaSize dirent) = true → ∀ n,
    Fits host.allocates disc n (suaSize dirent).toNat
      (slice (discByte disc block (suaOffset dev.suspSkip offset dirent)) 0 (suaRoom dev.suspSkip dirent))

/-- The name of a record comes from its own bytes: every turn reads inside, what the heap
held makes no difference, nor does what the window holds behind the record, and an area
that is too short for an entry has none. -/
structure NamedByItself {D : Type} (host : Host D) (dev : CdromBootDev D) (boot : Cache D) (block : Word)
    (offset : Nat) (dirent : Nat → Byte) : Prop where
  inside : dev.rr = true → host.allocates (suaSize dirent) = true → ∀ boot' sua,
    cdromRead host.read boot block (suaOffset dev.suspSkip offset dirent) (suaSize dirent) = (boot', .ok sua) →
      ∀ stale, ReadsInside (host.holding stale) (suaRoom dev.suspSkip dirent) ⟨boot', sua, suaSize dirent, 0⟩
  steady : ∀ stale stale' fuel, recordName (host.holding stale) dev boot block offset dirent fuel =
    recordName (host.holding stale') dev boot block offset dirent fuel
  alone : dev.rr = true → host.allocates (suaSize dirent) = true → ∀ boot' sua sua',
    cdromRead host.read boot block (suaOffset dev.suspSkip offset dirent) (suaSize dirent) = (boot', .ok sua) →
      sua'.take (suaRoom dev.suspSkip dirent) = sua.take (suaRoom dev.suspSkip dirent) → ∀ fuel,
        run (entryTurn host (myIteration "NM")) fuel ⟨boot', sua', suaSize dirent, 0⟩ =
          run (entryTurn host (myIteration "NM")) fuel ⟨boot', sua, suaSize dirent, 0⟩
  short : dev.rr = true → suaRoom dev.suspSkip dirent < suspSize → ∀ stale fuel boot' entry,
    getEntry (host.holding stale) boot block (suaOffset dev.suspSkip offset dirent) (suaSize dirent) "NM" fuel =
      some (boot', entry) → entry = none

section
variable {D : Type} {host : Host D} {disc : Word → Sector} {w u : Walk D} {e e' : Nat → Byte} {n m room : Nat}

/-- The entries that the walk for a name tells apart. -/
inductive Kind (e : Nat → Byte) : Prop
  | continued : signed e "CE" = true → Kind e
  | stop : signed e "CE" = false → signed e "ST" = true → Kind e
  | name : signed e "CE" = false → signed e "ST" = false → signed e "NM" = true → Kind e
  | other : signed e "CE" = false → signed e "ST" = false → signed e "NM" = false → Kind e

theorem kind (e : Nat → Byte) : Kind e := by
  cases plain : signed e "CE" with
  | true => exact .continued plain
  | false =>
    cases goes : signed e "ST" with
    | true => exact .stop plain goes
    | false =>
      cases named : signed e "NM" with
      | true => exact .name plain goes named
      | false => exact .other plain goes named

private theorem headerSize_congr (same : ∀ i < n, e i = e' i) (enough : suspLen ≤ n) :
    headerSize e = headerSize e' := by
  unfold headerSize
  rw [signed_congr same enough, signed_congr same enough]

private theorem headerSize_continued (continued : signed e "CE" = true) : headerSize e = ceSize := if_pos continued

private theorem headerSize_plain (plain : signed e "CE" = false) (goes : signed e "ST" = false) :
    headerSize e = suspLen + 1 := by
  rw [headerSize, if_neg (Bool.eq_false_iff.mp plain), if_neg (Bool.eq_false_iff.mp goes)]

private theorem suspLen_le_headerSize (e : Nat → Byte) : suspLen ≤ headerSize e := by
  unfold headerSize
  split
  · decide
  · split <;> decide

/-- Two walks at one place, over areas that agree as far as `room`. -/
structure Alike (host host' : Host D) (room : Nat) (w w' : Walk D) : Prop where
  boot : w'.boot = w.boot
  size : w'.size = w.size
  ptr : w'.ptr = w.ptr
  bytes : ∀ i < room, contents host.stale w.sua i = contents host'.stale w'.sua i

variable {stale stale' : Nat → Byte}

private theorem roomTurn_goes (room : Nat) (goes : entryTurn host (myIteration "NM") w = .inr u) :
    roomTurn host (room, w) = .inr (if signed (w.entry host) "CE" then u.sua.length else room, u) := by
  simp only [roomTurn, goes]

private theorem roomTurn_next {room' : Nat} (turns : roomTurn host (room, w) = .inr (room', u)) :
    entryTurn host (myIteration "NM") w = .inr u ∧
      room' = if signed (w.entry host) "CE" then u.sua.length else room := by
  unfold roomTurn at turns
  dsimp only at turns
  split at turns
  · cases turns
  · rename_i goes
    cases turns
    exact ⟨goes, rfl⟩

/-- The ends of a turn for two walks: the same result, or areas that agree. -/
def TurnsAlike (host host' : Host D) (room : Nat) (w u : Walk D) : Prop :=
  (∃ ended, entryTurn host (myIteration "NM") w = .inl ended ∧
    entryTurn host' (myIteration "NM") u = .inl ended) ∨
  ∃ room' w' u', roomTurn host (room, w) = .inr (room', w') ∧ entryTurn host (myIteration "NM") w = .inr w' ∧
    entryTurn host' (myIteration "NM") u = .inr u' ∧ Alike host host' room' w' u'

/-- Both follow a CE entry to the same area. -/
theorem continued_alike {host' : Host D} (heap : OtherHeap host host') (boot : u.boot = w.boot)
    (same : ∀ i < n, w.entry host i = u.entry host' i) (whole : ceSize ≤ n)
    (continued : signed (w.entry host) "CE" = true) : TurnsAlike host host' room w u := by
  obtain ⟨reads, allocates⟩ := heap
  have block := be32_congr (m := ceBlk) same (Nat.le_trans (by decide) whole)
  have offset := be32_congr (m := ceOff) same (Nat.le_trans (by decide) whole)
  have length := be32_congr (m := ceLen) same (Nat.le_trans (by decide) whole)
  have continued' := (signed_congr same (Nat.le_trans (by decide) whole) "CE").symm.trans continued
  cases allocated : host.allocates (be32 (w.entry host) ceLen) with
  | false =>
    have denied : host'.allocates (be32 (u.entry host') ceLen) = false := by
      rw [allocates, ← length, allocated]
    exact .inl ⟨_, entryTurn_denied continued allocated, boot ▸ entryTurn_denied continued' denied⟩
  | true =>
    have allocated' : host'.allocates (be32 (u.entry host') ceLen) = true := by
      rw [allocates, ← length, allocated]
    rcases answer : cdromRead host.read w.boot (be32 (w.entry host) ceBlk) (be32 (w.entry host) ceOff)
      (be32 (w.entry host) ceLen) with ⟨boot', dest | sua⟩
    · have answer' := answer
      rw [block, offset, length, ← reads, ← boot] at answer'
      exact .inl ⟨_, entryTurn_fails continued allocated answer, entryTurn_fails continued' allocated' answer'⟩
    · have answer' := answer
      rw [← reads, ← boot] at answer'
      have goes : entryTurn host (myIteration "NM") w = .inr ⟨boot', sua, be32 (w.entry host) ceLen, 0⟩ :=
        entryTurn_continues continued allocated ⟨rfl, rfl, rfl⟩ answer
      have goes' : entryTurn host' (myIteration "NM") u = .inr ⟨boot', sua, be32 (w.entry host) ceLen, 0⟩ :=
        entryTurn_continues continued' (length ▸ allocated') ⟨block.symm, offset.symm, length.symm⟩ answer'
      refine .inr ⟨_, _, _, roomTurn_goes room goes, goes, goes', rfl, rfl, rfl, fun i inside => ?_⟩
      rw [if_pos continued] at inside
      rw [contents_lt inside, contents_lt inside]

/-- A turn that reads inside is the same for both. -/
theorem turn_alike {host' : Host D} (heap : OtherHeap host host') (inside : Inside host room w)
    (alike : Alike host host' room w u) : TurnsAlike host host' room w u := by
  obtain ⟨header, copied⟩ := inside
  obtain ⟨boot, size, ptr, bytes⟩ := alike
  have same : ∀ i < room - w.ptr, w.entry host i = u.entry host' i := by
    intro i inside
    rw [Walk.entry, Walk.entry, ptr]
    exact bytes _ (by omega)
  have known := suspLen_le_headerSize (w.entry host)
  have letters := signed_congr same (by omega)
  cases kind (w.entry host) with
  | continued continued =>
    rw [headerSize_continued continued] at header
    exact continued_alike heap boot same (by omega) continued
  | stop plain stops =>
    have plain' := (letters "CE").symm.trans plain
    have stops' := (letters "ST").symm.trans stops
    exact .inl ⟨_, entryTurn_stops plain stops, boot ▸ entryTurn_stops plain' stops'⟩
  | name plain goes named =>
    have plain' := (letters "CE").symm.trans plain
    have goes' := (letters "ST").symm.trans goes
    have named' := (letters "NM").symm.trans named
    rw [headerSize_plain plain goes] at header
    have length := same suspLen (by omega)
    have copies : slice (w.entry host) 0 (w.entry host suspLen).toNat =
        slice (u.entry host') 0 (u.entry host' suspLen).toNat := by
      rw [← length]
      refine slice_congr fun i small => same _ ?_
      have := copied named
      omega
    refine .inl ⟨_, entryTurn_finds plain goes (myIteration_found named), ?_⟩
    rw [copies, ← boot]
    exact entryTurn_finds plain' goes' (myIteration_found named')
  | other plain goes other =>
    have plain' := (letters "CE").symm.trans plain
    have goes' := (letters "ST").symm.trans goes
    have other' := (letters "NM").symm.trans other
    rw [headerSize_plain plain goes] at header
    have length := same suspLen (by omega)
    have passes := entryTurn_passes plain goes (myIteration_other other)
    have passes' := entryTurn_passes plain' goes' (myIteration_other other')
    rw [← length, ptr, size, boot] at passes'
    by_cases further : w.ptr + (w.entry host suspLen).toNat + 1 < w.size.toNat
    · rw [if_pos further] at passes passes'
      refine .inr ⟨_, _, _, roomTurn_goes room passes, passes, passes', rfl, rfl, rfl, ?_⟩
      rw [if_neg (Bool.eq_false_iff.mp plain)]
      exact bytes
    · rw [if_neg further] at passes passes'
      exact .inl ⟨_, passes, passes'⟩

/-- A walk that reads inside does not depend on what is elsewhere in memory. -/
theorem run_alike {host' : Host D} (heap : OtherHeap host host') (inside : ReadsInside host room w)
    (alike : Alike host host' room w u) :
    run (entryTurn host' (myIteration "NM")) n u = run (entryTurn host (myIteration "NM")) n w := by
  induction n generalizing room w u with
  | zero => rfl
  | succ n ih =>
    rcases turn_alike heap (inside room w (.start _)) alike with
      ⟨ended, ends, ends'⟩ | ⟨room', w', u', turns, goes, goes', alike'⟩
    · rw [run_ends ends, run_ends ends']
    · rw [run_turns goes, run_turns goes']
      exact ih (fun room'' t reached => inside room'' t (reached.before turns)) alike'

/-- Nothing is found in an area that no entry fits into. -/
theorem run_short {boot : Cache D} {entry : Option (List Byte)} (inside : ReadsInside host room w)
    (short : room < suspSize) (runs : run (entryTurn host (myIteration "NM")) n w = some (boot, entry)) :
    entry = none := by
  induction n generalizing w with
  | zero => cases runs
  | succ n ih =>
    obtain ⟨header, copied⟩ := inside room w (.start _)
    have small : room < 4 := short
    cases kind (w.entry host) with
    | continued continued =>
      rw [headerSize_continued continued, ceSize] at header
      omega
    | stop plain stops =>
      rw [run_ends (entryTurn_stops plain stops)] at runs
      cases runs
      rfl
    | name plain goes named =>
      obtain ⟨large, within⟩ := copied named
      have large : 4 < (w.entry host suspLen).toNat := large
      omega
    | other plain goes other =>
      have passes := entryTurn_passes plain goes (myIteration_other other)
      split at passes
      · rw [run_turns passes] at runs
        have turns := roomTurn_goes room passes
        rw [if_neg (Bool.eq_false_iff.mp plain)] at turns
        exact ih (fun room' t reached => inside room' t (reached.before turns)) runs
      · rw [run_ends passes] at runs
        cases runs
        rfl

/-- What is left of a record's bytes at `ptr`. -/
def Walk.area (room : Nat) (w : Walk D) : List Byte := (w.sua.take room).drop w.ptr

private theorem area_length (long : room ≤ w.sua.length) : (w.area room).length = room - w.ptr := by
  rw [Walk.area, List.length_drop, List.length_take, min_eq_left long]

private theorem area_entry (host : Host D) (long : room ≤ w.sua.length) :
    ∀ i < (w.area room).length, contents (fun _ => 0) (w.area room) i = w.entry host i := by
  intro i inside
  rw [contents_lt inside]
  rw [area_length long] at inside
  rw [Walk.entry, contents_lt (by omega)]
  simp only [Walk.area, List.getElem_drop, List.getElem_take]

/-- `Fits` asks for bytes of the area only. -/
theorem fits_entry {allocates : Word → Bool} {window : Nat} {area : List Byte}
    (same : ∀ i < area.length, contents (fun _ => 0) area i = e i) :
    Fits allocates disc (n + 1) window area ↔ headerSize e ≤ area.length ∧
      if signed e "CE" then
        allocates (be32 e ceLen) = true → Fits allocates disc n (be32 e ceLen).toNat
          (slice (discByte disc (be32 e ceBlk) (be32 e ceOff)) 0 (be32 e ceLen).toNat)
      else if signed e "ST" then True
      else if signed e "NM" then suspData < (e suspLen).toNat ∧ (e suspLen).toNat ≤ area.length
      else window ≤ (e suspLen).toNat + 1 ∨
        Fits allocates disc n (window - (e suspLen).toNat) (area.drop (e suspLen).toNat) := by
  rw [Fits]
  by_cases long : suspLen ≤ area.length
  · rw [headerSize_congr same long, signed_congr same long, signed_congr same long, signed_congr same long]
    refine and_congr_right fun header => ?_
    split
    · rename_i continued
      have whole : ceSize ≤ area.length := by rwa [headerSize, if_pos continued] at header
      rw [be32_congr (m := ceBlk) same (Nat.le_trans (by decide) whole),
        be32_congr (m := ceOff) same (Nat.le_trans (by decide) whole),
        be32_congr (m := ceLen) same (Nat.le_trans (by decide) whole)]
    · rename_i plain
      split
      · rfl
      · rename_i goes
        have header : suspLen + 1 ≤ area.length := by rwa [headerSize, if_neg plain, if_neg goes] at header
        rw [same suspLen header]
  · constructor
    · intro fits
      exact absurd (Nat.le_trans (suspLen_le_headerSize _) fits.1) long
    · intro fits
      exact absurd (Nat.le_trans (suspLen_le_headerSize _) fits.1) long

/-- A walk that reads inside finds every entry to fit. -/
theorem fits_of_inside (serves : Serves host.read disc) (coherent : Coherent disc w.boot)
    (long : room ≤ w.sua.length) (inside : ReadsInside host room w) (n : Nat) :
    Fits host.allocates disc n (w.size.toNat - w.ptr) (w.area room) := by
  induction n generalizing room w with
  | zero => trivial
  | succ n ih =>
    obtain ⟨header, copied⟩ := inside room w (.start _)
    have length := area_length long
    have known := suspLen_le_headerSize (w.entry host)
    rw [fits_entry (area_entry host long), length]
    refine ⟨by omega, ?_⟩
    cases kind (w.entry host) with
    | continued continued =>
      rw [if_pos continued]
      intro allocated
      obtain ⟨boot', coherent', goes⟩ := entryTurn_area (myIteration "NM") serves coherent continued allocated
      have turns := roomTurn_goes room goes
      rw [if_pos continued] at turns
      have rest := ih coherent' le_rfl fun room' t reached => inside room' t (reached.before turns)
      rwa [Walk.area, List.take_length] at rest
    | stop plain stops =>
      rw [if_neg (Bool.eq_false_iff.mp plain), if_pos stops]
      trivial
    | name plain goes named =>
      have := copied named
      rw [if_neg (Bool.eq_false_iff.mp plain), if_neg (Bool.eq_false_iff.mp goes), if_pos named]
      omega
    | other plain goes other =>
      rw [if_neg (Bool.eq_false_iff.mp plain), if_neg (Bool.eq_false_iff.mp goes),
        if_neg (Bool.eq_false_iff.mp other)]
      by_cases further : w.ptr + (w.entry host suspLen).toNat + 1 < w.size.toNat
      · have passes := entryTurn_passes plain goes (myIteration_other other)
        rw [if_pos further] at passes
        have turns := roomTurn_goes room passes
        rw [if_neg (Bool.eq_false_iff.mp plain)] at turns
        have rest := ih (w := { w with ptr := w.ptr + (w.entry host suspLen).toNat }) coherent long
          fun room' t reached => inside room' t (reached.before turns)
        rw [Walk.area, ← List.drop_drop, Nat.sub_add_eq] at rest
        exact .inr rest
      · exact .inl (by omega)

/-- Behind a turn over entries that fit are entries that fit. -/
theorem fits_turn {room' : Nat} (serves : Serves host.read disc) (coherent : Coherent disc w.boot)
    (long : room ≤ w.sua.length)
    (fits : ∀ n, Fits host.allocates disc n (w.size.toNat - w.ptr) (w.area room))
    (turns : roomTurn host (room, w) = .inr (room', u)) :
    Coherent disc u.boot ∧ room' ≤ u.sua.length ∧
      ∀ n, Fits host.allocates disc n (u.size.toNat - u.ptr) (u.area room') := by
  have fits (n : Nat) := (fits_entry (area_entry host long)).mp (fits (n + 1))
  obtain ⟨goes, rfl⟩ := roomTurn_next turns
  cases kind (w.entry host) with
  | continued continued =>
    simp only [continued, if_true] at fits ⊢
    cases allocated : host.allocates (be32 (w.entry host) ceLen) with
    | false =>
      rw [entryTurn_denied continued allocated] at goes
      cases goes
    | true =>
      obtain ⟨boot', coherent', area⟩ := entryTurn_area (myIteration "NM") serves coherent continued allocated
      rw [area] at goes
      cases goes
      refine ⟨coherent', le_rfl, fun n => ?_⟩
      rw [Walk.area, List.take_length]
      exact (fits n).2 allocated
  | stop plain stops =>
    rw [entryTurn_stops plain stops] at goes
    cases goes
  | name plain further named =>
    rw [entryTurn_finds plain further (myIteration_found named)] at goes
    cases goes
  | other plain further other =>
    rw [entryTurn_passes plain further (myIteration_other other)] at goes
    simp only [plain, further, other, Bool.false_eq_true, if_false] at fits ⊢
    split at goes
    · rename_i inside
      cases goes
      refine ⟨coherent, long, fun n => ?_⟩
      rw [Walk.area, ← List.drop_drop, Nat.sub_add_eq]
      exact (fits n).2.resolve_left (by omega)
    · cases goes

/-- A walk over entries that fit reads inside. -/
theorem inside_of_fits (serves : Serves host.read disc) (coherent : Coherent disc w.boot)
    (long : room ≤ w.sua.length)
    (fits : ∀ n, Fits host.allocates disc n (w.size.toNat - w.ptr) (w.area room)) :
    ReadsInside host room w := by
  let Inv (s : Nat × Walk D) : Prop := Coherent disc s.2.boot ∧ s.1 ≤ s.2.sua.length ∧
    ∀ n, Fits host.allocates disc n (s.2.size.toNat - s.2.ptr) (s.2.area s.1)
  intro room' t reached
  have stands : Inv (room', t) := by
    refine reached.invariant Inv ?_ ⟨coherent, long, fits⟩
    rintro ⟨room, w⟩ ⟨room', u⟩ ⟨coherent, long, fits⟩ turns
    exact fits_turn serves coherent long fits turns
  obtain ⟨-, long, fits⟩ : Coherent disc t.boot ∧ room' ≤ t.sua.length ∧
    ∀ n, Fits host.allocates disc n (t.size.toNat - t.ptr) (t.area room') := stands
  have fits := (fits_entry (area_entry host long)).mp (fits 1)
  have known : 2 ≤ headerSize (t.entry host) := suspLen_le_headerSize _
  rw [area_length long] at fits
  refine ⟨by omega, fun named => ?_⟩
  have plain := signed_other named "CE" (by decide)
  have goes := signed_other named "ST" (by decide)
  simp only [plain, goes, named, Bool.false_eq_true, if_false, if_true] at fits
  omega

/-- A walk ends where its turns with the room come to. -/
theorem run_ends_at {r : Cache D × Option (List Byte)} (room : Nat)
    (runs : run (entryTurn host (myIteration "NM")) n w = some r) :
    ∃ room' t, Reaches (roomTurn host) (room, w) (room', t) ∧
      entryTurn host (myIteration "NM") t = .inl r := by
  induction n generalizing room w with
  | zero => cases runs
  | succ n ih =>
    cases turn : entryTurn host (myIteration "NM") w with
    | inl r' =>
      rw [run_ends turn] at runs
      cases runs
      exact ⟨room, w, .start _, turn⟩
    | inr u =>
      rw [run_turns turn] at runs
      obtain ⟨room', t, reached, ends⟩ := ih _ runs
      exact ⟨room', t, reached.before (roomTurn_goes room turn), ends⟩

/-- The name in a copy that holds its flags and is as long as it says comes from the copy. -/
theorem rrName_steady {host' : Host D} {entry : List Byte} (heap : OtherHeap host host')
    (flags : suspData < entry.length) (whole : (contents host.stale entry suspLen).toNat = entry.length) :
    rrName host' entry = rrName host entry := by
  have large : 4 < entry.length := flags
  have same (i : Nat) (inside : i < entry.length) : contents host'.stale entry i = contents host.stale entry i := by
    rw [contents_lt inside, contents_lt inside]
  have name : slice (contents host'.stale entry) (suspData + 1) (entry.length - 5) =
      slice (contents host.stale entry) (suspData + 1) (entry.length - 5) :=
    slice_congr fun i inside => same _ (by simp only [suspData]; omega)
  unfold rrName
  dsimp only
  rw [heap.allocates, same suspData flags, same suspLen (by simp only [suspLen]; omega), whole, name]

private theorem suaRoom_le (suspSkip : Byte) (dirent : Nat → Byte) :
    suaRoom suspSkip dirent ≤ (suaSize dirent).toNat := by
  have short := (dirent dirLen).isLt
  rw [suaRoom, suaSize, BitVec.toNat_ofInt]
  omega

/-- The copy of an entry that lies inside holds its flags and is as long as it says. -/
theorem copy_whole {boot : Cache D} {entry : List Byte} (inside : ReadsInside host room w)
    (runs : run (entryTurn host (myIteration "NM")) n w = some (boot, some entry)) :
    suspData < entry.length ∧ (contents host.stale entry suspLen).toNat = entry.length := by
  obtain ⟨room', t, reached, ends⟩ := run_ends_at room runs
  obtain ⟨named, rfl⟩ := entryTurn_found ends
  have flags := ((inside room' t reached).copied named).1
  have within : suspLen < (slice (t.entry host) 0 (t.entry host suspLen).toNat).length := by
    rw [slice_length]
    exact Nat.lt_trans (by decide) flags
  rw [contents_lt within, slice_length]
  simp [slice, flags]

/-- The name of a record whose entries are read inside is that on any heap. -/
theorem recordName_steady {host' : Host D} {dev : CdromBootDev D} {boot : Cache D} {block : Word}
    {offset : Nat} {dirent : Nat → Byte} (heap : OtherHeap host host')
    (inside : dev.rr = true → host.allocates (suaSize dirent) = true → ∀ boot' sua,
      cdromRead host.read boot block (suaOffset dev.suspSkip offset dirent) (suaSize dirent) = (boot', .ok sua) →
        suaRoom dev.suspSkip dirent ≤ sua.length ∧
          ReadsInside host (suaRoom dev.suspSkip dirent) ⟨boot', sua, suaSize dirent, 0⟩) :
    recordName host' dev boot block offset dirent n = recordName host dev boot block offset dirent n := by
  unfold recordName
  rw [heap.reads]
  cases rr : dev.rr with
  | false => rfl
  | true =>
    have inside := inside rr
    have found : getEntry host' boot block (suaOffset dev.suspSkip offset dirent) (suaSize dirent)
        "NM" n = getEntry host boot block (suaOffset dev.suspSkip offset dirent) (suaSize dirent) "NM" n := by
      unfold getEntry iterateEntries
      rw [heap.allocates, heap.reads]
      cases allocated : host.allocates (suaSize dirent) with
      | false => rfl
      | true =>
        rw [if_pos rfl, if_pos rfl]
        rcases answer : cdromRead host.read boot block (suaOffset dev.suspSkip offset dirent) (suaSize dirent)
          with ⟨boot', dest | sua⟩
        · rfl
        · obtain ⟨long, inside⟩ := inside allocated boot' sua answer
          refine run_alike heap inside ⟨rfl, rfl, rfl, fun i small => ?_⟩
          rw [contents_lt (Nat.lt_of_lt_of_le small long), contents_lt (Nat.lt_of_lt_of_le small long)]
    rw [if_pos rfl, if_pos rfl]
    unfold suaOffset at found inside
    rw [found]
    rcases got : getEntry host boot block _ (suaSize dirent) "NM" n with - | ⟨boot', - | entry⟩
    · rfl
    · rfl
    · obtain ⟨allocated, read, sua, answer, runs⟩ := getEntry_some got
      obtain ⟨flags, whole⟩ := copy_whole (inside allocated read sua answer).2 runs
      simp only [Option.map_some, rrName_steady heap flags whole]

/-- The room of a record is a part of the area that is read for it. -/
theorem areaWalk_room (disc : Word → Sector) (boot : Cache D) (block offset : Word) (suspSkip : Byte)
    (dirent : Nat → Byte) :
    suaRoom suspSkip dirent ≤ (areaWalk disc boot block offset (suaSize dirent)).sua.length ∧
      (areaWalk disc boot block offset (suaSize dirent)).area (suaRoom suspSkip dirent) =
        slice (discByte disc block offset) 0 (suaRoom suspSkip dirent) := by
  have room := suaRoom_le suspSkip dirent
  exact ⟨slice_length ▸ room, slice_take room⟩

/-- The entries of a record that is named by itself fit. -/
theorem NamedByItself.fits {dev : CdromBootDev D} {boot : Cache D} {block : Word} {offset : Nat}
    {dirent : Nat → Byte} (serves : Serves host.read disc) (coherent : Coherent disc boot)
    (named : NamedByItself host dev boot block offset dirent) : RecordFits host disc dev block offset dirent := by
  intro rr allocated n
  obtain ⟨boot', coherent', answer⟩ := cdromRead_serves serves coherent block
    (suaOffset dev.suspSkip offset dirent) (suaSize dirent)
  obtain ⟨long, own⟩ := areaWalk_room disc boot' block (suaOffset dev.suspSkip offset dirent) dev.suspSkip dirent
  rw [← own]
  exact fits_of_inside serves coherent' long (named.inside rr allocated _ _ answer host.stale) n

/-- The name of a record comes from its own bytes if and only if its entries fit into its
area and the continuations of it. -/
theorem named_by_itself_iff {dev : CdromBootDev D} {boot : Cache D} {block : Word} {offset : Nat}
    {dirent : Nat → Byte} (serves : Serves host.read disc) (coherent : Coherent disc boot) :
    NamedByItself host dev boot block offset dirent ↔ RecordFits host disc dev block offset dirent := by
  constructor
  · exact fun named => named.fits serves coherent
  · intro fits
    obtain ⟨boot', coherent', answer⟩ := cdromRead_serves serves coherent block
      (suaOffset dev.suspSkip offset dirent) (suaSize dirent)
    obtain ⟨long, own⟩ := areaWalk_room disc boot' block (suaOffset dev.suspSkip offset dirent) dev.suspSkip dirent
    have inside (rr : dev.rr = true) (allocated : host.allocates (suaSize dirent) = true) (stale : Nat → Byte) :
        ReadsInside (host.holding stale) (suaRoom dev.suspSkip dirent)
          (areaWalk disc boot' block (suaOffset dev.suspSkip offset dirent) (suaSize dirent)) :=
      inside_of_fits serves coherent' long fun n => own ▸ fits rr allocated n
    refine ⟨?_, ?_, ?_, ?_⟩
    · intro rr allocated boot₁ sua answer₁ stale
      rw [answer] at answer₁
      cases answer₁
      exact inside rr allocated stale
    · intro stale stale' fuel
      refine recordName_steady (holding_otherHeap host stale' stale) fun rr allocated boot₁ sua answer₁ => ?_
      rw [show cdromRead (host.holding stale').read boot block _ _ = _ from answer] at answer₁
      cases answer₁
      exact ⟨long, inside rr allocated stale'⟩
    · intro rr allocated boot₁ sua sua' answer₁ same fuel
      rw [answer] at answer₁
      cases answer₁
      refine run_alike (u := ⟨boot', sua', suaSize dirent, 0⟩) ⟨rfl, rfl⟩ (inside rr allocated host.stale)
        ⟨rfl, rfl, rfl, fun i small => ?_⟩
      rw [← contents_take sua' small, same, contents_take _ small]
    · intro rr short stale fuel boot₁ entry found
      cases entry with
      | none => rfl
      | some entry =>
        obtain ⟨allocated, read, sua, answer₁, runs⟩ := getEntry_some found
        rw [show cdromRead (host.holding stale).read boot block _ _ = _ from answer] at answer₁
        cases answer₁
        exact run_short (inside rr allocated stale) short runs

end

/-- A device on which a directory has been read. -/
def directoryDev (records : List Byte) (suspSkip : Byte) : CdromBootDev Unit where
  boot := ⟨(), directoryDisc records 17, 17, true⟩
  voldesc := []
  rootdir := []
  rr := true
  suspSkip := suspSkip

/-- The members of a record with a name of one character. -/
def shortRecord (length : Byte) : List Byte := length :: List.replicate 31 0 ++ [1, 97]

/-- A record that ends with its name. -/
def namedRecord : List Byte := shortRecord 40 ++ chars "NM" ++ [6, 1, 0, 97]

theorem namedRecord_by_itself :
    NamedByItself (steadyHost (directoryDisc namedRecord)) (directoryDev namedRecord 0)
      (directoryDev namedRecord 0).boot 17 0 (discByte (directoryDisc namedRecord) 17 0) := by
  have coherent : Coherent (directoryDisc namedRecord) (directoryDev namedRecord 0).boot := rfl
  refine (named_by_itself_iff (directoryDisc_serves namedRecord) coherent).mpr fun _ _ n => ?_
  have area : slice (discByte (directoryDisc namedRecord) 17
      (suaOffset 0 0 (discByte (directoryDisc namedRecord) 17 0))) 0
        (suaRoom 0 (discByte (directoryDisc namedRecord) 17 0)) = chars "NM" ++ [6, 1, 0, 97] := by decide
  cases n with
  | zero => trivial
  | succ n =>
    refine area ▸ ⟨by decide, ?_⟩
    rw [if_neg (by decide), if_neg (by decide), if_pos (by decide)]
    decide

/-- Behind two bytes to skip and one entry of four, the record behind is taken for another. -/
def skippedRecord : List Byte := shortRecord 40 ++ [0, 0] ++ chars "PX" ++ [4, 1] ++ shortRecord 34

theorem neighbour_read :
    ¬NamedByItself (steadyHost (directoryDisc skippedRecord)) (directoryDev skippedRecord 2)
      (directoryDev skippedRecord 2).boot 17 0 (discByte (directoryDisc skippedRecord) 17 0) := by
  intro named
  have coherent : Coherent (directoryDisc skippedRecord) (directoryDev skippedRecord 2).boot := rfl
  have fits := named.fits (directoryDisc_serves skippedRecord) coherent rfl rfl 2
  have area : slice (discByte (directoryDisc skippedRecord) 17
      (suaOffset 2 0 (discByte (directoryDisc skippedRecord) 17 0))) 0
        (suaRoom 2 (discByte (directoryDisc skippedRecord) 17 0)) = chars "PX" ++ [4, 1] := by decide
  have window : (suaSize (discByte (directoryDisc skippedRecord) 17 0)).toNat = 6 := by decide
  obtain ⟨-, rest⟩ : Fits (fun _ => true) (directoryDisc skippedRecord) 2 6 (chars "PX" ++ [4, 1]) :=
    window ▸ area ▸ fits
  rw [if_neg (by decide), if_neg (by decide), if_neg (by decide)] at rest
  rcases rest with past | ⟨header, -⟩
  · exact absurd past (by decide)
  · exact absurd header (by decide)

end Parthenope.Cdrom
