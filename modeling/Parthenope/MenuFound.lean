import Parthenope.Bootstrap
import Parthenope.MenuScan

/-! Whether a menu is found, and from where its entries are booted. -/
namespace Parthenope.Menu
open CString LinkedList StepLoop

section
variable {Device Partition : Type} {s : Devices Device Partition} {scratch : Word × Word}
  {heap heap' : Heap} {b : Book} {fuel k n : Nat} {l : List Nat} {boot : Option Device}
  {result : Option Addr} {sources : List (Option Nat × Device)} {loaded : List (Loaded Device)}

/-- A menu that is loaded holds what its sources give, in their order. -/
theorem menuLoad_collects (unused : ∀ a, heap.fresh ≤ a → heap.cells a = none)
    (ran : s.menuLoad boot fuel scratch heap = some (.ok (result, heap'))) :
    ∃ k loaded appended, s.Collected (s.sources boot) k loaded ∧
      Stored heap' heap.fresh appended (loaded.map Loaded.entry) ∧
      result = if k = 0 then none else some heap.fresh := by
  have stored := withHead_stored unused
  unfold Devices.menuLoad at ran
  obtain ⟨r, turned, same⟩ := Option.map_eq_some_iff.mp ran
  cases r with
  | error fault => cases same
  | ok pair =>
    obtain ⟨k, final⟩ := pair
    cases same
    cases boot with
    | some dev =>
      obtain ⟨b, appended, ends, rfl, stored'⟩ := devLoad_stores stored turned
      refine ⟨_, _, appended, .cons ends .nil, ?_, rfl⟩
      rw [List.append_nil, List.map_map]
      exact (List.map_id' b.close.added).symm ▸ stored'
    | none =>
      obtain ⟨k', loaded, appended, collected, rfl, stored'⟩ :=
        magicLoop_collects stored (fun _ inside => (nomatch inside)) turned
      refine ⟨k', loaded, appended, collected, stored', ?_⟩
      rw [Nat.zero_add]

/-- A menu is loaded, or found missing, where every menu file has an end. -/
theorem menuLoad_returns (scratch : Word × Word) (unused : ∀ a, heap.fresh ≤ a → heap.cells a = none)
    (ends : ∀ source ∈ s.sources boot, ∃ b, s.EndOf source.2 b) :
    ∃ fuel result heap', s.menuLoad boot fuel scratch heap = some (.ok (result, heap')) := by
  have stored := withHead_stored unused
  cases boot with
  | some dev =>
    obtain ⟨b, here⟩ := ends _ List.mem_cons_self
    obtain ⟨fuel, heap', appended, loaded, -⟩ := devLoad_returns scratch here stored
    refine ⟨fuel, if s.count dev b = 0 then none else some heap.fresh, heap', ?_⟩
    exact congrArg (Option.map _) loaded
  | none =>
    obtain ⟨fuel, r, loaded⟩ := magicLoop_returns (n := 0) scratch ends stored
      fun _ inside => (nomatch inside)
    refine ⟨fuel, if r.1 = 0 then none else some heap.fresh, r.2, ?_⟩
    exact congrArg (Option.map _) loaded

private theorem collected_ends (collected : s.Collected sources k loaded) :
    ∀ source ∈ sources, ∃ b, s.EndOf source.2 b := by
  induction collected with
  | nil => exact fun _ inside => (nomatch inside)
  | cons ends _ ih =>
    intro source inside
    rcases List.mem_cons.mp inside with rfl | later
    · exact ⟨_, ends⟩
    · exact ih source later

/-- The count is zero if no menu file counts. -/
theorem collected_count (collected : s.Collected sources k loaded) :
    k ≠ 0 ↔ ∃ source ∈ sources, ∃ b, s.EndOf source.2 b ∧ s.count source.2 b ≠ 0 := by
  induction collected with
  | nil => simp
  | @cons place dev b rest n loaded ends _ ih =>
    rw [List.exists_mem_cons_iff, ← ih]
    have here : (∃ b', s.EndOf dev b' ∧ s.count dev b' ≠ 0) ↔ s.count dev b ≠ 0 := by
      constructor
      · rintro ⟨b', ends', counted⟩
        exact EndOf.unique ends ends' ▸ counted
      · exact fun counted => ⟨b, ends, counted⟩
    rw [here]
    omega

private theorem collected_entries (collected : s.Collected sources k loaded) :
    loaded ≠ [] ↔ ∃ source ∈ sources, ∃ b, s.EndOf source.2 b ∧ b.close.added ≠ [] := by
  induction collected with
  | nil => simp
  | @cons place dev b rest n loaded ends _ ih =>
    rw [List.exists_mem_cons_iff, ← ih]
    have here : (∃ b', s.EndOf dev b' ∧ b'.close.added ≠ []) ↔ b.close.added ≠ [] := by
      constructor
      · rintro ⟨b', ends', added⟩
        exact EndOf.unique ends ends' ▸ added
      · exact fun added => ⟨b, ends, added⟩
    rw [here]
    simp only [ne_eq, List.append_eq_nil_iff, List.map_eq_nil_iff]
    tauto

/-- The text ends inside an entry without a kernel and an other line. -/
def Book.Unfinished (b : Book) : Prop := ∃ entry, b.current = some entry ∧ entry.kernel = none ∧ entry.other = none

/-- A title line has closed a complete entry, or the text ends inside one that has a kernel or
an other line. -/
def Book.HasEntry (b : Book) : Prop :=
  b.added ≠ [] ∨ ∃ entry, b.current = some entry ∧ (entry.kernel ≠ none ∨ entry.other ≠ none)

/-- The menu file of a device is a `menu.lst`. -/
def Devices.MenuLst (s : Devices Device Partition) (dev : Device) : Prop :=
  ∃ buffer length, s.menuFile dev = some (menuLst, buffer, length)

/-- The menu file of a device is a `Kicklayout`. -/
def Devices.Kicklayout (s : Devices Device Partition) (dev : Device) : Prop :=
  ∃ buffer length, s.menuFile dev = some (kicklayout, buffer, length)

/-- A menu file that ends so is taken for a menu. It must not end in an unfinished entry; in a
`menu.lst` that is enough, and a `Kicklayout` needs an entry. -/
def Devices.Counts (s : Devices Device Partition) (dev : Device) (b : Book) : Prop :=
  ¬b.Unfinished ∧ (s.MenuLst dev ∨ s.Kicklayout dev ∧ b.HasEntry)

theorem bootable_iff {entry : Entry} : bootable entry = true ↔ entry.kernel ≠ none ∨ entry.other ≠ none := by
  rw [bootable, Bool.or_eq_true, Option.isSome_iff_ne_none, Option.isSome_iff_ne_none]

private theorem unfinished_iff : b.Unfinished ↔ ∃ entry, b.current = some entry ∧ bootable entry = false := by
  simp only [Book.Unfinished, Bool.eq_false_iff, ne_eq, bootable_iff, not_or, not_not]

/-- Just these books have an entry once they are closed. -/
theorem hasEntry_iff : b.HasEntry ↔ b.close.added ≠ [] := by
  unfold Book.HasEntry Book.close
  simp only [← bootable_iff]
  cases b.current with
  | none => simp
  | some entry => cases kept : bootable entry <;> simp [kept, Book.discard]

private theorem menuFile_cases (s : Devices Device Partition) (dev : Device) :
    s.menuFile dev = none ∨ s.MenuLst dev ∨ s.Kicklayout dev := by
  unfold Devices.MenuLst Devices.Kicklayout Devices.menuFile
  dsimp only
  split
  · exact .inr (.inl ⟨_, _, rfl⟩)
  · split
    · exact .inr (.inl ⟨_, _, rfl⟩)
    · split
      · exact .inr (.inr ⟨_, _, rfl⟩)
      · exact .inl rfl

private theorem menuLst_ne_kicklayout : menuLst ≠ kicklayout := fun same =>
  absurd (congrArg Dialect.comment same) (by decide)

private theorem not_both (dev : Device) (kick : s.Kicklayout dev) : ¬s.MenuLst dev := by
  rintro ⟨buffer, length, menu⟩
  obtain ⟨buffer', length', kick⟩ := kick
  rw [menu, Option.some.injEq] at kick
  exact menuLst_ne_kicklayout (Prod.mk.inj kick).1

private theorem counts_iff (dev : Device) : s.Counts dev b ↔ s.count dev b ≠ 0 := by
  unfold Devices.Counts Devices.count
  rcases menuFile_cases s dev with missing | menu | kick
  · have neither : ¬(s.MenuLst dev ∨ s.Kicklayout dev ∧ b.HasEntry) := by
      rintro (⟨buffer, length, there⟩ | ⟨⟨buffer, length, there⟩, -⟩)
      all_goals
        rw [missing] at there
        cases there
    simp [missing, neither]
  · have either : s.MenuLst dev ∨ s.Kicklayout dev ∧ b.HasEntry := .inl menu
    obtain ⟨buffer, length, file⟩ := menu
    rw [file]
    simp only [either, and_true, unfinished_iff, Dialect.returns]
    cases b.current with
    | none => simp [menuLst]
    | some entry => cases kept : bootable entry <;> simp [kept]
  · have other := not_both dev kick
    have same := kick
    obtain ⟨buffer, length, file⟩ := kick
    rw [file]
    simp only [other, same, false_or, true_and, unfinished_iff, Book.HasEntry, ← bootable_iff, Dialect.returns]
    cases b.current with
    | none => simp [kicklayout]
    | some entry => cases kept : bootable entry <;> simp [kept]

/-- There is a menu if and only if an entry was added to the list. -/
def Devices.MenuIfEntries (s : Devices Device Partition) (boot : Option Device) (scratch : Word × Word)
    (heap : Heap) : Prop :=
  ∃ fuel result heap' appended, s.menuLoad boot fuel scratch heap = some (.ok (result, heap')) ∧
    Spells heap'.link heap.fresh (heap.fresh :: appended) ∧ (result ≠ none ↔ appended ≠ [])

private theorem Stored.appended_ne_nil {menu : Addr} {appended : List Addr}
    (stored : Stored heap menu appended (loaded.map Loaded.entry)) : appended ≠ [] ↔ loaded ≠ [] := by
  have lengths := congrArg List.length stored.entries
  rw [List.length_map, List.length_map, List.length_map] at lengths
  rw [← List.length_pos_iff, ← List.length_pos_iff, lengths]

/-- How the menu files must end: some file has an entry and some file counts, or none has an
entry and every `menu.lst` ends in an unfinished one. -/
def Devices.EndsRight (s : Devices Device Partition) (sources : List (Option Nat × Device)) : Prop :=
  ((∃ source ∈ sources, ∃ b, s.EndOf source.2 b ∧ b.HasEntry) ∧
      ∃ source ∈ sources, ∃ b, s.EndOf source.2 b ∧ s.Counts source.2 b) ∨
    ∀ source ∈ sources, ∀ b, s.EndOf source.2 b → ¬b.HasEntry ∧ (s.MenuLst source.2 → b.Unfinished)

private theorem endsRight_iff : s.EndsRight sources ↔
    ((∃ source ∈ sources, ∃ b, s.EndOf source.2 b ∧ s.Counts source.2 b) ↔
      ∃ source ∈ sources, ∃ b, s.EndOf source.2 b ∧ b.HasEntry) := by
  have neither : (∀ source ∈ sources, ∀ b, s.EndOf source.2 b →
        ¬b.HasEntry ∧ (s.MenuLst source.2 → b.Unfinished)) ↔
      (¬∃ source ∈ sources, ∃ b, s.EndOf source.2 b ∧ b.HasEntry) ∧
        ¬∃ source ∈ sources, ∃ b, s.EndOf source.2 b ∧ s.Counts source.2 b := by
    constructor
    · intro all
      refine ⟨?_, ?_⟩
      · rintro ⟨source, inside, b, ends, entry⟩
        exact (all source inside b ends).1 entry
      · rintro ⟨source, inside, b, ends, finished, menu | ⟨-, entry⟩⟩
        · exact finished ((all source inside b ends).2 menu)
        · exact (all source inside b ends).1 entry
    · rintro ⟨entries, counted⟩ source inside b ends
      refine ⟨fun entry => entries ⟨source, inside, b, ends, entry⟩, fun menu => ?_⟩
      by_contra finished
      exact counted ⟨source, inside, b, ends, finished, .inl menu⟩
  rw [Devices.EndsRight, neither]
  exact iff_iff_and_or_not_and_not.symm.trans Iff.comm

theorem MenuIfEntries.balanced (unused : ∀ a, heap.fresh ≤ a → heap.cells a = none)
    (right : s.MenuIfEntries boot scratch heap) :
    (∀ source ∈ s.sources boot, ∃ b, s.EndOf source.2 b) ∧ s.EndsRight (s.sources boot) := by
  obtain ⟨fuel, result, heap', appended, ran, spelled, right⟩ := right
  obtain ⟨k, loaded, appended', collected, stored, rfl⟩ := menuLoad_collects unused ran
  cases List.tail_eq_of_cons_eq (spelled.unique stored.lists.spelled)
  refine ⟨collected_ends collected, endsRight_iff.mpr ?_⟩
  simp only [counts_iff, hasEntry_iff]
  rw [← collected_count collected, ← collected_entries collected, ← stored.appended_ne_nil, ← right]
  by_cases zero : k = 0
  · simp [zero]
  · simp [zero]

private theorem menuIfEntries_of_ends (scratch : Word × Word) (unused : ∀ a, heap.fresh ≤ a → heap.cells a = none)
    (ends : ∀ source ∈ s.sources boot, ∃ b, s.EndOf source.2 b) (right : s.EndsRight (s.sources boot)) :
    s.MenuIfEntries boot scratch heap := by
  have balanced := endsRight_iff.mp right
  obtain ⟨fuel, result, heap', ran⟩ := menuLoad_returns scratch unused ends
  obtain ⟨k, loaded, appended, collected, stored, rfl⟩ := menuLoad_collects unused ran
  refine ⟨fuel, _, heap', appended, ran, stored.lists.spelled, ?_⟩
  simp only [counts_iff, hasEntry_iff] at balanced
  rw [← collected_count collected, ← collected_entries collected, ← stored.appended_ne_nil] at balanced
  rw [← balanced]
  by_cases zero : k = 0
  · simp [zero]
  · simp [zero]

private theorem only_source {dev : Device} {P : Device → Book → Prop} (ends : s.EndOf dev b) :
    (∃ source ∈ s.sources (some dev), ∃ b, s.EndOf source.2 b ∧ P source.2 b) ↔ P dev b := by
  constructor
  · rintro ⟨source, inside, b', ends', holds⟩
    cases List.mem_singleton.mp inside
    exact EndOf.unique ends ends' ▸ holds
  · exact fun holds => ⟨_, List.mem_singleton_self _, b, ends, holds⟩

/-- With one menu file it depends on how that ends. -/
theorem endsRight_one {dev : Device} (ends : s.EndOf dev b) :
    s.EndsRight (s.sources (some dev)) ↔
      (s.MenuLst dev → (b.HasEntry ↔ ¬b.Unfinished)) ∧ (s.Kicklayout dev → b.HasEntry → ¬b.Unfinished) := by
  rw [endsRight_iff, only_source ends, @only_source _ _ s b dev (fun _ b => b.HasEntry) ends, Devices.Counts]
  rcases menuFile_cases s dev with missing | menu | kick
  · have without : ¬b.HasEntry := by
      rw [Devices.EndOf, missing] at ends
      subst ends
      rintro (added | ⟨entry, current, -⟩)
      · exact added rfl
      · cases current
    have none (d : Dialect) : ¬∃ buffer length, s.menuFile dev = some (d, buffer, length) := by
      rintro ⟨buffer, length, file⟩
      rw [missing] at file
      cases file
    simp only [Devices.MenuLst, Devices.Kicklayout, none, without, or_false, and_false, false_imp_iff, and_self]
  · have other : ¬s.Kicklayout dev := fun kick => not_both dev kick menu
    simp only [menu, other, false_and, or_false, and_true, true_imp_iff, false_imp_iff]
    exact Iff.comm
  · have other := not_both dev kick
    simp only [kick, other, true_and, false_or, false_imp_iff, true_imp_iff]
    exact and_iff_right_iff_imp

/-- `menu_load` returns a menu exactly where an entry was added if and only if every menu file
has an end and these end right. For a single file that means: a `menu.lst` ends in an unfinished
entry just where it has no entry, and a `Kicklayout` with an entry does not end in an unfinished
one. -/
theorem menuLoad_finds_iff (s : Devices Device Partition) (scratch : Word × Word)
    (unused : ∀ a, heap.fresh ≤ a → heap.cells a = none) :
    (∀ boot, s.MenuIfEntries boot scratch heap ↔
      (∀ source ∈ s.sources boot, ∃ b, s.EndOf source.2 b) ∧ s.EndsRight (s.sources boot)) ∧
    ∀ dev, s.MenuIfEntries (some dev) scratch heap ↔
      ∃ b, s.EndOf dev b ∧ (s.MenuLst dev → (b.HasEntry ↔ ¬b.Unfinished)) ∧
        (s.Kicklayout dev → b.HasEntry → ¬b.Unfinished) := by
  have all (boot : Option Device) : s.MenuIfEntries boot scratch heap ↔
      (∀ source ∈ s.sources boot, ∃ b, s.EndOf source.2 b) ∧ s.EndsRight (s.sources boot) :=
    ⟨MenuIfEntries.balanced unused, fun both => menuIfEntries_of_ends scratch unused both.1 both.2⟩
  refine ⟨all, fun dev => (all (some dev)).trans ⟨?_, ?_⟩⟩
  · rintro ⟨ended, right⟩
    obtain ⟨b, ends⟩ := ended _ (List.mem_singleton_self _)
    exact ⟨b, ends, (endsRight_one ends).mp right⟩
  · rintro ⟨b, ends, right⟩
    refine ⟨fun source inside => ?_, (endsRight_one ends).mpr right⟩
    cases List.mem_singleton.mp inside
    exact ⟨b, ends⟩

theorem mem_scanned {place : Option Nat} {dev : Device} (inside : (place, dev) ∈ s.scanned l) :
    ∃ i ∈ l, place = some i ∧
      (s.rdbPartitionTableGet (BitVec.ofNat 8 i)).bind s.create = some dev := by
  induction l with
  | nil => cases inside
  | cons i rest ih =>
    unfold Devices.scanned at inside
    cases present : s.rdbPartitionTableGet (BitVec.ofNat 8 i) with
    | none =>
      rw [present] at inside
      cases inside
    | some partition =>
      simp only [present] at inside
      have later (inside : (place, dev) ∈ s.scanned rest) :
          ∃ j ∈ i :: rest, place = some j ∧
            (s.rdbPartitionTableGet (BitVec.ofNat 8 j)).bind s.create = some dev := by
        obtain ⟨j, member, found⟩ := ih inside
        exact ⟨j, List.mem_cons_of_mem _ member, found⟩
      cases created : s.create partition with
      | none =>
        simp only [created] at inside
        exact later inside
      | some dev' =>
        simp only [created] at inside
        rcases List.mem_cons.mp inside with same | inRest
        · cases same
          refine ⟨i, List.mem_cons_self, rfl, ?_⟩
          rw [present]
          exact created
        · exact later inRest

theorem mem_collected (collected : s.Collected sources k loaded) :
    ∀ entry ∈ loaded, (entry.place, entry.device) ∈ sources ∧
      ∃ b, s.EndOf entry.device b ∧ entry.found ∈ b.close.added := by
  induction collected with
  | nil => exact fun _ inside => (nomatch inside)
  | @cons place dev b rest n loaded ends _ ih =>
    intro entry inside
    rcases List.mem_append.mp inside with here | later
    · obtain ⟨found, member, rfl⟩ := List.mem_map.mp here
      exact ⟨List.mem_cons_self, b, ends, member⟩
    · obtain ⟨source, file⟩ := ih entry later
      exact ⟨List.mem_cons_of_mem _ source, file⟩

/-- Only a root line changes the place of an entry. -/
theorem directive_place {status : Status} {text : List Byte} {entry entry' : Entry}
    (taken : directive status text entry = some entry') (other : status ≠ .RT) :
    entry'.deviceType = entry.deviceType ∧ entry'.partition = entry.partition := by
  cases status with
  | RT => exact absurd rfl other
  | K =>
    simp only [directive, kernelLine] at taken
    split at taken
    · cases taken
    · cases taken
      exact ⟨rfl, rfl⟩
  | O =>
    simp only [directive, otherLine] at taken
    obtain ⟨name, rfl⟩ := wordLine_taken taken
    exact ⟨rfl, rfl⟩
  | RD =>
    simp only [directive, initrdLine] at taken
    obtain ⟨name, rfl⟩ := wordLine_taken taken
    exact ⟨rfl, rfl⟩
  | DTB =>
    simp only [directive, dtbLine] at taken
    obtain ⟨name, rfl⟩ := wordLine_taken taken
    exact ⟨rfl, rfl⟩
  | M =>
    simp only [directive, moduleLine] at taken
    obtain ⟨name, rfl⟩ := wordLine_taken taken
    exact ⟨rfl, rfl⟩
  | _ => cases taken

/-- Only a root line that is accepted gives an entry a device. -/
theorem directive_device {status : Status} {text : List Byte} {entry entry' : Entry}
    (taken : directive status text entry = some entry') :
    entry'.deviceType = .default ↔ status ≠ .RT ∧ entry.deviceType = .default := by
  by_cases root : status = .RT
  · subst root
    simp only [directive, rootLine] at taken
    repeat' split at taken
    all_goals cases taken
    all_goals exact ⟨by rintro ⟨⟩, fun both => absurd rfl both.1⟩
  · rw [(directive_place taken root).1]
    exact ⟨fun same => ⟨root, same⟩, And.right⟩

/-- An entry marked with a partition is booted from the device on it. -/
theorem bootDevice_mark {i : Nat} {dev : Device} {found : Entry}
    (there : (s.rdbPartitionTableGet (BitVec.ofNat 8 i)).bind s.create = some dev)
    (unrooted : found.deviceType = .default) : s.bootDevice boot (mark i found) = some dev := by
  rw [mark, if_pos unrooted]
  unfold Devices.bootDevice
  dsimp only
  rw [BitVec.setWidth_ofNat_of_le (by decide)]
  exact there

/-- An entry without a root line is booted from the device whose menu file it is in,
and one with a root line is as its file has it; no later part of a scan changes an
entry. -/
theorem entries_boot_from_source (unused : ∀ a, heap.fresh ≤ a → heap.cells a = none)
    (ran : s.menuLoad boot fuel scratch heap = some (.ok (result, heap'))) :
    ∃ k loaded appended, s.Collected (s.sources boot) k loaded ∧
      Stored heap' heap.fresh appended (loaded.map Loaded.entry) ∧
      ∀ entry ∈ loaded,
        (∃ b, s.EndOf entry.device b ∧ entry.found ∈ b.close.added) ∧
        (entry.found.deviceType = .default → s.bootDevice boot entry.entry = some entry.device) ∧
        (entry.found.deviceType ≠ .default → entry.entry = entry.found) ∧
        (boot = none → ∀ i, mark i entry.entry = entry.entry) := by
  obtain ⟨k, loaded, appended, collected, stored, -⟩ := menuLoad_collects unused ran
  refine ⟨k, loaded, appended, collected, stored, ?_⟩
  intro entry inside
  obtain ⟨source, file⟩ := mem_collected collected entry inside
  refine ⟨file, ?_⟩
  obtain ⟨place, device, found⟩ := entry
  cases boot with
  | some dev =>
    cases List.mem_singleton.mp source
    refine ⟨fun unrooted => ?_, fun _ => rfl, fun none => by cases none⟩
    change s.bootDevice (some device) found = some device
    unfold Devices.bootDevice
    rw [show found.deviceType = .default from unrooted]
  | none =>
    obtain ⟨i, -, rfl, there⟩ := mem_scanned source
    exact ⟨bootDevice_mark there, fun rooted => if_neg rooted, fun _ j => mark_mark found⟩

/-- The device `bootstrap` opens is the one it tests for. -/
theorem opens_bootDevice (o : Bootstrap.Outcomes) (entry : Entry) (booting : o.bootingDevice = boot.isSome)
    (ide : ∀ disk partition, o.ide disk partition =
      ((s.rdbPartitionTableGet (partition.setWidth 8)).bind s.create).isSome)
    (tftp : o.tftp = s.tftpCreate.isSome) (cdrom : o.cdrom = s.cdromCreate.isSome) :
    Bootstrap.opens o entry = (s.bootDevice boot entry).isSome := by
  unfold Bootstrap.opens Devices.bootDevice
  cases entry.deviceType with
  | default => exact booting
  | ide => exact ide _ _
  | tftp => exact tftp
  | cd => exact cdrom

end

private theorem not_menuIfEntries {Device Partition : Type} {s : Devices Device Partition}
    {scratch : Word × Word} {heap : Heap} {dev : Device} {b : Book}
    (unused : ∀ a, heap.fresh ≤ a → heap.cells a = none) (ends : s.EndOf dev b) (menu : s.MenuLst dev)
    (wrong : b.HasEntry ↔ b.Unfinished) : ¬ s.MenuIfEntries (some dev) scratch heap := by
  intro right
  have balanced := ((endsRight_one ends).mp (MenuIfEntries.balanced unused right).2).1 menu
  rw [wrong] at balanced
  exact iff_not_self balanced

/-- Boot devices that have a text as their `menu.lst` and nothing else. -/
def textDevice : Devices (List Byte) Unit where
  table _ := none
  ext2Create _ := none
  sfsCreate _ := none
  tftpCreate := none
  cdromCreate := none
  loadFile text name := if name = chars "menu.lst" then (text.length, text) else (-1, [])

def emptyHeap : Heap where
  cells _ := none
  fresh := 0

private theorem textDevice_file (text : List Byte) (written : text ≠ []) :
    textDevice.menuFile text = some (menuLst, text, text.length) := by
  have positive : (0 : Int) < text.length := Int.natCast_pos.mpr (List.length_pos_iff.mpr written)
  unfold Devices.menuFile
  simp only [textDevice, if_true, positive, Int.toNat_natCast]

/-- The end of a text after some lines. -/
theorem textDevice_ends (text : List Byte) (n : Nat) (check : Book → Bool) (written : text ≠ [])
    (ends : ((advance (Reader.step menuLst text text.length) n ⟨0, .start (0, 5)⟩).any fun q =>
      (getline text text.length q.offset).isNone && check q.book) = true) :
    ∃ b, textDevice.EndOf text b ∧ check b = true := by
  obtain ⟨q, advanced, checks⟩ := (Option.any_eq_true _ _).mp ends
  rw [Bool.and_eq_true, Option.isNone_iff_eq_none] at checks
  refine ⟨q.book, ?_, checks.2⟩
  unfold Devices.EndOf
  rw [textDevice_file text written]
  exact ⟨q, reaches_advance advanced, checks.1, rfl⟩

def defaultOnly : List Byte := chars "default 1\n"

def incompleteLast : List Byte := chars "title a\nkernel k\ntitle b\n"

/-- A file without an entry is taken for a menu, and an incomplete last entry hides
the complete one before it. -/
theorem count_misses_entries :
    ¬ textDevice.MenuIfEntries (some defaultOnly) (0, 0) emptyHeap ∧
      ¬ textDevice.MenuIfEntries (some incompleteLast) (0, 0) emptyHeap := by
  constructor
  · obtain ⟨b, ends, checks⟩ := textDevice_ends defaultOnly 1
      (fun b => b.current.isNone && b.close.added.isEmpty) (by decide) (by decide)
    rw [Bool.and_eq_true, Option.isNone_iff_eq_none, List.isEmpty_iff] at checks
    refine not_menuIfEntries (fun _ _ => rfl) ends ⟨_, _, textDevice_file defaultOnly (by decide)⟩ ?_
    rw [hasEntry_iff, unfinished_iff, checks.1, checks.2]
    simp
  · obtain ⟨b, ends, checks⟩ := textDevice_ends incompleteLast 4
      (fun b => b.current.any (!bootable ·) && !b.close.added.isEmpty) (by decide)
      (by decide)
    rw [Bool.and_eq_true, Option.any_eq_true] at checks
    obtain ⟨⟨entry, current, unbootable⟩, added⟩ := checks
    refine not_menuIfEntries (fun _ _ => rfl) ends ⟨_, _, textDevice_file incompleteLast (by decide)⟩ ?_
    have kept : b.HasEntry := hasEntry_iff.mpr (by simpa using added)
    have dropped : b.Unfinished := unfinished_iff.mpr ⟨entry, current, by simpa using unbootable⟩
    exact iff_of_true kept dropped

def oneEntry : List Byte := chars "title a\nkernel k\n"

theorem oneEntry_found : textDevice.MenuIfEntries (some oneEntry) (0, 0) emptyHeap := by
  obtain ⟨b, ends, checks⟩ := textDevice_ends oneEntry 2 (fun b => b.current.any bootable) (by decide) (by decide)
  obtain ⟨entry, current, kept⟩ := (Option.any_eq_true _ _).mp checks
  have finished : ¬b.Unfinished := by
    rintro ⟨other, same, kernel, chained⟩
    rw [current, Option.some.injEq] at same
    subst same
    exact (bootable_iff.mp kept).elim (absurd kernel) (absurd chained)
  have entry : b.HasEntry := .inr ⟨entry, current, bootable_iff.mp kept⟩
  refine ((menuLoad_finds_iff textDevice (0, 0) fun _ _ => rfl).2 oneEntry).mpr
    ⟨b, ends, fun _ => ?_, fun _ _ => finished⟩
  exact iff_of_true entry finished

/-- Two partitions with a menu file each. -/
def twoPartitions : Devices (List Byte) (List Byte) where
  table i := if i = 0 then some oneEntry else if i = 1 then some (chars "title b\nroot tftp\nkernel k\n") else none
  ext2Create := some
  sfsCreate _ := none
  tftpCreate := none
  cdromCreate := none
  loadFile text name := if name = chars "menu.lst" then (text.length, text) else (-1, [])

theorem twoPartitions_boot :
    ∃ result heap', twoPartitions.menuLoad none 20 (0, 0) emptyHeap = some (.ok (result, heap')) ∧
      ∃ k loaded appended, twoPartitions.Collected (twoPartitions.sources none) k loaded ∧
        Stored heap' 0 appended (loaded.map Loaded.entry) ∧
        ∀ entry ∈ loaded,
          (∃ b, twoPartitions.EndOf entry.device b ∧ entry.found ∈ b.close.added) ∧
          (entry.found.deviceType = .default →
            twoPartitions.bootDevice none entry.entry = some entry.device) ∧
          (entry.found.deviceType ≠ .default → entry.entry = entry.found) ∧
          ((none : Option (List Byte)) = none → ∀ i, mark i entry.entry = entry.entry) := by
  have loads : (twoPartitions.menuLoad none 20 (0, 0) emptyHeap).any Except.isOk = true := by
    decide
  obtain ⟨r, ran, fine⟩ := (Option.any_eq_true _ _).mp loads
  cases r with
  | error fault => cases fine
  | ok pair => exact ⟨pair.1, pair.2, ran, entries_boot_from_source (fun _ _ => rfl) ran⟩

end Parthenope.Menu
