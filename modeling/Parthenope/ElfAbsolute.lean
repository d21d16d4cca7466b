import Parthenope.ElfEntries

/-! Entries for absolute symbols. Their target depends neither on where the image is
written nor on where it runs, and `SysBase` is at address 4 whatever its value says. -/
namespace Parthenope.ElfAbsolute
open ByteMemory Elf ElfEntries ElfLayout ElfModule ElfRelocation StepLoop

/-- The value an absolute symbol is to have. -/
def absoluteValue (c : Relocation) (m : Mem) (i : Nat) : Word :=
  if Named c m (symAddr c m i) then 4 else (symbolOf c m i).value

/-- Entry `i` by the ABI, for an absolute symbol. -/
def applyAbsolute (c : Relocation) (m : Mem) (i : Nat) : Mem :=
  applyType m (fieldOf c m i) (entryAt c m i).type (absoluteValue c m i) (entryAt c m i).addend
    (virtualOf (fieldOf c m i))

/-- What an entry of this type stores for a target, in a field that is seen at `P`. -/
def stored (type target P : Word) : Word :=
  if type = rPpcAddr32 then target
  else if type = rPpcAddr16Lo then (lo16 target).setWidth 32
  else if type = rPpcAddr16Ha then (ha16 target).setWidth 32
  else if type = rPpcRel24 then (target - P) &&& 0x3fffffc
  else target - P

/-- The entry's symbol is absolute and named `SysBase`. -/
def NamesSysBase (c : Relocation) (m : Mem) (i : Nat) : Prop :=
  (symbolOf c m i).shindex = shnAbs ∧ Named c m (symAddr c m i)

/-- The symbol of entry `i` is the first absolute one named `SysBase` that `relocate` comes to. -/
def FirstSysBase (sh : SectionTable) (k : Nat) (start : Mem) (i : Nat) (m : Mem) : Prop :=
  let c := relocation sh k displacement
  ∃ j ≤ i, ∃ sysBase m', Turn sh k start j sysBase m' ∧ NamesSysBase c m' j ∧ symAddr c m' j = symAddr c m i ∧
    ∀ l < j, ∀ sysBase m', Turn sh k start l sysBase m' → ¬NamesSysBase c m' l

/-- `SysBase` is stored right in absolute fields, other symbols in low halfwords. A first
symbol whose name has been patched since and a second symbol of the name are stored right
where the two values meant give the same field. -/
def StoredRight (sh : SectionTable) (k : Nat) (start : Mem) (i : Nat) (m : Mem) : Prop :=
  let c := relocation sh k displacement
  let r := entryAt c m i
  let P := virtualOf (fieldOf c m i)
  let value := (symbolOf c m i).value
  (FirstSysBase sh k start i m →
    if Named c m (symAddr c m i) then r.type ∈ [rPpcAddr32, rPpcAddr16Lo, rPpcAddr16Ha]
    else stored r.type (4 + r.addend) (fieldOf c m i) = stored r.type (value + r.addend) P) ∧
  (¬FirstSysBase sh k start i m →
    if Named c m (symAddr c m i) then stored r.type (virtualOf value + r.addend) P = stored r.type (4 + r.addend) P
    else r.type = rPpcAddr16Lo)

section
variable {c : Relocation} {sh : SectionTable} {m m' start : Mem} {i j k n : Nat} {sysBase : Option Word}
  {p type S S' A P P' : Word}

private theorem store16_inj {x y : BitVec 16} : store16 m p x = store16 m p y ↔ x = y := by
  constructor
  · intro same
    have loaded := congrArg (load16 · p) same
    simpa only [load16_store16 (show 2 < 32 by decide)] using loaded
  · exact congrArg _

private theorem store32_inj {x y : Word} : store32 m p x = store32 m p y ↔ x = y := by
  constructor
  · intro same
    have loaded := congrArg (load32 · p) same
    simpa only [load32_store32 (show 2 < 32 by decide)] using loaded
  · exact congrArg _

/-- A field put into the bits of a mask is read back from them. -/
theorem masked_inj {x y old mask : Word} :
    (old &&& ~~~mask) ||| (x &&& mask) = (old &&& ~~~mask) ||| (y &&& mask) ↔ x &&& mask = y &&& mask := by
  have read (x : Word) : ((old &&& ~~~mask) ||| (x &&& mask)) &&& mask = x &&& mask := by
    ext i
    simp
    grind
  constructor
  · intro same
    rw [← read x, same, read y]
  · exact congrArg _

private theorem halfword_inj {x y : BitVec 16} : x.setWidth 32 = y.setWidth 32 ↔ x = y := by
  constructor
  · intro same
    have low := congrArg (BitVec.setWidth 16) same
    simpa using low
  · exact congrArg _

private theorem applyType_same_iff (m : Mem) (p : Word)
    (stores : type ∈ [rPpcAddr32, rPpcAddr16Lo, rPpcAddr16Ha, rPpcRel24, rPpcRel32]) :
    applyType m p type S A P = applyType m p type S' A P' ↔ stored type (S + A) P = stored type (S' + A) P' := by
  simp only [List.mem_cons, List.not_mem_nil, or_false] at stores
  simp only [applyType, stored]
  split_ifs
  · exact store32_inj
  · rw [store16_inj, halfword_inj]
  · rw [store16_inj, halfword_inj]
  · rw [store32_inj, masked_inj]
  · exact store32_inj
  · simp_all

private theorem lo16_add {x d : Word} (whole : d.toNat % 0x10000 = 0) : lo16 (x + d) = lo16 x := by
  apply BitVec.eq_of_toNat_eq
  rw [lo16, lo16, BitVec.toNat_setWidth, BitVec.toNat_setWidth, BitVec.toNat_add]
  omega

private theorem ha16_add {x d : Word} (whole : d.toNat % 0x10000 = 0) (moved : d ≠ 0) : ha16 (x + d) ≠ ha16 x := by
  intro same
  have halves := congrArg BitVec.toNat same
  rw [ha16_toNat, ha16_toNat, BitVec.toNat_add] at halves
  have nonzero : d.toNat ≠ 0 := fun zero => moved (BitVec.eq_of_toNat_eq zero)
  omega

/-- An offset of an odd number of 16 MiB shows in the bits of a branch. -/
theorem branch_add {x d : Word} (odd : d.toNat % 0x2000000 = 0x1000000) :
    (x + d) &&& 0x3fffffc ≠ x &&& 0x3fffffc := by
  intro same
  have bit := congrArg (BitVec.getLsbD · 24) same
  have inside : (0x3fffffc : Word).getLsbD 24 = true := by decide
  simp only [BitVec.getLsbD_and, inside, Bool.and_true] at bit
  rw [BitVec.getLsbD, BitVec.getLsbD, Nat.testBit_eq_decide_div_mod_eq, Nat.testBit_eq_decide_div_mod_eq,
    decide_eq_decide, BitVec.toNat_add] at bit
  omega

private theorem displacement_moves : displacement ≠ 0 ∧ displacement.toNat % 0x10000 = 0 ∧
    displacement.toNat % 0x2000000 = 0x1000000 := by decide

private theorem stored_addr32 : stored rPpcAddr32 S P = S := rfl
private theorem stored_addr16Lo : stored rPpcAddr16Lo S P = (lo16 S).setWidth 32 := rfl
private theorem stored_addr16Ha : stored rPpcAddr16Ha S P = (ha16 S).setWidth 32 := rfl
private theorem stored_rel24 : stored rPpcRel24 S P = (S - P) &&& 0x3fffffc := rfl
private theorem stored_rel32 : stored rPpcRel32 S P = S - P := rfl

/-- A target with the displacement added is stored right in low halfwords only. -/
theorem stored_displaced (stores : type ∈ [rPpcAddr32, rPpcAddr16Lo, rPpcAddr16Ha, rPpcRel24, rPpcRel32]) :
    stored type (S + displacement) P = stored type S P ↔ type = rPpcAddr16Lo := by
  obtain ⟨moved, whole, odd⟩ := displacement_moves
  have relative : S + displacement - P = S - P + displacement := by ring
  simp only [List.mem_cons, List.not_mem_nil, or_false] at stores
  rcases stores with rfl | rfl | rfl | rfl | rfl
  · rw [stored_addr32, stored_addr32]
    exact iff_of_false (by simpa using moved) (by decide)
  · rw [stored_addr16Lo, stored_addr16Lo, lo16_add whole]
    exact iff_of_true rfl rfl
  · rw [stored_addr16Ha, stored_addr16Ha, halfword_inj]
    exact iff_of_false (ha16_add whole moved) (by decide)
  · rw [stored_rel24, stored_rel24, relative]
    exact iff_of_false (branch_add odd) (by decide)
  · rw [stored_rel32, stored_rel32, relative]
    exact iff_of_false (by simpa using moved) (by decide)

/-- A target is stored alike wherever the field is seen, but for relative fields. -/
theorem stored_seen (stores : type ∈ [rPpcAddr32, rPpcAddr16Lo, rPpcAddr16Ha, rPpcRel24, rPpcRel32]) :
    stored type S P = stored type S (virtualOf P) ↔ type ∈ [rPpcAddr32, rPpcAddr16Lo, rPpcAddr16Ha] := by
  obtain ⟨moved, -, odd⟩ := displacement_moves
  have relative : S - P = S - virtualOf P + displacement := by
    unfold virtualOf
    ring
  simp only [List.mem_cons, List.not_mem_nil, or_false] at stores
  rcases stores with rfl | rfl | rfl | rfl | rfl
  · rw [stored_addr32, stored_addr32]
    exact iff_of_true rfl (by decide)
  · rw [stored_addr16Lo, stored_addr16Lo]
    exact iff_of_true rfl (by decide)
  · rw [stored_addr16Ha, stored_addr16Ha]
    exact iff_of_true rfl (by decide)
  · rw [stored_rel24, stored_rel24, relative]
    exact iff_of_false (branch_add odd) (by decide)
  · rw [stored_rel32, stored_rel32, relative]
    exact iff_of_false (by simpa using moved) (by decide)

private theorem entry_absolute (virt : c.virt = displacement) (absolute : (symbolOf c m i).shindex = shnAbs)
    (stores : (entryAt c m i).type ∈ [rPpcAddr32, rPpcAddr16Lo, rPpcAddr16Ha, rPpcRel24, rPpcRel32]) :
    (c.entry i sysBase m).map Prod.snd =
      some (if IsSysBase c m sysBase (symAddr c m i) then
        applyType m (fieldOf c m i) (entryAt c m i).type 4 (entryAt c m i).addend (fieldOf c m i)
      else applyType m (fieldOf c m i) (entryAt c m i).type (virtualOf (symbolOf c m i).value)
        (entryAt c m i).addend (virtualOf (fieldOf c m i))) := by
  have patched (s v : Word) := patch_seen m (fieldOf c m i) (entryAt c m i) s v (List.mem_cons_of_mem _ stores)
  rw [entry_eq, resolve_absolute (a := symAddr c m i) absolute, virt]
  split
  · have seen := patched 4 0
    rw [add_zero, add_zero] at seen
    rw [Option.bind_some, seen]
    rfl
  · rw [Option.bind_some, patched]
    rfl

/-- What a turn remembers. -/
theorem entry_sysBase {sysBase' : Option Word} (passed : c.entry i sysBase m = some (sysBase', m')) :
    sysBase' = if (symbolOf c m i).shindex = shnAbs ∧ IsSysBase c m sysBase (symAddr c m i) then
      some (symAddr c m i) else sysBase := by
  rw [entry_eq] at passed
  obtain ⟨⟨s, v, kept⟩, resolved, patched⟩ := Option.bind_eq_some_iff.mp passed
  obtain ⟨_, -, same⟩ := Option.map_eq_some_iff.mp patched
  cases same
  by_cases absolute : (symbolOf c m i).shindex = shnAbs
  · rw [resolve_absolute (a := symAddr c m i) absolute] at resolved
    by_cases first : IsSysBase c m sysBase (symAddr c m i)
    · rw [if_pos first] at resolved
      rw [if_pos ⟨absolute, first⟩]
      cases resolved
      rfl
    · rw [if_neg first] at resolved
      rw [if_neg fun both => first both.2]
      cases resolved
      rfl
  · have defined : (symbolOf c m i).shindex ∉ [shnUndef, shnCommon, shnAbs] := by
      intro special
      have refused := (resolve_none_iff c m sysBase (symAddr c m i)).mpr
      simp only [List.mem_cons, List.not_mem_nil, or_false] at special refused
      rw [refused (by tauto)] at resolved
      cases resolved
    rw [resolve_defined c m sysBase (symAddr c m i) defined] at resolved
    rw [if_neg fun both => absolute both.1]
    cases resolved
    rfl

private theorem entryTurn_goes_on {s : Nat × Option Word × Mem} (turns : entryTurn c n (i, sysBase, m) = .inr s) :
    i < n ∧ s.1 = i + 1 ∧ c.entry i sysBase m = some s.2 := by
  rw [entryTurn] at turns
  split_ifs at turns with below
  split at turns
  · cases turns
  · rename_i passed
    cases turns
    exact ⟨below, rfl, passed⟩

/-- The loop comes to an entry once. -/
theorem turn_unique {sysBase' : Option Word}
    (reached : Reaches (entryTurn c n) (0, none, start) (i, sysBase, m))
    (reached' : Reaches (entryTurn c n) (0, none, start) (i, sysBase', m')) : sysBase = sysBase' ∧ m = m' := by
  have same := reached.index_unique (fun s => s.1)
    (fun s t turns => by
      have next := (entryTurn_goes_on turns).2.1
      omega) reached' rfl
  cases same
  exact ⟨rfl, rfl⟩

/-- A turn remembers an absolute symbol named `SysBase` if it has none yet. -/
theorem entry_remembers {sysBase' : Option Word} (passed : c.entry i sysBase m = some (sysBase', m')) :
    (sysBase = none → NamesSysBase c m i → sysBase' = some (symAddr c m i)) ∧
      (sysBase = none → ¬NamesSysBase c m i → sysBase' = none) ∧
      (sysBase ≠ none → sysBase' = sysBase) := by
  have kept := entry_sysBase passed
  refine ⟨?_, ?_, ?_⟩
  · rintro rfl ⟨absolute, named⟩
    rwa [if_pos ⟨absolute, .inr ⟨rfl, named⟩⟩] at kept
  · rintro rfl other
    rwa [if_neg fun ⟨absolute, is⟩ => other ⟨absolute, (is.resolve_left nofun).2⟩] at kept
  · intro known
    split at kept
    · rename_i is
      rw [kept, is.2.resolve_right fun fresh => known fresh.1]
    · exact kept

/-- What the loop remembers is where the first absolute symbol named `SysBase` is. -/
def Remembers (c : Relocation) (n : Nat) (start : Mem) (s : Nat × Option Word × Mem) : Prop :=
  (s.2.1 = none → ∀ j < s.1, ∀ sysBase m,
    Reaches (entryTurn c n) (0, none, start) (j, sysBase, m) → ¬NamesSysBase c m j) ∧
  ∀ a, s.2.1 = some a → ∃ j < s.1, ∃ m,
    Reaches (entryTurn c n) (0, none, start) (j, none, m) ∧ NamesSysBase c m j ∧ symAddr c m j = a

private theorem remembers {s : Nat × Option Word × Mem} (reached : Reaches (entryTurn c n) (0, none, start) s) :
    Remembers c n start s := by
  refine (reached.invariant (fun s => Reaches (entryTurn c n) (0, none, start) s ∧ Remembers c n start s)
    ?_ ⟨.start _, ?_⟩).2
  · rintro ⟨i, sysBase, m⟩ ⟨i', sysBase', m'⟩ ⟨reached, fresh, known⟩ turns
    obtain ⟨below, rfl, passed⟩ := entryTurn_goes_on turns
    obtain ⟨first, other, later⟩ := entry_remembers passed
    refine ⟨.turn reached turns, ?_⟩
    cases sysBase with
    | none =>
      by_cases names : NamesSysBase c m i
      · rw [first rfl names]
        exact ⟨nofun, fun a same => ⟨i, Nat.lt_succ_self i, m, reached, names, Option.some.inj same⟩⟩
      · rw [other rfl names]
        refine ⟨fun _ j less sysBase' m' reached' => ?_, nofun⟩
        rcases Nat.lt_succ_iff_lt_or_eq.mp less with before | rfl
        · exact fresh rfl j before sysBase' m' reached'
        · obtain ⟨-, rfl⟩ := turn_unique reached reached'
          exact names
    | some a =>
      rw [later nofun]
      refine ⟨nofun, fun a' same => ?_⟩
      obtain ⟨j, less, found⟩ := known a' same
      exact ⟨j, Nat.lt_succ_of_lt less, found⟩
  · exact ⟨fun _ j less => absurd less (Nat.not_lt_zero j), nofun⟩

/-- An absolute symbol is taken for `SysBase` if it is the first one of that name. -/
theorem isSysBase_iff (turn : Turn sh k start i sysBase m)
    (absolute : (symbolOf (relocation sh k displacement) m i).shindex = shnAbs) :
    IsSysBase (relocation sh k displacement) m sysBase (symAddr (relocation sh k displacement) m i) ↔
      FirstSysBase sh k start i m := by
  have below := turn.below
  obtain ⟨fresh, known⟩ := remembers turn.reached
  constructor
  · rintro (same | ⟨rfl, named⟩)
    · obtain ⟨j, less, m', reached, names, there⟩ := known _ same
      refine ⟨j, Nat.le_of_lt less, none, m', ⟨Nat.lt_trans less below, reached⟩, names, there, ?_⟩
      exact fun l before sysBase' m'' turn' => (remembers reached).1 rfl l before sysBase' m'' turn'.reached
    · refine ⟨i, Nat.le_refl i, none, m, turn, ⟨absolute, named⟩, rfl, ?_⟩
      exact fun l before sysBase' m'' turn' => fresh rfl l before sysBase' m'' turn'.reached
  · rintro ⟨j, upto, sysBase', m', turn', names, there, first⟩
    cases sysBase with
    | none =>
      rcases Nat.lt_or_eq_of_le upto with less | rfl
      · exact absurd names (fresh rfl j less sysBase' m' turn'.reached)
      · obtain ⟨-, rfl⟩ := turn_unique turn.reached turn'.reached
        exact .inr ⟨rfl, names.2⟩
    | some a =>
      obtain ⟨l, less, m'', reached, names', there'⟩ := known a rfl
      -- Both are first.
      have same : j = l := by
        rcases Nat.lt_trichotomy j l with before | same | after
        · exact absurd names ((remembers reached).1 rfl j before sysBase' m' turn'.reached)
        · exact same
        · exact absurd names' (first l after none m'' ⟨Nat.lt_trans less below, reached⟩)
      subst same
      obtain ⟨-, rfl⟩ := turn_unique turn'.reached reached
      exact .inl (by rw [← there', there])

/-- An entry for an absolute symbol, at any turn of `relocate`. -/
theorem absolute_exact_iff (turn : Turn sh k start i sysBase m)
    (absolute : (symbolOf (relocation sh k displacement) m i).shindex = shnAbs)
    (stores : (entryAt (relocation sh k displacement) m i).type ∈
      [rPpcAddr32, rPpcAddr16Lo, rPpcAddr16Ha, rPpcRel24, rPpcRel32]) :
    ((relocation sh k displacement).entry i sysBase m).map Prod.snd =
        some (applyAbsolute (relocation sh k displacement) m i) ↔
      StoredRight sh k start i m := by
  have is := isSysBase_iff turn absolute
  rw [entry_absolute rfl absolute stores, Option.some.injEq, StoredRight, applyAbsolute, absoluteValue]
  generalize relocation sh k displacement = c at absolute stores is ⊢
  by_cases first : FirstSysBase sh k start i m
  · rw [if_pos (is.mpr first)]
    simp only [first, true_imp_iff, not_true, false_imp_iff, and_true]
    rw [applyType_same_iff m _ stores]
    split
    · exact stored_seen stores
    · rfl
  · rw [if_neg fun same => first (is.mp same)]
    simp only [first, false_imp_iff, not_false_iff, true_imp_iff, true_and]
    rw [applyType_same_iff m _ stores]
    split
    · rfl
    · have moved : virtualOf (symbolOf c m i).value + (entryAt c m i).addend =
          (symbolOf c m i).value + (entryAt c m i).addend + displacement := by
        unfold virtualOf
        ring
      rw [moved]
      exact stored_displaced stores

end

/-- A word at `0x800000` and an entry for it, whose symbol is absolute. -/
def absoluteTable : SectionTable := fun i =>
  [⟨0, shtRela, 0, 0x2000, 0, 12, 1, 3, 1, 12⟩,
   ⟨0, shtSymtab, 0, 0x3000, 0, 16, 2, 0, 1, 16⟩,
   ⟨0, shtStrtab, 0, 0x4000, 0, 1, 0, 0, 1, 0⟩,
   ⟨0, 1, 2, 0x800000, 0, 4, 0, 0, 4, 0⟩].getD i ⟨0, 0, 0, 0, 0, 0, 0, 0, 0, 0⟩

/-- The symbol's value is `0x9000`; the type of the entry is given. -/
def absoluteMemory (type : BitVec 8) : Mem := fun a =>
  if Within 0x2000 12 a then [0, 0, 0, 0, 0, 0, 0, type, 0, 0, 0, 0].getD (a - 0x2000).toNat 0
  else if Within 0x3000 16 a then
    [0, 0, 0, 0, 0, 0, 0x90, 0, 0, 0, 0, 0, 0, 0, 0xff, 0xf1].getD (a - 0x3000).toNat 0
  else 0

/-- A low halfword. -/
theorem low_halfword_exact_iff :
    ((relocation absoluteTable 0 displacement).entry 0 none (absoluteMemory 4)).map Prod.snd =
        some (applyAbsolute (relocation absoluteTable 0 displacement) (absoluteMemory 4) 0) ↔
      StoredRight absoluteTable 0 (absoluteMemory 4) 0 (absoluteMemory 4) :=
  absolute_exact_iff ⟨by decide, .start _⟩ (by decide) (by decide)

/-- The word becomes `0xff009000`, not `0x9000`. -/
theorem absolute_word_displaced :
    ¬∀ i sysBase m, Turn absoluteTable 0 (absoluteMemory 1) i sysBase m →
      (symbolOf (relocation absoluteTable 0 displacement) m i).shindex = shnAbs →
      (entryAt (relocation absoluteTable 0 displacement) m i).type ∈
        [rPpcAddr32, rPpcAddr16Lo, rPpcAddr16Ha, rPpcRel24, rPpcRel32] →
      ((relocation absoluteTable 0 displacement).entry i sysBase m).map Prod.snd =
        some (applyAbsolute (relocation absoluteTable 0 displacement) m i) := by
  intro exact
  have word := exact 0 none _ ⟨by decide, .start _⟩ (by decide) (by decide)
  have byte := congrArg (Option.map (· 0x800000)) word
  exact absurd byte (by decide)

end Parthenope.ElfAbsolute
