import Mathlib.Data.BitVec
import Mathlib.Tactic.Ring

/-! Byte-addressed memory with big-endian words. Addresses wrap around, as
pointers do, so a range is given by its base and length and membership is
tested on the wrapped distance from the base. Block copies and fills are
single updates: a copy reads the memory as it was before, like `memmove`. -/
namespace ByteMemory

/-- Memory over `w`-bit addresses. -/
abbrev Memory (w : Nat) := BitVec w → BitVec 8

variable {w : Nat} {m m' : Memory w} {a x : BitVec w}

/-- Address `x` is one of the `n` bytes starting at `a`. -/
def Within (a : BitVec w) (n : Nat) (x : BitVec w) : Prop := (x - a).toNat < n

instance (a : BitVec w) (n : Nat) (x : BitVec w) : Decidable (Within a n x) :=
  inferInstanceAs (Decidable ((x - a).toNat < n))

def load16 (m : Memory w) (a : BitVec w) : BitVec 16 := m a ++ m (a + 1)

def load32 (m : Memory w) (a : BitVec w) : BitVec 32 :=
  m a ++ m (a + 1) ++ m (a + 2) ++ m (a + 3)

/-- Byte `i` of an `n`-byte big-endian value. -/
def byteOf {k : Nat} (n : Nat) (v : BitVec k) (i : Nat) : BitVec 8 :=
  v.extractLsb' (8 * (n - 1 - i)) 8

def store16 (m : Memory w) (a : BitVec w) (v : BitVec 16) : Memory w :=
  fun x => if Within a 2 x then byteOf 2 v (x - a).toNat else m x

def store32 (m : Memory w) (a : BitVec w) (v : BitVec 32) : Memory w :=
  fun x => if Within a 4 x then byteOf 4 v (x - a).toNat else m x

/-- `n` bytes from `src` to `dest`, read before anything is written. -/
def copy (m : Memory w) (dest src : BitVec w) (n : Nat) : Memory w :=
  fun x => if Within dest n x then m (src + (x - dest)) else m x

/-- `n` bytes of `v` from `dest` on. -/
def fill (m : Memory w) (dest : BitVec w) (v : BitVec 8) (n : Nat) : Memory w :=
  fun x => if Within dest n x then v else m x

theorem store16_apart (v : BitVec 16) (outside : ¬ Within a 2 x) :
    store16 m a v x = m x := if_neg outside

theorem store32_apart (v : BitVec 32) (outside : ¬ Within a 4 x) :
    store32 m a v x = m x := if_neg outside

/-- The second of two stores to one place is the one that stays. -/
theorem store16_store16 (v v' : BitVec 16) :
    store16 (store16 m a v) a v' = store16 m a v' := by
  funext x
  simp only [store16]
  split <;> rfl

theorem store32_store32 (v v' : BitVec 32) :
    store32 (store32 m a v) a v' = store32 m a v' := by
  funext x
  simp only [store32]
  split <;> rfl

private theorem offset_distance (wide : 2 < w) (i : Nat) (small : i < 4) :
    (a + BitVec.ofNat w i - a).toNat = i := by
  have bound : 2 ^ 3 ≤ 2 ^ w := Nat.pow_le_pow_right (by decide) wide
  have distance : a + BitVec.ofNat w i - a = BitVec.ofNat w i := by
    rw [BitVec.add_comm, BitVec.add_sub_cancel]
  rw [distance, BitVec.toNat_ofNat, Nat.mod_eq_of_lt (by omega)]

/-- A load returns what was last stored at its address. -/
theorem load16_store16 (wide : 2 < w) (v : BitVec 16) : load16 (store16 m a v) a = v := by
  have near (i : Nat) (small : i < 2) : store16 m a v (a + BitVec.ofNat w i) = byteOf 2 v i := by
    have distance := offset_distance (a := a) wide i (by omega)
    simp only [store16, Within, distance, if_pos small]
  have zero := near 0 (by decide)
  simp only [load16, BitVec.ofNat_eq_ofNat, BitVec.add_zero] at zero ⊢
  rw [zero, near 1 (by decide)]
  ext i small
  simp only [byteOf]
  simp
  grind

theorem load32_store32 (wide : 2 < w) (v : BitVec 32) : load32 (store32 m a v) a = v := by
  have near (i : Nat) (small : i < 4) : store32 m a v (a + BitVec.ofNat w i) = byteOf 4 v i := by
    simp only [store32, Within, offset_distance wide i small, if_pos small]
  have zero := near 0 (by decide)
  simp only [load32, BitVec.ofNat_eq_ofNat, BitVec.add_zero] at zero ⊢
  rw [zero, near 1 (by decide), near 2 (by decide), near 3 (by decide)]
  ext i small
  simp only [byteOf]
  simp
  grind

/-- Two memories hold the same `n` bytes from `a` on. -/
def SameAt (m m' : Memory w) (a : BitVec w) (n : Nat) : Prop := ∀ x, Within a n x → m x = m' x

/-- Part of a range is within it. -/
theorem within_part {k n : Nat} (inside : Within (a + BitVec.ofNat w k) n x) :
    Within a (k + n) x := by
  have split : x - a = x - (a + BitVec.ofNat w k) + BitVec.ofNat w k := by ring
  have small := Nat.mod_le k (2 ^ w)
  simp only [Within] at inside ⊢
  rw [split, BitVec.toNat_add, BitVec.toNat_ofNat]
  have sum := Nat.mod_le ((x - (a + BitVec.ofNat w k)).toNat + k % 2 ^ w) (2 ^ w)
  omega

theorem SameAt.part {k n l : Nat} (same : SameAt m m' a l) (fits : k + n ≤ l) :
    SameAt m m' (a + BitVec.ofNat w k) n := by
  intro x inside
  have bound : Within a (k + n) x := within_part inside
  exact same x (Nat.lt_of_lt_of_le bound fits)

theorem SameAt.at {k l : Nat} (same : SameAt m m' a l) (inside : k < l) :
    m (a + BitVec.ofNat w k) = m' (a + BitVec.ofNat w k) := by
  have one : SameAt m m' (a + BitVec.ofNat w k) 1 := same.part (by omega)
  apply one
  simp only [Within, BitVec.sub_self, BitVec.toNat_zero, Nat.zero_lt_one]

/-- A load depends on its own bytes only. -/
theorem load16_congr (wide : 2 < w) (same : SameAt m m' a 2) : load16 m a = load16 m' a := by
  have near (i : Nat) (small : i < 2) : m (a + BitVec.ofNat w i) = m' (a + BitVec.ofNat w i) := by
    have distance := offset_distance (a := a) wide i (by omega)
    exact same _ (by simpa only [Within, distance] using small)
  have zero := near 0 (by decide)
  simp only [load16, BitVec.ofNat_eq_ofNat, BitVec.add_zero] at zero ⊢
  rw [zero, near 1 (by decide)]

theorem load32_congr (wide : 2 < w) (same : SameAt m m' a 4) : load32 m a = load32 m' a := by
  have near (i : Nat) (small : i < 4) : m (a + BitVec.ofNat w i) = m' (a + BitVec.ofNat w i) :=
    same _ (by simpa only [Within, offset_distance wide i small] using small)
  have zero := near 0 (by decide)
  simp only [load32, BitVec.ofNat_eq_ofNat, BitVec.add_zero] at zero ⊢
  rw [zero, near 1 (by decide), near 2 (by decide), near 3 (by decide)]

/-- A byte of a word in memory. -/
theorem byteOf_load32 (m : Memory w) (a : BitVec w) {i : Nat} (small : i < 4) :
    byteOf 4 (load32 m a) i = m (a + BitVec.ofNat w i) := by
  unfold byteOf load32
  rcases (by omega : i = 0 ∨ i = 1 ∨ i = 2 ∨ i = 3) with rfl | rfl | rfl | rfl
  all_goals
    ext j below
    simp
    grind

/-- Neither range starts in the other. -/
def Separate (a : BitVec w) (n : Nat) (b : BitVec w) (k : Nat) : Prop := ¬Within a n b ∧ ¬Within b k a

instance (a : BitVec w) (n : Nat) (b : BitVec w) (k : Nat) : Decidable (Separate a n b k) :=
  inferInstanceAs (Decidable (_ ∧ _))

section
variable {b y : BitVec w} {n k : Nat}

theorem Separate.symm (apart : Separate a n b k) : Separate b k a n := ⟨apart.2, apart.1⟩

/-- Ranges that start apart have no address in common. -/
theorem Separate.outside (apart : Separate a n b k) (inside : Within a n x) : ¬Within b k x := by
  intro other
  obtain ⟨far, far'⟩ := apart
  simp only [Within] at far far' inside other
  have sum : x - a = x - b + (b - a) := by ring
  have turn : a - b = -(b - a) := by ring
  have wrapped : (x - a).toNat = ((x - b).toNat + (b - a).toNat) % 2 ^ w := by rw [sum, BitVec.toNat_add]
  have back : (a - b).toNat = (2 ^ w - (b - a).toNat) % 2 ^ w := by rw [turn, BitVec.toNat_neg]
  have start := (b - a).isLt
  have first : 0 < (b - a).toNat := by omega
  rw [Nat.mod_eq_of_lt (by omega)] at back
  rw [Nat.mod_eq_of_lt (by omega)] at wrapped
  omega

theorem Separate.ne (apart : Separate a n b k) (left : Within a n x) (right : Within b k y) : x ≠ y :=
  fun same => apart.outside left (same ▸ right)

/-- Parts of separate ranges are separate. -/
theorem Separate.part {i j p q : Nat} (apart : Separate a n b k) (left : i + p ≤ n) (right : j + q ≤ k)
    (some : 0 < p) (some' : 0 < q) : Separate (a + BitVec.ofNat w i) p (b + BitVec.ofNat w j) q := by
  have start {c : BitVec w} {r : Nat} (positive : 0 < r) : Within c r c := by
    simpa only [Within, BitVec.sub_self, BitVec.toNat_zero] using positive
  have left' {x : BitVec w} (inside : Within (a + BitVec.ofNat w i) p x) : Within a n x :=
    (within_part inside).trans_le left
  have right' {x : BitVec w} (inside : Within (b + BitVec.ofNat w j) q x) : Within b k x :=
    (within_part inside).trans_le right
  constructor
  · exact fun inside => apart.outside (left' inside) (right' (start some'))
  · exact fun inside => apart.symm.outside (right' inside) (left' (start some))

/-- A store leaves what is separate from it. -/
theorem load32_apart (wide : 2 < w) (v : BitVec 32) (apart : Separate a 4 b 4) :
    load32 (store32 m b v) a = load32 m a :=
  load32_congr wide fun _ inside => store32_apart v (apart.outside inside)

end

end ByteMemory
