import NemoOS.Lib.Words

/-!
# Byte-addressed memory with little-endian words

Memory is a function from addresses to bytes; addresses are numbers below `2 ^ 32`
and address arithmetic wraps there. Words of 32 bits are stored in little-endian
order, at any alignment.
-/

namespace Bytes

open Words

abbrev Memory := Nat → UInt8

/-- The `i`-th byte of a word. -/
def byteOf (v i : Nat) : UInt8 := UInt8.ofNat (v / 256 ^ i)

def read32 (m : Memory) (a : Nat) : Nat :=
  (m (u32 a)).toNat + 256 * (m (u32 (a + 1))).toNat + 65536 * (m (u32 (a + 2))).toNat +
    16777216 * (m (u32 (a + 3))).toNat

def read16 (m : Memory) (a : Nat) : Nat := (m (u32 a)).toNat + 256 * (m (u32 (a + 1))).toNat

def write32 (m : Memory) (a v : Nat) : Memory := fun x =>
  if x = u32 a then byteOf v 0
  else if x = u32 (a + 1) then byteOf v 1
  else if x = u32 (a + 2) then byteOf v 2
  else if x = u32 (a + 3) then byteOf v 3
  else m x

/-- `memset(a, v, n)`. -/
def fill (m : Memory) (a : Nat) (v : UInt8) (n : Nat) : Memory := fun x =>
  if x < 2 ^ 32 ∧ sub32 x a < n then v else m x

theorem read32_lt (m : Memory) (a : Nat) : read32 m a < 2 ^ 32 := by
  have h0 := (m (u32 a)).toNat_lt
  have h1 := (m (u32 (a + 1))).toNat_lt
  have h2 := (m (u32 (a + 2))).toNat_lt
  have h3 := (m (u32 (a + 3))).toNat_lt
  rw [read32]
  omega

/-- A word is determined by its four bytes. -/
theorem read32_congr {m m' : Memory} {a : Nat} (ha : a + 4 ≤ 2 ^ 32)
    (h : ∀ x, a ≤ x → x < a + 4 → m' x = m x) : read32 m' a = read32 m a := by
  rw [read32, read32, u32_of_lt (by omega), u32_of_lt (by omega), u32_of_lt (by omega),
    u32_of_lt (by omega), h a (by omega) (by omega), h (a + 1) (by omega) (by omega),
    h (a + 2) (by omega) (by omega), h (a + 3) (by omega) (by omega)]

/-- A word store changes only its four bytes. -/
theorem write32_of_outside {m : Memory} {a v x : Nat} (ha : a + 4 ≤ 2 ^ 32)
    (hx : x < a ∨ a + 4 ≤ x) : write32 m a v x = m x := by
  rw [write32, u32_of_lt (by omega), u32_of_lt (by omega), u32_of_lt (by omega),
    u32_of_lt (by omega), if_neg (by omega), if_neg (by omega), if_neg (by omega),
    if_neg (by omega)]

theorem read32_write32_self {m : Memory} {a v : Nat} (ha : a + 4 ≤ 2 ^ 32) (hv : v < 2 ^ 32) :
    read32 (write32 m a v) a = v := by
  have h0 : write32 m a v a = byteOf v 0 := by
    rw [write32, u32_of_lt (by omega), if_pos rfl]
  have h1 : write32 m a v (a + 1) = byteOf v 1 := by
    rw [write32, u32_of_lt (by omega), u32_of_lt (by omega), if_neg (by omega), if_pos rfl]
  have h2 : write32 m a v (a + 2) = byteOf v 2 := by
    rw [write32, u32_of_lt (by omega), u32_of_lt (by omega), u32_of_lt (by omega),
      if_neg (by omega), if_neg (by omega), if_pos rfl]
  have h3 : write32 m a v (a + 3) = byteOf v 3 := by
    rw [write32, u32_of_lt (by omega), u32_of_lt (by omega), u32_of_lt (by omega),
      u32_of_lt (by omega), if_neg (by omega), if_neg (by omega), if_neg (by omega), if_pos rfl]
  have hbyte : ∀ i, (byteOf v i).toNat = v / 256 ^ i % 256 := by
    intro i
    rw [byteOf, UInt8.toNat_ofNat']
  rw [read32, u32_of_lt (by omega), u32_of_lt (by omega), u32_of_lt (by omega),
    u32_of_lt (by omega), h0, h1, h2, h3, hbyte, hbyte, hbyte, hbyte]
  omega

theorem read32_write32_of_disjoint {m : Memory} {a b v : Nat} (ha : a + 4 ≤ 2 ^ 32)
    (hb : b + 4 ≤ 2 ^ 32) (h : a + 4 ≤ b ∨ b + 4 ≤ a) :
    read32 (write32 m a v) b = read32 m b := by
  apply read32_congr hb
  intro x hle hlt
  exact write32_of_outside ha (by omega)

theorem fill_of_outside {m : Memory} {a n x : Nat} {v : UInt8} (ha : a + n ≤ 2 ^ 32)
    (hx : x < a ∨ a + n ≤ x) : fill m a v n x = m x := by
  rw [fill, if_neg]
  rintro ⟨hlt, hin⟩
  rw [sub32, u32] at hin
  omega

end Bytes
