import Mathlib
import NemoOS.Lib.ByteMemory

/-!
# Buffers and C strings in byte memory

`storeBytes` is a loop that stores bytes one after the other. A string is the list of its
bytes without the terminating zero; `StringAt m a str` says that it is what is found in
memory from `a` on. A string that is copied or compared is given by its bytes, as it is when
the call starts.
-/

namespace Bytes

open Words

/-! ## Buffers -/

/-- The bytes stored one after the other, from `a` on. -/
def storeBytes (m : Memory) (a : Nat) : List UInt8 → Memory
  | [] => m
  | b :: bytes => storeBytes (Function.update m (u32 a) b) (a + 1) bytes

theorem storeBytes_append (m : Memory) (a : Nat) (first second : List UInt8) :
    storeBytes m a (first ++ second) =
      storeBytes (storeBytes m a first) (a + first.length) second := by
  induction first generalizing m a with
  | nil => rfl
  | cons b first ih =>
      rw [List.cons_append, storeBytes, ih, storeBytes, List.length_cons, Nat.add_assoc,
        Nat.add_comm 1]

theorem storeBytes_of_ne {m : Memory} {a x : Nat} {bytes : List UInt8}
    (hx : ∀ i < bytes.length, x ≠ u32 (a + i)) : storeBytes m a bytes x = m x := by
  induction bytes generalizing m a with
  | nil => rfl
  | cons b bytes ih =>
      rw [storeBytes, ih, Function.update_of_ne]
      · exact hx 0 (by simp)
      · intro i hi
        rw [Nat.add_assoc, Nat.add_comm 1]
        exact hx (i + 1) (by simpa using hi)

theorem storeBytes_of_outside {m : Memory} {a x : Nat} {bytes : List UInt8}
    (ha : a + bytes.length ≤ 2 ^ 32) (hx : x < a ∨ a + bytes.length ≤ x) :
    storeBytes m a bytes x = m x := by
  apply storeBytes_of_ne
  intro i hi
  rw [u32_of_lt (by omega)]
  omega

theorem storeBytes_getElem {m : Memory} {a i : Nat} {bytes : List UInt8}
    (ha : a + bytes.length ≤ 2 ^ 32) (hi : i < bytes.length) :
    storeBytes m a bytes (a + i) = bytes[i] := by
  induction bytes generalizing m a i with
  | nil => exact absurd hi (Nat.not_lt_zero i)
  | cons b bytes ih =>
      rw [List.length_cons] at ha hi
      rw [storeBytes]
      cases i with
      | zero =>
          rw [storeBytes_of_outside (by omega) (by omega), u32_of_lt (by omega), Nat.add_zero,
            Function.update_self, List.getElem_cons_zero]
      | succ i =>
          rw [← Nat.add_assoc, Nat.add_right_comm, ih (by omega) (by omega),
            List.getElem_cons_succ]

/-! ## Strings -/

/-- The bytes of the string and a zero are in memory from `a` on. -/
def StringAt (m : Memory) (a : Nat) : List UInt8 → Prop
  | [] => m (u32 a) = 0
  | b :: str => m (u32 a) = b ∧ b ≠ 0 ∧ StringAt m (a + 1) str

/-- `strcpy`. -/
def strcpy (m : Memory) (dst : Nat) (src : List UInt8) : Memory := storeBytes m dst (src ++ [0])

/-- `strcmp` of what is in memory from `a` on with a string. -/
def strcmp (m : Memory) (a : Nat) : List UInt8 → Int
  | [] => (m (u32 a)).toNat
  | b :: str =>
      if m (u32 a) ≠ 0 ∧ m (u32 a) = b then strcmp m (a + 1) str
      else (m (u32 a)).toNat - b.toNat

theorem stringAt_iff {m : Memory} {a : Nat} {str : List UInt8} :
    StringAt m a str ↔
      (∀ (i : Nat) (hi : i < str.length), m (u32 (a + i)) = str[i]) ∧
        m (u32 (a + str.length)) = 0 ∧ 0 ∉ str := by
  induction str generalizing a with
  | nil => simp [StringAt]
  | cons b str ih =>
      rw [StringAt, ih]
      constructor
      · rintro ⟨hb, hne, hbytes, hend, hnul⟩
        refine ⟨?_, ?_, ?_⟩
        · intro i hi
          cases i with
          | zero => exact hb
          | succ i =>
              rw [← Nat.add_assoc, Nat.add_right_comm]
              exact hbytes i (Nat.lt_of_succ_lt_succ hi)
        · rw [List.length_cons, ← Nat.add_assoc, Nat.add_right_comm]
          exact hend
        · rw [List.mem_cons]
          rintro (hzero | hmem)
          · exact hne hzero.symm
          · exact hnul hmem
      · rintro ⟨hbytes, hend, hnul⟩
        rw [List.mem_cons, not_or] at hnul
        refine ⟨hbytes 0 (Nat.succ_pos _), Ne.symm hnul.1, ?_, ?_, hnul.2⟩
        · intro i hi
          have hbyte := hbytes (i + 1) (Nat.succ_lt_succ hi)
          rwa [← Nat.add_assoc, Nat.add_right_comm] at hbyte
        · rwa [List.length_cons, ← Nat.add_assoc, Nat.add_right_comm] at hend

theorem strcmp_eq_zero_iff {m : Memory} {a : Nat} {str : List UInt8} (hnul : 0 ∉ str) :
    strcmp m a str = 0 ↔ StringAt m a str := by
  induction str generalizing a with
  | nil =>
      rw [strcmp, StringAt, ← UInt8.toNat_inj]
      exact Int.natCast_eq_zero
  | cons b str ih =>
      rw [List.mem_cons, not_or] at hnul
      rw [strcmp, StringAt]
      by_cases hb : m (u32 a) = b
      · rw [if_pos ⟨hb ▸ Ne.symm hnul.1, hb⟩, ih hnul.2]
        exact ⟨fun h => ⟨hb, Ne.symm hnul.1, h⟩, fun h => h.2.2⟩
      · rw [if_neg fun h => hb h.2]
        constructor
        · intro hzero
          exact absurd (UInt8.toNat_inj.mp (by omega)) hb
        · exact fun h => absurd h.1 hb

/-- There is one string at an address. -/
theorem StringAt.unique {m : Memory} {a : Nat} {str str' : List UInt8} (h : StringAt m a str)
    (h' : StringAt m a str') : str = str' := by
  induction str generalizing a str' with
  | nil =>
      cases str' with
      | nil => rfl
      | cons b' str' => exact absurd (h'.1.symm.trans h) h'.2.1
  | cons b str ih =>
      cases str' with
      | nil => exact absurd (h.1.symm.trans h') h.2.1
      | cons b' str' => rw [← h.1, h'.1, ih h.2.2 h'.2.2]

/-- The comparison with another string. -/
theorem StringAt.strcmp_beq {m : Memory} {a : Nat} {str name : List UInt8} (h : StringAt m a str)
    (hnul : 0 ∉ name) : (strcmp m a name == 0) = decide (str = name) := by
  rw [Bool.eq_iff_iff, beq_iff_eq, decide_eq_true_eq, strcmp_eq_zero_iff hnul]
  constructor
  · exact fun hname => h.unique hname
  · rintro rfl
    exact h

theorem StringAt.congr {m m' : Memory} {a : Nat} {str : List UInt8} (h : StringAt m a str)
    (ha : a + str.length < 2 ^ 32) (heq : ∀ x, a ≤ x → x ≤ a + str.length → m' x = m x) :
    StringAt m' a str := by
  rw [stringAt_iff] at h ⊢
  obtain ⟨hbytes, hend, hnul⟩ := h
  refine ⟨fun i hi => ?_, ?_, hnul⟩
  · rw [← hbytes i hi, u32_of_lt (by omega), heq _ (by omega) (by omega)]
  · rw [← hend, u32_of_lt (by omega), heq _ (by omega) (by omega)]

end Bytes
