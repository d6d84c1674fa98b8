import Mathlib
import NemoOS.NetPoll
import NemoOS.Lib.Words

/-!
# The internet checksum

`net_checksum`, of which `net/ip.cpp` and `net/icmp.cpp` have a copy each, and
`ip_checksum_ok` of `net/net.cpp`. Folding the carries keeps the residue modulo 65535 and
keeps zero apart from the other multiples, so that a check succeeds exactly if the sum is a
positive multiple of 65535 (`foldCarries_eq_iff`). The sender's complement makes it one, and
the change of one word moves the residue by the difference of the two values.
-/

namespace NemoOS

open Words

/-! ## Words of a buffer -/

/-- A `uint16_t` stored to the buffer. -/
def setWord (buf : Nat → UInt8) (x w : Nat) : Nat → UInt8 :=
  Function.update (Function.update buf x (UInt8.ofNat w)) (x + 1) (UInt8.ofNat (w / 256))

/-- The sum of the words from `offset` on, and of the last byte if `len` is odd. -/
def wordSum (buf : Nat → UInt8) (offset len : Nat) : Nat :=
  ((List.range (len / 2)).map fun i => word16 buf (offset + 2 * i)).sum +
    if len % 2 = 1 then (buf (offset + (len - 1))).toNat else 0

def netChecksum (buf : Nat → UInt8) (offset len : Nat) : Nat :=
  0xFFFF - foldCarries (u32 (wordSum buf offset len))

/-- The sum over a message and the checksum in it is all ones. -/
def checksumOk (buf : Nat → UInt8) (offset len : Nat) : Prop :=
  foldCarries (wordSum buf offset len) = 0xFFFF

/-- The field at `field` is set to zero and then to the checksum. -/
def storeChecksum (buf : Nat → UInt8) (offset len field : Nat) : Nat → UInt8 :=
  setWord (setWord buf field 0) field (netChecksum (setWord buf field 0) offset len)

/-! ## Folding -/

theorem foldCarries_lt (sum : Nat) : foldCarries sum < 0x10000 := by
  fun_induction foldCarries sum with
  | case1 sum hlt => exact hlt
  | case2 sum hge ih => exact ih

theorem foldCarries_mod (sum : Nat) : foldCarries sum % 0xFFFF = sum % 0xFFFF := by
  fun_induction foldCarries sum with
  | case1 sum hlt => rfl
  | case2 sum hge ih => omega

theorem foldCarries_eq_zero_iff (sum : Nat) : foldCarries sum = 0 ↔ sum = 0 := by
  fun_induction foldCarries sum with
  | case1 sum hlt => exact Iff.rfl
  | case2 sum hge ih => omega

/-- Of the two zeros of the arithmetic, a sum that is not zero folds to the ones. -/
theorem foldCarries_eq_iff (sum : Nat) : foldCarries sum = 0xFFFF ↔ 0 < sum ∧ sum % 0xFFFF = 0 := by
  have hlt := foldCarries_lt sum
  have hmod := foldCarries_mod sum
  have hzero := foldCarries_eq_zero_iff sum
  omega

/-! ## Sums -/

section Words

variable (buf : Nat → UInt8) {x y w : Nat}

theorem word16_setWord_self (hw : w < 0x10000) : word16 (setWord buf x w) x = w := by
  simp [word16, setWord]
  omega

theorem setWord_of_ne (hy : y ≠ x) (hy' : y ≠ x + 1) : setWord buf x w y = buf y := by
  simp [setWord, hy, hy']

theorem word16_setWord_of_ne (hy : y + 1 < x ∨ x + 1 < y) :
    word16 (setWord buf x w) y = word16 buf y := by
  rw [word16, setWord_of_ne buf (by omega) (by omega), setWord_of_ne buf (by omega) (by omega),
    word16]

end Words

theorem storeChecksum_of_ne (buf : Nat → UInt8) (offset len : Nat) {field y : Nat}
    (hy : y ≠ field) (hy' : y ≠ field + 1) : storeChecksum buf offset len field y = buf y := by
  rw [storeChecksum, setWord_of_ne _ hy hy', setWord_of_ne _ hy hy']

/-- Only the bytes of the message matter. -/
theorem wordSum_congr {buf buf' : Nat → UInt8} {offset offset' len : Nat}
    (h : ∀ i < len, buf (offset + i) = buf' (offset' + i)) :
    wordSum buf offset len = wordSum buf' offset' len := by
  have hwords : (List.range (len / 2)).map (fun i => word16 buf (offset + 2 * i)) =
      (List.range (len / 2)).map fun i => word16 buf' (offset' + 2 * i) := by
    apply List.map_congr_left
    intro i hi
    have hi' := List.mem_range.mp hi
    rw [word16, word16, Nat.add_assoc, Nat.add_assoc, h _ (by omega), h _ (by omega)]
  rw [wordSum, wordSum, hwords]
  split_ifs with hodd
  · rw [h _ (by omega)]
  · rfl

/-- One term of a sum is replaced. -/
theorem sum_map_update (f : Nat → Nat) (a : Nat) {i n : Nat} (hi : i < n) :
    ((List.range n).map (Function.update f i a)).sum + f i = ((List.range n).map f).sum + a := by
  induction n with
  | zero => omega
  | succ n ih =>
      rw [List.range_succ, List.map_append, List.map_append, List.sum_append, List.sum_append,
        List.map_singleton, List.map_singleton, List.sum_singleton, List.sum_singleton]
      by_cases hin : i = n
      · subst hin
        have hsame : (List.range i).map (Function.update f i a) = (List.range i).map f := by
          apply List.map_congr_left
          intro j hj
          rw [Function.update_of_ne (by have := List.mem_range.mp hj; omega)]
        rw [hsame, Function.update_self]
        omega
      · have hrest := ih (by omega)
        rw [Function.update_of_ne (by omega)]
        omega

/-- A word of the message is replaced. -/
theorem wordSum_setWord (buf : Nat → UInt8) (offset : Nat) {len i w : Nat} (hi : i < len / 2)
    (hw : w < 0x10000) :
    wordSum (setWord buf (offset + 2 * i) w) offset len + word16 buf (offset + 2 * i) =
      wordSum buf offset len + w := by
  have hwords : (fun j => word16 (setWord buf (offset + 2 * i) w) (offset + 2 * j)) =
      Function.update (fun j => word16 buf (offset + 2 * j)) i w := by
    funext j
    by_cases hj : j = i
    · rw [hj, Function.update_self, word16_setWord_self buf hw]
    · rw [Function.update_of_ne hj, word16_setWord_of_ne buf (by omega)]
  have hsum := sum_map_update (fun j => word16 buf (offset + 2 * j)) w hi
  -- the odd byte lies behind all words
  have hlast : len % 2 = 1 → setWord buf (offset + 2 * i) w (offset + (len - 1)) =
      buf (offset + (len - 1)) := fun hodd => setWord_of_ne buf (by omega) (by omega)
  rw [wordSum, wordSum, hwords]
  split_ifs with hodd
  · rw [hlast hodd]
    omega
  · omega

theorem word16_le (buf : Nat → UInt8) (x : Nat) : word16 buf x ≤ 0xFFFF := by
  have hlow := (buf x).toNat_lt
  have hhigh := (buf (x + 1)).toNat_lt
  rw [word16]
  omega

theorem wordSum_le (buf : Nat → UInt8) (offset len : Nat) :
    wordSum buf offset len ≤ len / 2 * 0xFFFF + 0xFF := by
  have hwords : ((List.range (len / 2)).map fun i => word16 buf (offset + 2 * i)).sum ≤
      len / 2 * 0xFFFF := by
    have hle := List.sum_le_card_nsmul
      ((List.range (len / 2)).map fun i => word16 buf (offset + 2 * i)) 0xFFFF (by
        simp only [List.mem_map, forall_exists_index, and_imp]
        rintro _ i - rfl
        exact word16_le buf _)
    simpa using hle
  have hlast := (buf (offset + (len - 1))).toNat_lt
  apply Nat.add_le_add hwords
  split_ifs <;> omega

/-! ## Sender and receiver -/

theorem checksumOk_iff (buf : Nat → UInt8) (offset len : Nat) :
    checksumOk buf offset len ↔
      0 < wordSum buf offset len ∧ wordSum buf offset len % 0xFFFF = 0 :=
  foldCarries_eq_iff _

theorem ipChecksumOk_iff (buf : Nat → UInt8) (offset : Nat) :
    ipChecksumOk buf offset = true ↔ checksumOk buf offset IP_HDR_SIZE := by
  simp [ipChecksumOk, checksumOk, wordSum, IP_HDR_SIZE]

theorem netChecksum_lt (buf : Nat → UInt8) (offset len : Nat) :
    netChecksum buf offset len < 0x10000 := by
  rw [netChecksum]
  omega

/-- What `net_checksum` leaves in a message passes the check of the message. -/
theorem checksumOk_storeChecksum (buf : Nat → UInt8) (offset : Nat) {len i : Nat}
    (hi : i < len / 2) (hlen : len ≤ 0x10000) :
    checksumOk (storeChecksum buf offset len (offset + 2 * i)) offset len := by
  have hsum := wordSum_setWord (setWord buf (offset + 2 * i) 0) offset hi
    (netChecksum_lt (setWord buf (offset + 2 * i) 0) offset len)
  rw [word16_setWord_self buf (by decide), Nat.add_zero] at hsum
  have hbound := wordSum_le (setWord buf (offset + 2 * i) 0) offset len
  have hmod := foldCarries_mod (wordSum (setWord buf (offset + 2 * i) 0) offset len)
  have hzero := foldCarries_eq_zero_iff (wordSum (setWord buf (offset + 2 * i) 0) offset len)
  have hlt := foldCarries_lt (wordSum (setWord buf (offset + 2 * i) 0) offset len)
  rw [checksumOk_iff, storeChecksum, hsum, netChecksum, u32_of_lt (by omega)]
  omega

/-- One word of a message that passes is replaced by one with another residue. -/
theorem not_checksumOk_setWord {buf : Nat → UInt8} {offset len i w : Nat}
    (hok : checksumOk buf offset len) (hi : i < len / 2) (hw : w < 0x10000)
    (hne : ¬ w ≡ word16 buf (offset + 2 * i) [MOD 0xFFFF]) :
    ¬ checksumOk (setWord buf (offset + 2 * i) w) offset len := by
  have hsum := wordSum_setWord buf offset hi hw
  rw [checksumOk_iff] at hok ⊢
  rw [Nat.ModEq] at hne
  omega

/-- **The header checksum.** Whatever bytes an IPv4 header has, `ip_checksum_ok` accepts it
    once the checksum field holds what `net_checksum` returned for it with the field zero, and
    rejects it when one of its ten words is then replaced by one of another residue modulo
    65535. -/
theorem ipChecksum_detects (buf : Nat → UInt8) (offset : Nat) :
    ipChecksumOk (storeChecksum buf offset IP_HDR_SIZE (offset + 10)) offset = true ∧
      ∀ i < 10, ∀ w < 0x10000,
        ¬ w ≡ word16 (storeChecksum buf offset IP_HDR_SIZE (offset + 10)) (offset + 2 * i)
            [MOD 65535] →
          ipChecksumOk
            (setWord (storeChecksum buf offset IP_HDR_SIZE (offset + 10)) (offset + 2 * i) w)
            offset = false := by
  have hok : checksumOk (storeChecksum buf offset IP_HDR_SIZE (offset + 2 * 5)) offset
      IP_HDR_SIZE := checksumOk_storeChecksum buf offset (by decide) (by decide)
  refine ⟨(ipChecksumOk_iff _ _).mpr hok, fun i hi w hw hne => ?_⟩
  rw [← Bool.not_eq_true, ipChecksumOk_iff]
  exact not_checksumOk_setWord hok hi hw hne

/-- The header of an echo request from 10.0.2.2 to 10.0.2.15. -/
def requestHeader : Nat → UInt8 := fun x =>
  [0x45, 0, 0, 0x54, 0, 0, 0, 0, 64, 1, 0, 0, 10, 0, 2, 2, 10, 0, 2, 15].getD x 0

/-- Its length is changed on the way. -/
theorem ipChecksum_detects_length :
    ¬ 0x5500 ≡ word16 (storeChecksum requestHeader 0 IP_HDR_SIZE 10) 2 [MOD 65535] ∧
      ipChecksumOk (setWord (storeChecksum requestHeader 0 IP_HDR_SIZE 10) 2 0x5500) 0 = false := by
  have hword : word16 (storeChecksum requestHeader 0 IP_HDR_SIZE 10) 2 = 0x5400 := by
    rw [storeChecksum, word16_setWord_of_ne _ (by decide), word16_setWord_of_ne _ (by decide)]
    decide
  have hne : ¬ 0x5500 ≡ word16 (storeChecksum requestHeader 0 IP_HDR_SIZE 10) 2 [MOD 65535] := by
    rw [hword]
    decide
  exact ⟨hne, (ipChecksum_detects requestHeader 0).2 1 (by decide) 0x5500 (by decide) hne⟩

end NemoOS
