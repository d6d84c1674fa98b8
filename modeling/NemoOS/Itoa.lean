import Mathlib
import NemoOS.Fat32Dir
import NemoOS.Lib.CStrings
import NemoOS.Ping

/-!
# Decimal numbers

`libk/itoa.cpp` writes the digits of a number from the last one on to `temp` and copies them
in reverse to the buffer. The shell's `rd` command reads numbers with a loop of its own. Between
the two are the digits of the number to base ten, `Nat.digits`: `itoa_roundtrip` says what is
written, that ten digits are enough, and that the number is read back whatever stands behind it.
-/

namespace NemoOS

open Words Bytes

/-! ## The code -/

/-- The loop that stores digits to `temp`, and `i` behind it. -/
def tempLoop (temp : Nat → UInt8) (i value : Nat) : (Nat → UInt8) × Nat :=
  if value > 0 then
    tempLoop (Function.update temp i (UInt8.ofNat (48 + value % 10))) (i + 1) (value / 10)
  else (temp, i)
termination_by value
decreasing_by omega

/-- The loop that copies `temp` from `i` down, and `j` behind it. -/
def bufferLoop (temp : Nat → UInt8) (m : Memory) (buffer j : Nat) : Nat → Memory × Nat
  | 0 => (m, j)
  | i + 1 => bufferLoop temp (Function.update m (u32 (buffer + j)) (temp i)) buffer (j + 1) i

/-- `itoa`; `temp` is what is on the stack before. -/
def itoa (temp : Nat → UInt8) (m : Memory) (buffer : Nat) (value : UInt32) : Memory :=
  if value = 0 then Function.update (Function.update m (u32 buffer) 48) (u32 (buffer + 1)) 0
  else
    let (temp, i) := tempLoop temp 0 value.toNat
    let (m, j) := bufferLoop temp m buffer 0 i
    Function.update m (u32 (buffer + j)) 0

/-- A loop of `rd` over digits: the number, and where it stops. -/
def readDecimal (value : UInt32) : CString → UInt32 × CString
  | [] => (value, [])
  | c :: rest =>
      if isDigit c then readDecimal (value * 10 + UInt32.ofNat (c.toNat - 48)) rest
      else (value, c :: rest)

/-- The arguments of `rd`: `dev`, as the bits of an `int`, and `lba`. -/
def rdArguments (arg : CString) : UInt32 × UInt32 :=
  let (dev, s) := readDecimal 0 arg
  let (lba, _) := readDecimal 0 (s.dropWhile (· = SPACE))
  (dev, lba)

/-! ## Digits -/

def digitByte (d : Nat) : UInt8 := UInt8.ofNat (48 + d)

/-- The text of a number. -/
def itoaText (n : Nat) : CString :=
  if n = 0 then [48] else ((Nat.digits 10 n).map digitByte).reverse

/-- No digit comes next. -/
def EndsNumber (rest : CString) : Prop := ∀ c, rest.head? = some c → isDigit c = false

theorem toNat_digitByte {d : Nat} (h : d < 10) : (digitByte d).toNat = 48 + d := by
  rw [digitByte, UInt8.toNat_ofNat']
  omega

theorem isDigit_digitByte {d : Nat} (h : d < 10) : isDigit (digitByte d) = true := by
  have hnat := toNat_digitByte h
  simp [isDigit, UInt8.le_iff_toNat_le, hnat]
  omega

/-- The first `i` bytes of `temp`. -/
def tempBytes (temp : Nat → UInt8) (i : Nat) : List UInt8 := (List.range i).map temp

theorem tempBytes_succ (temp : Nat → UInt8) (i : Nat) :
    tempBytes temp (i + 1) = tempBytes temp i ++ [temp i] := by
  simp [tempBytes, List.range_succ]

theorem tempBytes_update (temp : Nat → UInt8) (i : Nat) (c : UInt8) :
    tempBytes (Function.update temp i c) (i + 1) = tempBytes temp i ++ [c] := by
  rw [tempBytes_succ, Function.update_self]
  congr 1
  apply List.map_congr_left
  intro j hj
  exact Function.update_of_ne (Nat.ne_of_lt (List.mem_range.mp hj)) _ _

/-! ## What is written -/

/-- The digits of the value are stored behind what is already there. -/
theorem tempLoop_eq (temp : Nat → UInt8) (i value : Nat) :
    (tempLoop temp i value).2 = i + (Nat.digits 10 value).length ∧
      tempBytes (tempLoop temp i value).1 (tempLoop temp i value).2 =
        tempBytes temp i ++ (Nat.digits 10 value).map digitByte := by
  induction temp, i, value using tempLoop.induct with
  | case1 temp i value hpos ih =>
      rw [tempLoop, if_pos hpos, Nat.digits_def' (by decide) hpos]
      refine ⟨by rw [ih.1, List.length_cons]; omega, ?_⟩
      rw [ih.2, tempBytes_update, List.append_assoc]
      rfl
  | case2 temp i value hzero =>
      obtain rfl : value = 0 := by omega
      simp [tempLoop]

/-- The bytes of `temp` are stored in reverse. -/
theorem bufferLoop_eq (temp : Nat → UInt8) (m : Memory) (buffer j i : Nat) :
    bufferLoop temp m buffer j i =
      (storeBytes m (buffer + j) (tempBytes temp i).reverse, j + i) := by
  induction i generalizing m j with
  | zero => rfl
  | succ i ih =>
      rw [bufferLoop, ih, tempBytes_succ, List.reverse_concat, storeBytes]
      simp [Nat.add_assoc, Nat.add_comm 1]

/-- `itoa` stores the text and a 0, and nothing else. -/
theorem itoa_eq (temp : Nat → UInt8) (m : Memory) (buffer : Nat) (n : UInt32) :
    itoa temp m buffer n = storeBytes m buffer (itoaText n.toNat ++ [0]) := by
  by_cases hzero : n = 0
  · subst hzero
    rfl
  · have hne : n.toNat ≠ 0 := fun h => hzero (UInt32.toNat_inj.mp h)
    obtain ⟨hlength, hbytes⟩ := tempLoop_eq temp 0 n.toNat
    have htext : (tempBytes (tempLoop temp 0 n.toNat).1 (tempLoop temp 0 n.toNat).2).reverse =
        itoaText n.toNat := by
      rw [hbytes, itoaText, if_neg hne]
      rfl
    have hend : (itoaText n.toNat).length = (tempLoop temp 0 n.toNat).2 := by
      simp [itoaText, hne, hlength]
    rw [itoa, if_neg hzero]
    dsimp only
    rw [bufferLoop_eq, htext, storeBytes_append, hend, Nat.zero_add, Nat.add_zero]
    rfl

/-! ## The text of a number -/

theorem itoaText_digits (n : Nat) : ∀ c ∈ itoaText n, isDigit c = true := by
  intro c hc
  by_cases hzero : n = 0
  · simp only [itoaText, hzero, if_true, List.mem_singleton] at hc
    subst hc
    rfl
  · simp only [itoaText, hzero, if_false, List.mem_reverse, List.mem_map] at hc
    obtain ⟨d, hd, rfl⟩ := hc
    exact isDigit_digitByte (Nat.digits_lt_base (by decide) hd)

theorem itoaText_ne_nil (n : Nat) : itoaText n ≠ [] := by
  by_cases hzero : n = 0 <;> simp [itoaText, hzero, Nat.digits_ne_nil_iff_ne_zero]

theorem length_itoaText_le {n : Nat} (h : n < 2 ^ 32) : (itoaText n).length ≤ 10 := by
  by_cases hzero : n = 0
  · simp [itoaText, hzero]
  · have hlength := (Nat.digits_length_le_iff (b := 10) (k := 10) (by decide) n).mpr (by omega)
    simpa [itoaText, hzero] using hlength

/-- The first digit is the last one that was made. -/
theorem head?_itoaText {n : Nat} (h : (itoaText n).head? = some 48) : n = 0 := by
  by_contra hne
  have hnil : Nat.digits 10 n ≠ [] := Nat.digits_ne_nil_iff_ne_zero.mpr hne
  have hlast := Nat.getLast_digit_ne_zero 10 hne
  have hnat := toNat_digitByte (Nat.digits_lt_base (by decide) (List.getLast_mem hnil))
  rw [itoaText, if_neg hne, List.head?_reverse, List.getLast?_map,
    List.getLast?_eq_some_getLast hnil, Option.map_some, Option.some.injEq] at h
  rw [h] at hnat
  exact hlast (by simpa using hnat)

/-! ## What is read -/

theorem readDecimal_digits {ds : CString} (hdigits : ∀ c ∈ ds, isDigit c = true) (rest : CString)
    (v : Nat) : readDecimal (UInt32.ofNat v) (ds ++ rest) =
      readDecimal (UInt32.ofNat (ds.foldl (fun v c => v * 10 + (c.toNat - 48)) v)) rest := by
  induction ds generalizing v with
  | nil => rfl
  | cons c ds ih =>
      have hc := hdigits c List.mem_cons_self
      rw [List.cons_append, readDecimal, if_pos hc, ofNat_digit, List.foldl_cons]
      exact ih (fun c hc => hdigits c (List.mem_cons_of_mem _ hc)) _

theorem readDecimal_stops {rest : CString} (h : EndsNumber rest) (v : UInt32) :
    readDecimal v rest = (v, rest) := by
  cases rest with
  | nil => rfl
  | cons c rest => simp [readDecimal, h c rfl]

/-- Digits from the last one on, read from the first one on. -/
theorem decimal_reverse {ds : List Nat} (h : ∀ d ∈ ds, d < 10) :
    decimal (ds.map digitByte).reverse = Nat.ofDigits 10 ds := by
  induction ds with
  | nil => rfl
  | cons d ds ih =>
      have hd := toNat_digitByte (h d List.mem_cons_self)
      have hrest := ih fun d hd => h d (List.mem_cons_of_mem _ hd)
      simp only [decimal] at hrest
      simp only [decimal, List.map_cons, List.reverse_cons, List.foldl_append, List.foldl_cons,
        List.foldl_nil, hrest, hd, Nat.ofDigits_cons]
      omega

theorem decimal_itoaText (n : Nat) : decimal (itoaText n) = n := by
  by_cases hzero : n = 0
  · simp [itoaText, hzero, decimal]
  · rw [itoaText, if_neg hzero, decimal_reverse fun d hd => Nat.digits_lt_base (by decide) hd,
      Nat.ofDigits_digits]

/-- The number is read back. -/
theorem readDecimal_itoaText (n : UInt32) {rest : CString} (h : EndsNumber rest) :
    readDecimal 0 (itoaText n.toNat ++ rest) = (n, rest) := by
  have hread := readDecimal_digits (itoaText_digits n.toNat) rest 0
  rw [← decimal, decimal_itoaText, readDecimal_stops h, UInt32.ofNat_toNat] at hread
  exact hread

/-- **Numbers are written and read back.** For every 32-bit number `itoa` stores a text of at
    most ten digits and a 0, uses as many bytes of `temp`, and starts the text with a zero only
    if it is that of 0; the loop of `rd` gets the number from the text, with anything but a digit
    behind it. -/
theorem itoa_roundtrip (temp : Nat → UInt8) (m : Memory) (buffer : Nat) (n : UInt32) :
    ∃ text : CString, itoa temp m buffer n = storeBytes m buffer (text ++ [0]) ∧
      text ≠ [] ∧ text.length ≤ 10 ∧ (∀ c ∈ text, isDigit c = true) ∧
      (tempLoop temp 0 n.toNat).2 ≤ 10 ∧
      (text.head? = some 48 → n = 0 ∧ text = [48]) ∧
      ∀ rest, EndsNumber rest → readDecimal 0 (text ++ rest) = (n, rest) := by
  have htemp := (Nat.digits_length_le_iff (b := 10) (k := 10) (by decide) n.toNat).mpr
    (Nat.lt_trans n.toNat_lt (by decide))
  refine ⟨itoaText n.toNat, itoa_eq temp m buffer n, itoaText_ne_nil _,
    length_itoaText_le n.toNat_lt, itoaText_digits _, ?_, fun hhead => ?_,
    fun rest hrest => readDecimal_itoaText n hrest⟩
  · rwa [(tempLoop_eq temp 0 n.toNat).1, Nat.zero_add]
  · have hzero := head?_itoaText hhead
    exact ⟨UInt32.toNat_inj.mp hzero, by simp [itoaText, hzero]⟩

/-- The largest number, with a blank behind it. -/
theorem itoa_roundtrip_max :
    EndsNumber [SPACE] ∧ ∃ text : CString, text.length ≤ 10 ∧
      itoa (fun _ => 0) (fun _ => 0) 0x8000 0xFFFFFFFF =
        storeBytes (fun _ => 0) 0x8000 (text ++ [0]) ∧
      readDecimal 0 (text ++ [SPACE]) = (0xFFFFFFFF, [SPACE]) := by
  have hends : EndsNumber [SPACE] := by
    rintro c ⟨rfl⟩
    rfl
  obtain ⟨text, hstored, -, hlength, -, -, -, hread⟩ :=
    itoa_roundtrip (fun _ => 0) (fun _ => 0) 0x8000 0xFFFFFFFF
  exact ⟨hends, text, hlength, hstored, hread [SPACE] hends⟩

/-! ## Commands with numbers -/

theorem dropWhile_itoaText (n : Nat) (rest : CString) :
    (itoaText n ++ rest).dropWhile (· = SPACE) = itoaText n ++ rest := by
  have hdigits := itoaText_digits n
  cases htext : itoaText n with
  | nil => exact absurd htext (itoaText_ne_nil n)
  | cons c text =>
      have hc : c ≠ SPACE := by
        rintro rfl
        exact absurd (hdigits SPACE (htext ▸ List.mem_cons_self)) (by decide)
      simp [hc]

/-- `rd` gets both of its numbers. -/
theorem rdArguments_itoaText (dev lba : UInt32) {rest : CString} (h : EndsNumber rest) :
    rdArguments (itoaText dev.toNat ++ SPACE :: (itoaText lba.toNat ++ rest)) = (dev, lba) := by
  have hblank : EndsNumber (SPACE :: (itoaText lba.toNat ++ rest)) := by
    rintro c ⟨rfl⟩
    rfl
  have hskip : (SPACE :: (itoaText lba.toNat ++ rest)).dropWhile (· = SPACE) =
      itoaText lba.toNat ++ rest := by
    rw [List.dropWhile_cons_of_pos (by simp), dropWhile_itoaText]
  rw [rdArguments, readDecimal_itoaText dev hblank]
  dsimp only
  rw [hskip, readDecimal_itoaText lba h]

end NemoOS
