import Mathlib

/-!
# The keyboard driver

`keyboard_scancode_to_ascii` of `drivers/keyboard.cpp` and the four flags it keeps. A scancode
is a key, in its low seven bits, and a bit that says whether the key was released.

Ctrl and Alt have one key each, and their flags say whether it is down. Shift has two keys
and one flag: releasing one of them clears it while the other may still be down.
`shiftPressed_iff_held` says after which sequences of scancodes the flag is wrong.
-/

namespace NemoOS

/-! ## The code -/

def SC_SHIFT_L : UInt8 := 0x2A
def SC_SHIFT_R : UInt8 := 0x36
def SC_CTRL_L : UInt8 := 0x1D
def SC_ALT_L : UInt8 := 0x38
def SC_CAPS : UInt8 := 0x3A

/-- `lower`, without the zeros at its end. -/
def lower : List UInt8 :=
  [0, 27, 49, 50, 51, 52, 53, 54, 55, 56, 57, 48, 45, 61, 8, 9,
   113, 119, 101, 114, 116, 121, 117, 105, 111, 112, 91, 93, 10, 0, 97, 115,
   100, 102, 103, 104, 106, 107, 108, 59, 39, 96, 0, 92, 122, 120, 99, 118,
   98, 110, 109, 44, 46, 47, 0, 42, 0, 32]

/-- `upper`, without the zeros at its end. -/
def upper : List UInt8 :=
  [0, 27, 33, 64, 35, 36, 37, 94, 38, 42, 40, 41, 95, 43, 8, 9,
   81, 87, 69, 82, 84, 89, 85, 73, 79, 80, 123, 125, 10, 0, 65, 83,
   68, 70, 71, 72, 74, 75, 76, 58, 34, 126, 0, 124, 90, 88, 67, 86,
   66, 78, 77, 60, 62, 63, 0, 42, 0, 32]

/-- The flags of the driver; all are false before the first key. -/
structure Modifiers where
  shiftPressed : Bool := false
  ctrlPressed : Bool := false
  altPressed : Bool := false
  capsLock : Bool := false
deriving DecidableEq, Repr

/-- The bit of a release. -/
def isRelease (scancode : UInt8) : Bool := scancode &&& 0x80 ≠ 0

/-- The key of a scancode. -/
def keyOf (scancode : UInt8) : UInt8 := scancode &&& 0x7F

def isShift (key : UInt8) : Bool := key = SC_SHIFT_L || key = SC_SHIFT_R

def keyboardScancodeToAscii (s : Modifiers) (scancode : UInt8) : UInt8 × Modifiers :=
  if isRelease scancode then
    let make := keyOf scancode
    (0, { s with
      shiftPressed := if isShift make then false else s.shiftPressed
      ctrlPressed := if make = SC_CTRL_L then false else s.ctrlPressed
      altPressed := if make = SC_ALT_L then false else s.altPressed })
  else if scancode = SC_CAPS then (0, { s with capsLock := !s.capsLock })
  else if isShift scancode then (0, { s with shiftPressed := true })
  else if scancode = SC_CTRL_L then (0, { s with ctrlPressed := true })
  else if scancode = SC_ALT_L then (0, { s with altPressed := true })
  else if scancode ≥ 128 then (0, s)
  else
    let shift := s.shiftPressed || s.capsLock
    ((if shift then upper else lower).getD scancode.toNat 0, s)

/-- The flags after scancodes. -/
def Modifiers.after (codes : List UInt8) : Modifiers :=
  codes.foldl (fun s c => (keyboardScancodeToAscii s c).2) {}

/-! ## Keys that are held -/

/-- The last scancode of the key was a press. -/
def held (codes : List UInt8) (key : UInt8) : Bool :=
  codes.foldl (fun down c => if keyOf c = key then !isRelease c else down) false

/-- A key is pressed when it is up and released when it is down. -/
def Alternates (codes : List UInt8) : Prop :=
  ∀ i, (h : i < codes.length) → isRelease codes[i] = held (codes.take i) (keyOf codes[i])

instance (codes : List UInt8) : Decidable (Alternates codes) :=
  inferInstanceAs (Decidable (∀ i, (h : i < codes.length) → _ = _))

/-- One of the shift keys is down. -/
def shiftHeld (codes : List UInt8) : Bool := held codes SC_SHIFT_L || held codes SC_SHIFT_R

/-- The last scancode of a shift key is a release that leaves one of them down. -/
def ReleasedUnder (codes : List UInt8) : Prop :=
  ∃ before c after, codes = before ++ c :: after ∧ isShift (keyOf c) = true ∧
    isRelease c = true ∧ shiftHeld (before ++ [c]) = true ∧
    ∀ d ∈ after, isShift (keyOf d) = false

/-! ## Scancodes -/

theorem byte_bits : ∀ n < 256, isRelease (UInt8.ofNat n) = decide (128 ≤ n) ∧
    (keyOf (UInt8.ofNat n)).toNat = n % 128 := by
  decide +kernel

theorem isRelease_eq (c : UInt8) : isRelease c = decide (128 ≤ c.toNat) := by
  simpa using (byte_bits c.toNat c.toNat_lt).1

theorem toNat_keyOf (c : UInt8) : (keyOf c).toNat = c.toNat % 128 := by
  simpa using (byte_bits c.toNat c.toNat_lt).2

/-- The scancode of a press is the key. -/
theorem keyOf_of_press {c : UInt8} (h : isRelease c = false) : keyOf c = c := by
  have hlt : c.toNat < 128 := by simpa [isRelease_eq] using h
  apply UInt8.toNat_inj.mp
  simp [toNat_keyOf, Nat.mod_eq_of_lt hlt]

@[simp] theorem held_nil (key : UInt8) : held [] key = false := rfl

@[simp] theorem held_concat (codes : List UInt8) (c key : UInt8) :
    held (codes ++ [c]) key = if keyOf c = key then !isRelease c else held codes key := by
  simp [held]

theorem shiftHeld_concat_of_not_shift (codes : List UInt8) {c : UInt8}
    (h : isShift (keyOf c) = false) : shiftHeld (codes ++ [c]) = shiftHeld codes := by
  simp only [isShift, Bool.or_eq_false_iff, decide_eq_false_iff_not] at h
  simp [shiftHeld, h.1, h.2]

theorem shiftHeld_concat_of_press (codes : List UInt8) {c : UInt8}
    (h : isShift (keyOf c) = true) (hpress : isRelease c = false) :
    shiftHeld (codes ++ [c]) = true := by
  simp only [isShift, Bool.or_eq_true, decide_eq_true_eq] at h
  rcases h with h | h <;> simp [shiftHeld, h, hpress]

/-! ## The flags, scancode by scancode -/

/-- What a scancode does to the flags: that of its key is set by a press and cleared by a
    release, and a press of Caps Lock turns its flag over. -/
theorem modifiers_step (s : Modifiers) (c : UInt8) :
    (keyboardScancodeToAscii s c).2 =
      { shiftPressed := if isShift (keyOf c) then !isRelease c else s.shiftPressed
        ctrlPressed := if keyOf c = SC_CTRL_L then !isRelease c else s.ctrlPressed
        altPressed := if keyOf c = SC_ALT_L then !isRelease c else s.altPressed
        capsLock := if c = SC_CAPS then !s.capsLock else s.capsLock } := by
  rw [keyboardScancodeToAscii]
  cases hrelease : isRelease c with
  | true =>
      have hcaps : c ≠ SC_CAPS := by
        rintro rfl
        exact absurd hrelease (by decide)
      simp [hcaps]
  | false =>
      -- the keys are different, so that at most one of the tests of the code is true
      rw [keyOf_of_press hrelease]
      by_cases hcaps : c = SC_CAPS
      · subst hcaps
        rfl
      · by_cases hctrl : c = SC_CTRL_L
        · subst hctrl
          rfl
        · by_cases halt : c = SC_ALT_L
          · subst halt
            rfl
          · cases hshift : isShift c <;> simp [hcaps, hctrl, halt, apply_ite Prod.snd]

@[simp] theorem after_nil : Modifiers.after [] = {} := rfl

theorem after_concat (codes : List UInt8) (c : UInt8) :
    Modifiers.after (codes ++ [c]) = (keyboardScancodeToAscii (Modifiers.after codes) c).2 := by
  simp [Modifiers.after]

theorem shiftPressed_concat (codes : List UInt8) (c : UInt8) :
    (Modifiers.after (codes ++ [c])).shiftPressed =
      if isShift (keyOf c) then !isRelease c else (Modifiers.after codes).shiftPressed := by
  simp [after_concat, modifiers_step]

/-- A flag that belongs to one key says whether the key is down. -/
theorem ctrl_alt_held (codes : List UInt8) :
    (Modifiers.after codes).ctrlPressed = held codes SC_CTRL_L ∧
      (Modifiers.after codes).altPressed = held codes SC_ALT_L := by
  induction codes using List.reverseRecOn with
  | nil => simp
  | append_singleton codes c ih => simp [after_concat, modifiers_step, ih]

/-! ## Shift -/

theorem not_releasedUnder_nil : ¬ ReleasedUnder [] := by
  rintro ⟨before, c, after, heq, -⟩
  simp at heq

/-- Scancodes of other keys change nothing; one of a shift key decides. -/
theorem releasedUnder_concat (codes : List UInt8) (c : UInt8) :
    ReleasedUnder (codes ++ [c]) ↔
      if isShift (keyOf c) then isRelease c = true ∧ shiftHeld (codes ++ [c]) = true
      else ReleasedUnder codes := by
  constructor
  · rintro ⟨before, d, after, heq, hshift, hrelease, hheld, hafter⟩
    rcases List.eq_nil_or_concat after with rfl | ⟨after, e, rfl⟩
    · obtain ⟨rfl, hlast⟩ := List.append_inj' heq rfl
      obtain rfl : c = d := List.head_eq_of_cons_eq hlast
      simp [hshift, hrelease, hheld]
    · have hsplit : codes ++ [c] = (before ++ d :: after) ++ [e] := by simpa using heq
      obtain ⟨rfl, hlast⟩ := List.append_inj' hsplit rfl
      obtain rfl : c = e := List.head_eq_of_cons_eq hlast
      have hother : isShift (keyOf c) = false := hafter c (by simp)
      rw [if_neg (by simp [hother])]
      exact ⟨before, d, after, rfl, hshift, hrelease, hheld, fun x hx => hafter x (by simp [hx])⟩
  · intro h
    split_ifs at h with hshift
    · exact ⟨codes, c, [], rfl, hshift, h.1, h.2, by simp⟩
    · obtain ⟨before, d, after, rfl, hshift', hrelease, hheld, hafter⟩ := h
      refine ⟨before, d, after ++ [c], by simp, hshift', hrelease, hheld, ?_⟩
      simpa [or_imp, forall_and, hshift] using hafter

/-- **Shift is tracked** after a sequence of scancodes exactly if the last scancode of a shift
    key is not a release that leaves the other one down. -/
theorem shiftPressed_iff_held (codes : List UInt8) :
    ((Modifiers.after codes).shiftPressed = true ↔
        held codes SC_SHIFT_L = true ∨ held codes SC_SHIFT_R = true) ↔
      ¬ ReleasedUnder codes := by
  rw [← Bool.or_eq_true, ← Bool.eq_iff_iff, ← shiftHeld]
  induction codes using List.reverseRecOn with
  | nil => simp [shiftHeld, not_releasedUnder_nil]
  | append_singleton codes c ih =>
      rw [shiftPressed_concat, releasedUnder_concat]
      cases hshift : isShift (keyOf c) with
      | false => simpa [shiftHeld_concat_of_not_shift codes hshift] using ih
      | true =>
          cases hrelease : isRelease c with
          | false => simp [shiftHeld_concat_of_press codes hshift hrelease]
          | true => cases shiftHeld (codes ++ [c]) <;> simp

/-- Both shift keys are pressed and the left one is released. -/
def overlap : List UInt8 := [SC_SHIFT_L, SC_SHIFT_R, SC_SHIFT_L ||| 0x80]

/-- The right shift key is still down, and the driver takes shift for released. -/
theorem shift_lost :
    Alternates overlap ∧ held overlap SC_SHIFT_R = true ∧
      (Modifiers.after overlap).shiftPressed = false := by
  decide

/-! ## Presses and releases -/

end NemoOS
