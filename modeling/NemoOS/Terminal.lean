import Mathlib

/-!
# The terminal

`Terminal` of `terminal.cpp`: a buffer of 25 rows of 80 cells and a cursor. Beside it an
unbounded page, on which nothing is ever scrolled away. `putAll_shows` says that the screen is
a window on the page, its last 25 rows, for any sequence of characters after `clear`.

The serial line, to which every character is copied, and the cursor registers of the card are
left out.
-/

namespace NemoOS

def WIDTH : Nat := 80
def HEIGHT : Nat := 25

def NEWLINE : UInt8 := 10
def BACKSPACE : UInt8 := 8
def BLANK : UInt8 := 32

def COLOR : UInt8 := 0x07

/-- A cell of the buffer; `char` is signed. -/
def entry (c : UInt8) : UInt16 := c.toInt8.toInt16.toUInt16 ||| (COLOR.toUInt16 <<< 8)

structure Terminal where
  buffer : Nat → UInt16
  row : Nat
  col : Nat

namespace Terminal

/-! ## The code -/

/-- One row of a loop over all rows. -/
def fillRow (buffer : Nat → UInt16) (y : Nat) : Nat → UInt16 :=
  (List.range WIDTH).foldl (fun b x => Function.update b (y * WIDTH + x) (entry BLANK)) buffer

def clear (t : Terminal) : Terminal where
  buffer := (List.range HEIGHT).foldl fillRow t.buffer
  row := 0
  col := 0

/-- Row `y + 1` is copied to row `y`. -/
def copyRow (buffer : Nat → UInt16) (y : Nat) : Nat → UInt16 :=
  (List.range WIDTH).foldl (fun b x => Function.update b (y * WIDTH + x) (b ((y + 1) * WIDTH + x)))
    buffer

def scroll (t : Terminal) : Terminal where
  buffer := fillRow ((List.range (HEIGHT - 1)).foldl copyRow t.buffer) (HEIGHT - 1)
  row := HEIGHT - 1
  col := t.col

/-- The character itself. -/
def place (t : Terminal) (c : UInt8) : Terminal :=
  if c = NEWLINE then { t with col := 0, row := t.row + 1 }
  else if c = BACKSPACE then
    let col := if t.col > 0 then t.col - 1 else t.col
    { t with col := col, buffer := Function.update t.buffer (t.row * WIDTH + col) (entry BLANK) }
  else
    { t with
      buffer := Function.update t.buffer (t.row * WIDTH + t.col) (entry c)
      col := t.col + 1 }

def wrap (t : Terminal) : Terminal :=
  if t.col ≥ WIDTH then { t with col := 0, row := t.row + 1 } else t

def putchar (t : Terminal) (c : UInt8) : Terminal :=
  let t := (t.place c).wrap
  if t.row ≥ HEIGHT then t.scroll else t

/-- `write`, and any other sequence of calls of `putchar`. -/
def putAll (t : Terminal) (cs : List UInt8) : Terminal := cs.foldl putchar t

def backspace (t : Terminal) : Terminal := t.putchar BACKSPACE

/-- The character on the screen. -/
def charAt (t : Terminal) (y x : Nat) : UInt8 := (t.buffer (y * WIDTH + x)).toUInt8

end Terminal

/-! ## The page -/

/-- An unbounded grid of rows of 80 cells, and a cursor. -/
structure Page where
  cells : Nat × Nat → UInt8
  row : Nat
  col : Nat

namespace Page

def blank : Page := ⟨fun _ => BLANK, 0, 0⟩

def putchar (p : Page) (c : UInt8) : Page :=
  if c = NEWLINE then { p with row := p.row + 1, col := 0 }
  else if c = BACKSPACE then
    { p with col := p.col - 1, cells := Function.update p.cells (p.row, p.col - 1) BLANK }
  else
    let cells := Function.update p.cells (p.row, p.col) c
    if p.col + 1 < WIDTH then { p with cells := cells, col := p.col + 1 }
    else { cells := cells, row := p.row + 1, col := 0 }

def putAll (p : Page) (cs : List UInt8) : Page := cs.foldl putchar p

/-- The first row of the page that is on the screen. -/
def top (p : Page) : Nat := p.row - (HEIGHT - 1)

end Page

/-! ## Cells -/

theorem toUInt8_entry (c : UInt8) : (entry c).toUInt8 = c := by
  have hcolor : (COLOR.toUInt16 <<< 8).toUInt8 = 0 := by decide
  rw [entry, UInt16.toUInt8_or, hcolor, UInt8.or_zero]
  apply UInt8.eq_of_toBitVec_eq
  ext i hi
  simp [BitVec.getLsbD_signExtend, hi]
  omega

namespace Terminal

/-- What a loop leaves in a cell: `n` cells of a row are filled. -/
theorem foldl_fill (buffer : Nat → UInt16) (base n i : Nat) :
    (List.range n).foldl (fun b x => Function.update b (base + x) (entry BLANK)) buffer i =
      if base ≤ i ∧ i < base + n then entry BLANK else buffer i := by
  induction n with
  | zero => rw [if_neg (by omega), List.range_zero, List.foldl_nil]
  | succ n ih =>
      rw [List.range_succ, List.foldl_concat]
      by_cases hi : i = base + n
      · rw [hi, Function.update_self, if_pos (by omega)]
      · rw [Function.update_of_ne hi, ih]
        exact if_congr (by omega) rfl rfl

theorem fillRow_apply (buffer : Nat → UInt16) (y i : Nat) :
    fillRow buffer y i =
      if y * WIDTH ≤ i ∧ i < y * WIDTH + WIDTH then entry BLANK else buffer i :=
  foldl_fill buffer (y * WIDTH) WIDTH i

/-- `n` cells of a row are copied from the row below, which is not written. -/
theorem foldl_copy (buffer : Nat → UInt16) (y i : Nat) {n : Nat} (hn : n ≤ WIDTH) :
    (List.range n).foldl
        (fun b x => Function.update b (y * WIDTH + x) (b ((y + 1) * WIDTH + x))) buffer i =
      if y * WIDTH ≤ i ∧ i < y * WIDTH + n then buffer (i + WIDTH) else buffer i := by
  induction n generalizing i with
  | zero => rw [if_neg (by omega), List.range_zero, List.foldl_nil]
  | succ n ih =>
      have hbelow : (y + 1) * WIDTH = y * WIDTH + WIDTH := Nat.succ_mul y WIDTH
      rw [List.range_succ, List.foldl_concat]
      by_cases hi : i = y * WIDTH + n
      · rw [hi, Function.update_self, if_pos (by omega), ih _ (by omega), if_neg (by omega), hbelow]
        congr 1
        omega
      · rw [Function.update_of_ne hi, ih _ (by omega)]
        exact if_congr (by omega) rfl rfl

theorem copyRow_apply (buffer : Nat → UInt16) (y i : Nat) :
    copyRow buffer y i =
      if y * WIDTH ≤ i ∧ i < y * WIDTH + WIDTH then buffer (i + WIDTH) else buffer i :=
  foldl_copy buffer y i (Nat.le_refl WIDTH)

theorem foldl_fillRow (buffer : Nat → UInt16) (n i : Nat) :
    (List.range n).foldl fillRow buffer i = if i < n * WIDTH then entry BLANK else buffer i := by
  induction n with
  | zero => rw [if_neg (by omega), List.range_zero, List.foldl_nil]
  | succ n ih =>
      have hnext : (n + 1) * WIDTH = n * WIDTH + WIDTH := Nat.succ_mul n WIDTH
      rw [List.range_succ, List.foldl_concat, fillRow_apply, ih, hnext]
      split_ifs <;> first | rfl | omega

/-- Every row is copied before it is overwritten. -/
theorem foldl_copyRow (buffer : Nat → UInt16) (n i : Nat) :
    (List.range n).foldl copyRow buffer i =
      if i < n * WIDTH then buffer (i + WIDTH) else buffer i := by
  induction n generalizing i with
  | zero => rw [if_neg (by omega), List.range_zero, List.foldl_nil]
  | succ n ih =>
      have hnext : (n + 1) * WIDTH = n * WIDTH + WIDTH := Nat.succ_mul n WIDTH
      rw [List.range_succ, List.foldl_concat, copyRow_apply, ih, ih, hnext]
      split_ifs <;> first | rfl | omega

theorem charAt_clear (t : Terminal) {y x : Nat} (hy : y < HEIGHT) (hx : x < WIDTH) :
    t.clear.charAt y x = BLANK := by
  have hcell : y * WIDTH + x < HEIGHT * WIDTH := by
    simp only [WIDTH, HEIGHT] at *
    omega
  rw [charAt, clear]
  dsimp only
  rw [foldl_fillRow, if_pos hcell, toUInt8_entry]

theorem charAt_scroll (t : Terminal) {y x : Nat} (hy : y < HEIGHT) (hx : x < WIDTH) :
    t.scroll.charAt y x = if y + 1 < HEIGHT then t.charAt (y + 1) x else BLANK := by
  rw [charAt, scroll]
  dsimp only
  rw [fillRow_apply, foldl_copyRow]
  by_cases hlast : y + 1 < HEIGHT
  · have hcopied : y * WIDTH + x < (HEIGHT - 1) * WIDTH := by
      simp only [WIDTH, HEIGHT] at *
      omega
    rw [if_neg (by omega), if_pos hcopied, if_pos hlast, charAt, Nat.add_right_comm, Nat.succ_mul]
  · have hfilled : (HEIGHT - 1) * WIDTH ≤ y * WIDTH + x ∧
        y * WIDTH + x < (HEIGHT - 1) * WIDTH + WIDTH := by
      simp only [WIDTH, HEIGHT] at *
      omega
    rw [if_pos hfilled, if_neg hlast, toUInt8_entry]

end Terminal

/-! ## The window -/

/-- The screen shows the rows of the page from `top` on, below which the page is blank. -/
structure Terminal.View (t : Terminal) (p : Page) (top : Nat) : Prop where
  row_eq : t.row + top = p.row
  col_eq : t.col = p.col
  charAt_eq : ∀ y < HEIGHT, ∀ x < WIDTH, t.charAt y x = p.cells (top + y, x)
  blank_below : ∀ y x, p.cells (top + HEIGHT + y, x) = BLANK

namespace Terminal

variable {t : Terminal} {p : Page} {top : Nat}

/-- Writing a cell of the window to both. -/
theorem View.update (h : View t p top) (c : UInt8) (col : Nat) (hrow : t.row < HEIGHT)
    (hcol : col < WIDTH) :
    View { t with buffer := Function.update t.buffer (t.row * WIDTH + col) (entry c) }
      { p with cells := Function.update p.cells (p.row, col) c } top where
  row_eq := h.row_eq
  col_eq := h.col_eq
  charAt_eq y hy x hx := by
    have hprow := h.row_eq
    dsimp only [charAt]
    by_cases hcell : y = t.row ∧ x = col
    · obtain ⟨rfl, rfl⟩ := hcell
      rw [Function.update_self, toUInt8_entry, ← hprow, Nat.add_comm top, Function.update_self]
    · have hne : y * WIDTH + x ≠ t.row * WIDTH + col := by
        simp only [WIDTH] at *
        omega
      have hne' : (top + y, x) ≠ (p.row, col) := by
        rw [Ne, Prod.mk.injEq]
        omega
      rw [Function.update_of_ne hne, Function.update_of_ne hne']
      exact h.charAt_eq y hy x hx
  blank_below y x := by
    have hprow := h.row_eq
    have hne : (top + HEIGHT + y, x) ≠ (p.row, col) := by
      rw [Ne, Prod.mk.injEq]
      omega
    dsimp only
    rw [Function.update_of_ne hne]
    exact h.blank_below y x

/-- Moving both cursors. -/
theorem View.move (h : View t p top) (row col : Nat) (hrow : t.row ≤ row) :
    View { t with row := row, col := col } { p with row := p.row + (row - t.row), col := col }
      top where
  row_eq := by
    have hprow := h.row_eq
    dsimp only
    omega
  col_eq := rfl
  charAt_eq := h.charAt_eq
  blank_below := h.blank_below

/-- The character is placed inside the window, the cursor may be one row below. -/
theorem View.place (h : View t p top) (hrow : t.row < HEIGHT) (hcol : t.col < WIDTH) (c : UInt8) :
    View (t.place c).wrap (p.putchar c) top := by
  have hcol' := h.col_eq
  rw [Terminal.place, Page.putchar]
  by_cases hnewline : c = NEWLINE
  · rw [if_pos hnewline, if_pos hnewline, wrap, if_neg (by simp [WIDTH])]
    simpa using h.move (t.row + 1) 0 (by omega)
  · rw [if_neg hnewline, if_neg hnewline]
    by_cases hbackspace : c = BACKSPACE
    · have hback : (if t.col > 0 then t.col - 1 else t.col) = p.col - 1 := by
        split_ifs <;> omega
      rw [if_pos hbackspace, if_pos hbackspace, hback, wrap, if_neg (by dsimp only; omega)]
      simpa using (h.update BLANK (p.col - 1) hrow (by omega)).move t.row (p.col - 1)
        (Nat.le_refl t.row)
    · have hplaced := h.update c t.col hrow hcol
      rw [if_neg hbackspace, if_neg hbackspace, wrap]
      dsimp only
      rw [← hcol']
      by_cases hwrap : t.col + 1 < WIDTH
      · rw [if_pos hwrap, if_neg (by omega)]
        simpa using hplaced.move t.row (t.col + 1) (Nat.le_refl t.row)
      · rw [if_neg hwrap, if_pos (by omega)]
        simpa using hplaced.move (t.row + 1) 0 (by dsimp only; omega)

theorem View.scroll (h : View t p top) (hrow : t.row = HEIGHT) : View t.scroll p (top + 1) where
  row_eq := by
    have hrow' := h.row_eq
    simp only [Terminal.scroll, HEIGHT] at *
    omega
  col_eq := h.col_eq
  charAt_eq y hy x hx := by
    rw [charAt_scroll t hy hx, Nat.add_right_comm, Nat.add_assoc]
    split_ifs with hlast
    · exact h.charAt_eq (y + 1) hlast x hx
    · rw [show y + 1 = HEIGHT from by omega]
      exact (h.blank_below 0 x).symm
  blank_below y x := by
    rw [show top + 1 + HEIGHT + y = top + HEIGHT + (y + 1) from by omega]
    exact h.blank_below (y + 1) x

/-- The screen shows the last rows of the page, or all of them. -/
structure Shows (t : Terminal) (p : Page) : Prop extends View t p p.top where
  col_lt : t.col < WIDTH
  row_lt : t.row < HEIGHT

theorem shows_clear (t : Terminal) : Shows t.clear Page.blank where
  row_eq := rfl
  col_eq := rfl
  charAt_eq _ hy _ hx := charAt_clear t hy hx
  blank_below _ _ := rfl
  col_lt := (by decide : 0 < WIDTH)
  row_lt := (by decide : 0 < HEIGHT)

/-- After the character and the wrap, the cursor is at most one row below the window. -/
theorem place_wrap_bounds (hrow : t.row < HEIGHT) (c : UInt8) :
    t.row ≤ (t.place c).wrap.row ∧ (t.place c).wrap.row ≤ HEIGHT ∧
      (t.place c).wrap.col < WIDTH := by
  have hplace : (t.place c).row = t.row + 1 ∧ (t.place c).col = 0 ∨
      (t.place c).row = t.row ∧ (t.place c).col ≤ t.col + 1 := by
    rw [place]
    split_ifs
    · exact .inl ⟨rfl, rfl⟩
    · exact .inr ⟨rfl, by dsimp only; omega⟩
    · exact .inr ⟨rfl, by dsimp only; omega⟩
    · exact .inr ⟨rfl, Nat.le_refl _⟩
  rw [wrap]
  split_ifs with hwrap
  · dsimp only
    simp only [WIDTH] at *
    omega
  · omega

theorem Shows.putchar (h : Shows t p) (c : UInt8) : Shows (t.putchar c) (p.putchar c) := by
  have hview := h.toView.place h.row_lt h.col_lt c
  obtain ⟨hrow, hrow', hcol⟩ := place_wrap_bounds h.row_lt c
  have hold := h.row_eq
  have hnew := hview.row_eq
  have hlt := h.row_lt
  rw [Terminal.putchar]
  split_ifs with hscroll
  · have htop : (p.putchar c).top = p.top + 1 := by
      simp only [Page.top, HEIGHT] at *
      omega
    refine ⟨?_, hcol, (by decide : HEIGHT - 1 < HEIGHT)⟩
    rw [htop]
    exact hview.scroll (by omega)
  · have htop : (p.putchar c).top = p.top := by
      simp only [Page.top, HEIGHT] at *
      omega
    refine ⟨?_, hcol, by omega⟩
    rw [htop]
    exact hview

theorem Shows.putAll (h : Shows t p) (cs : List UInt8) : Shows (t.putAll cs) (p.putAll cs) := by
  induction cs generalizing t p with
  | nil => exact h
  | cons c cs ih => exact ih (h.putchar c)

end Terminal

namespace Page

/-- Nothing is written below the cursor's row. -/
theorem putAll_blank_below (cs : List UInt8) {p : Page}
    (h : ∀ y > p.row, ∀ x, p.cells (y, x) = BLANK) :
    ∀ y > (p.putAll cs).row, ∀ x, (p.putAll cs).cells (y, x) = BLANK := by
  induction cs generalizing p with
  | nil => exact h
  | cons c cs ih =>
      apply ih
      intro y hy x
      rw [putchar] at hy ⊢
      split_ifs at hy ⊢
      · exact h y (Nat.lt_of_succ_lt hy) x
      · dsimp only at hy ⊢
        rw [Function.update_of_ne (by rw [Ne, Prod.mk.injEq]; omega), h y hy x]
      · dsimp only at hy ⊢
        rw [Function.update_of_ne (by rw [Ne, Prod.mk.injEq]; omega), h y hy x]
      · dsimp only at hy ⊢
        rw [Function.update_of_ne (by rw [Ne, Prod.mk.injEq]; omega), h y (by omega) x]

end Page

/-- **The terminal is a window on an unbounded page.** After `clear` and any characters, the
    cursor is on the screen and in the page's column, and the characters on the screen are those
    of the last 25 rows of the page, or of all its rows followed by blank ones. -/
theorem Terminal.putAll_shows (t : Terminal) (cs : List UInt8) :
    (t.clear.putAll cs).row < HEIGHT ∧ (t.clear.putAll cs).col < WIDTH ∧
      (t.clear.putAll cs).col = (Page.blank.putAll cs).col ∧
      (t.clear.putAll cs).row = min (Page.blank.putAll cs).row (HEIGHT - 1) ∧
      (∀ y < HEIGHT, ∀ x < WIDTH, (t.clear.putAll cs).charAt y x =
        (Page.blank.putAll cs).cells ((Page.blank.putAll cs).row - (HEIGHT - 1) + y, x)) ∧
      ∀ y > (Page.blank.putAll cs).row, ∀ x, (Page.blank.putAll cs).cells (y, x) = BLANK := by
  have h := (shows_clear t).putAll cs
  have hlt := h.row_lt
  have hrow := h.row_eq
  refine ⟨h.row_lt, h.col_lt, h.col_eq, ?_, h.charAt_eq, ?_⟩
  · rw [Page.top] at hrow
    omega
  · exact Page.putAll_blank_below cs fun _ _ _ => rfl

end NemoOS
