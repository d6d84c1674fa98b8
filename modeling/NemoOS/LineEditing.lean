import Mathlib
import NemoOS.Terminal

/-!
# Line editing

`shell_on_key` of `shell/shell.cpp` and what it leaves on the screen. The shell and the
terminal each keep a position, the length of the command and the cursor, and every key moves
both; only a backspace in the first column moves one of them, because the terminal does not go
back to the row above. From then on the cursor is a cell too far (`typed_iff`).

The argument is made on the page, where positions are numbers that do not change when the
screen scrolls, and carried over to the screen by `Terminal.Shows`.
-/

namespace NemoOS

/-- `"> "`. -/
def PROMPT : List UInt8 := [62, 32]

/-! ## The shell -/

/-- `cmd` up to `idx`, and what is written to: the terminal, or the page beside it. -/
structure ShellLine (δ : Type*) where
  cmd : List UInt8
  display : δ

namespace ShellLine

variable {δ : Type*} (putchar : δ → UInt8 → δ)

/-- What `shell_on_key` does with a key that does not end the line. -/
def edit (s : ShellLine δ) (c : UInt8) : ShellLine δ :=
  if c = BACKSPACE then
    if s.cmd.length > 0 then ⟨s.cmd.dropLast, putchar s.display BACKSPACE⟩ else s
  else if s.cmd.length < 255 then ⟨s.cmd ++ [c], putchar s.display c⟩
  else s

/-- The prompt and the keys after it. -/
def typed (display : δ) (keys : List UInt8) : ShellLine δ :=
  keys.foldl (edit putchar) ⟨[], PROMPT.foldl putchar display⟩

end ShellLine

/-- `shell_on_key`; `execute` is what the commands do. -/
def shellOnKey (execute : List UInt8 → Terminal → Terminal) (s : ShellLine Terminal) (c : UInt8) :
    ShellLine Terminal :=
  if c = NEWLINE then ⟨[], (execute s.cmd (s.display.putchar NEWLINE)).putAll PROMPT⟩
  else s.edit Terminal.putchar c

/-- A printable character or a backspace. -/
def IsKey (c : UInt8) : Prop := c = BACKSPACE ∨ 32 ≤ c ∧ c < 127

instance : DecidablePred IsKey := fun c =>
  inferInstanceAs (Decidable (c = BACKSPACE ∨ 32 ≤ c ∧ c < 127))

/-- The state of the shell after keys that were typed at a prompt. -/
def shellAfter (execute : List UInt8 → Terminal → Terminal) (t : Terminal) (keys : List UInt8) :
    ShellLine Terminal :=
  keys.foldl (shellOnKey execute) ⟨[], t.putAll PROMPT⟩

theorem IsKey.ne_newline {c : UInt8} (h : IsKey c) : c ≠ NEWLINE := by
  rintro rfl
  rcases h with h | h
  · exact absurd h (by decide)
  · exact absurd h (by decide)

theorem shellAfter_eq_typed (execute : List UInt8 → Terminal → Terminal) (t : Terminal)
    {keys : List UInt8} (hkeys : ∀ c ∈ keys, IsKey c) :
    shellAfter execute t keys = ShellLine.typed Terminal.putchar t keys := by
  apply List.foldl_ext
  intro s c hc
  rw [shellOnKey, if_neg (hkeys c hc).ne_newline]

/-! ## Positions on the page -/

namespace Page

/-- The cells are numbered row after row. -/
def pos (p : Page) : Nat := p.row * WIDTH + p.col

def cell (p : Page) (n : Nat) : UInt8 := p.cells (n / WIDTH, n % WIDTH)

/-- Nothing is written from the cursor on. -/
structure BlankFromCursor (p : Page) : Prop where
  col_lt : p.col < WIDTH
  cell_eq : ∀ n ≥ p.pos, p.cell n = BLANK

variable {p : Page}

theorem cell_update (p : Page) {row col : Nat} (c : UInt8) (hcol : col < WIDTH) (n : Nat) :
    Function.update p.cells (row, col) c (n / WIDTH, n % WIDTH) =
      if n = row * WIDTH + col then c else p.cell n := by
  by_cases hn : n = row * WIDTH + col
  · have hrow : n / WIDTH = row := by
      simp only [WIDTH] at *
      omega
    have hcol' : n % WIDTH = col := by
      simp only [WIDTH] at *
      omega
    rw [if_pos hn, hrow, hcol', Function.update_self]
  · have hne : (n / WIDTH, n % WIDTH) ≠ (row, col) := by
      rw [Ne, Prod.mk.injEq]
      simp only [WIDTH] at *
      omega
    rw [if_neg hn, Function.update_of_ne hne, cell]

/-- A character is written at the cursor, which moves to the next cell. -/
theorem putchar_print (hcol : p.col < WIDTH) {c : UInt8} (hnewline : c ≠ NEWLINE)
    (hbackspace : c ≠ BACKSPACE) :
    (p.putchar c).pos = p.pos + 1 ∧ (p.putchar c).col < WIDTH ∧
      ∀ n, (p.putchar c).cell n = if n = p.pos then c else p.cell n := by
  rw [putchar, if_neg hnewline, if_neg hbackspace]
  dsimp only
  split_ifs with hwrap
  · exact ⟨rfl, hwrap, fun n => p.cell_update c hcol n⟩
  · refine ⟨?_, (by decide : 0 < WIDTH), fun n => p.cell_update c hcol n⟩
    simp only [pos, WIDTH] at *
    omega

/-- A backspace blanks the cell before the cursor, in the first column the one under it. -/
theorem putchar_backspace (hcol : p.col < WIDTH) :
    (p.putchar BACKSPACE).pos = (if p.col = 0 then p.pos else p.pos - 1) ∧
      (p.putchar BACKSPACE).col < WIDTH ∧
      ∀ n, (p.putchar BACKSPACE).cell n =
        if n = (p.putchar BACKSPACE).pos then BLANK else p.cell n := by
  rw [putchar, if_neg (by decide), if_pos rfl]
  refine ⟨?_, Nat.lt_of_le_of_lt (Nat.sub_le _ _) hcol, fun n => ?_⟩
  · simp only [pos]
    split_ifs <;> omega
  · exact p.cell_update BLANK (by omega) n

theorem BlankFromCursor.putchar (h : p.BlankFromCursor) (c : UInt8) :
    (p.putchar c).BlankFromCursor := by
  by_cases hnewline : c = NEWLINE
  · rw [Page.putchar, if_pos hnewline]
    refine ⟨(by decide : 0 < WIDTH), fun n hn => h.cell_eq n ?_⟩
    have hcol := h.col_lt
    simp only [pos, WIDTH] at *
    omega
  · by_cases hbackspace : c = BACKSPACE
    · subst hbackspace
      obtain ⟨hpos, hcol, hcell⟩ := putchar_backspace h.col_lt
      refine ⟨hcol, fun n hn => ?_⟩
      rw [hcell]
      split_ifs with hn'
      · rfl
      · apply h.cell_eq
        split_ifs at hpos <;> omega
    · obtain ⟨hpos, hcol, hcell⟩ := putchar_print h.col_lt hnewline hbackspace
      refine ⟨hcol, fun n hn => ?_⟩
      rw [hcell, if_neg (by omega)]
      exact h.cell_eq n (by omega)

theorem BlankFromCursor.putAll (h : p.BlankFromCursor) (cs : List UInt8) :
    (p.putAll cs).BlankFromCursor := by
  induction cs generalizing p with
  | nil => exact h
  | cons c cs ih => exact ih (h.putchar c)

theorem blank_blankFromCursor : blank.BlankFromCursor := ⟨by decide, fun _ _ => rfl⟩

/-- The page has the text from `start` on, and the cursor behind it. -/
structure HasText (p : Page) (start : Nat) (text : List UInt8) : Prop
    extends p.BlankFromCursor where
  pos_eq : p.pos = start + text.length
  text_eq : ∀ n < text.length, some (p.cell (start + n)) = text[n]?

variable {start : Nat} {text : List UInt8}

theorem HasText.print (h : p.HasText start text) {c : UInt8} (hnewline : c ≠ NEWLINE)
    (hbackspace : c ≠ BACKSPACE) : (p.putchar c).HasText start (text ++ [c]) := by
  obtain ⟨hpos, -, hcell⟩ := putchar_print h.col_lt hnewline hbackspace
  have hold := h.pos_eq
  refine ⟨h.toBlankFromCursor.putchar c, ?_, fun n hn => ?_⟩
  · rw [hpos, hold, List.length_append, List.length_singleton, Nat.add_assoc]
  · rw [List.length_append, List.length_singleton] at hn
    rw [hcell]
    by_cases hlast : n = text.length
    · rw [hlast, if_pos hold.symm, List.getElem?_concat_length]
    · rw [if_neg (by omega), List.getElem?_append_left (by omega)]
      exact h.text_eq n (by omega)

theorem HasText.backspace (h : p.HasText start text) (hcol : p.col ≠ 0) (htext : text ≠ []) :
    (p.putchar BACKSPACE).HasText start text.dropLast := by
  obtain ⟨hpos, -, hcell⟩ := putchar_backspace h.col_lt
  have hold := h.pos_eq
  have hlength := List.length_pos_of_ne_nil htext
  rw [if_neg hcol] at hpos
  refine ⟨h.toBlankFromCursor.putchar BACKSPACE, ?_, fun n hn => ?_⟩
  · rw [hpos, hold, List.length_dropLast]
    omega
  · rw [List.length_dropLast] at hn
    rw [hcell, if_neg (by omega), List.getElem?_dropLast, if_pos (by omega)]
    exact h.text_eq n (by omega)

end Page

/-! ## Keys -/

namespace ShellLine

variable {s : ShellLine Page} {start : Nat}

/-- A key that is not a backspace at the edge keeps the page and the command together. -/
theorem hasText_edit (h : s.display.HasText start (PROMPT ++ s.cmd)) {c : UInt8} (hkey : IsKey c)
    (hedge : c = BACKSPACE → s.cmd ≠ [] → s.display.col ≠ 0) :
    (s.edit Page.putchar c).display.HasText start (PROMPT ++ (s.edit Page.putchar c).cmd) := by
  rw [edit]
  split_ifs with hbackspace hcmd hroom
  · have hne := List.ne_nil_of_length_pos hcmd
    have htext := h.backspace (hedge hbackspace hne) (by simp [hne])
    rwa [List.dropLast_append_of_ne_nil hne] at htext
  · exact h
  · have htext := h.print hkey.ne_newline hbackspace
    rwa [List.append_assoc] at htext
  · exact h

/-- The cursor is at least `k` cells behind the end of the command. -/
def Ahead (s : ShellLine Page) (start k : Nat) : Prop :=
  s.display.col < WIDTH ∧ start + PROMPT.length + s.cmd.length + k ≤ s.display.pos

/-- No key brings the cursor back. -/
theorem Ahead.edit {k : Nat} (h : s.Ahead start k) {c : UInt8} (hkey : IsKey c) :
    (s.edit Page.putchar c).Ahead start k := by
  obtain ⟨hcol, hle⟩ := h
  rw [ShellLine.edit]
  split_ifs with hbackspace hcmd hroom
  · obtain ⟨hpos, hcol', -⟩ := Page.putchar_backspace hcol
    refine ⟨hcol', ?_⟩
    dsimp only
    rw [List.length_dropLast]
    split_ifs at hpos <;> omega
  · exact ⟨hcol, hle⟩
  · obtain ⟨hpos, hcol', -⟩ := Page.putchar_print hcol hkey.ne_newline hbackspace
    refine ⟨hcol', ?_⟩
    dsimp only
    rw [List.length_append, List.length_singleton]
    omega
  · exact ⟨hcol, hle⟩

/-- A backspace in the first column moves the cursor ahead. -/
theorem Ahead.edge {k : Nat} (h : s.Ahead start k) (hcmd : s.cmd ≠ []) (hedge : s.display.col = 0) :
    (s.edit Page.putchar BACKSPACE).Ahead start (k + 1) := by
  obtain ⟨hcol, hle⟩ := h
  have hlength := List.length_pos_of_ne_nil hcmd
  obtain ⟨hpos, hcol', -⟩ := Page.putchar_backspace hcol
  rw [if_pos hedge] at hpos
  rw [ShellLine.edit, if_pos rfl, if_pos hlength]
  refine ⟨hcol', ?_⟩
  dsimp only
  rw [List.length_dropLast]
  omega

theorem typed_concat {δ : Type*} (putchar : δ → UInt8 → δ) (display : δ) (keys : List UInt8)
    (c : UInt8) :
    typed putchar display (keys ++ [c]) = (typed putchar display keys).edit putchar c :=
  List.foldl_concat ..

/-- Some backspace is typed in the first column while there is a command. -/
def EdgeBackspace {δ : Type*} (putchar : δ → UInt8 → δ) (col : δ → Nat) (display : δ)
    (keys : List UInt8) : Prop :=
  ∃ before, before ++ [BACKSPACE] <+: keys ∧ (typed putchar display before).cmd ≠ [] ∧
    col (typed putchar display before).display = 0

variable {p : Page} {keys : List UInt8}

theorem hasText_prompt (h : p.BlankFromCursor) :
    (typed Page.putchar p []).display.HasText p.pos (PROMPT ++ (typed Page.putchar p []).cmd) := by
  have hempty : p.HasText p.pos [] := ⟨h, rfl, fun n hn => absurd hn (Nat.not_lt_zero n)⟩
  exact (hempty.print (c := 62) (by decide) (by decide)).print (c := 32) (by decide) (by decide)

theorem hasText_typed (h : p.BlankFromCursor) (hkeys : ∀ c ∈ keys, IsKey c)
    (hedge : ¬ EdgeBackspace Page.putchar Page.col p keys) :
    (typed Page.putchar p keys).display.HasText p.pos
      (PROMPT ++ (typed Page.putchar p keys).cmd) := by
  induction keys using List.reverseRecOn with
  | nil => exact hasText_prompt h
  | append_singleton keys c ih =>
      rw [typed_concat]
      apply hasText_edit
      · apply ih fun k hk => hkeys k (List.mem_append_left _ hk)
        rintro ⟨before, hbefore, hcmd, hcol⟩
        exact hedge ⟨before, hbefore.trans (List.prefix_append _ _), hcmd, hcol⟩
      · exact hkeys c (List.mem_append_right _ List.mem_cons_self)
      · rintro rfl hcmd hcol
        exact hedge ⟨keys, List.prefix_refl _, hcmd, hcol⟩

theorem Ahead.foldl {k : Nat} (h : s.Ahead start k) (hkeys : ∀ c ∈ keys, IsKey c) :
    (keys.foldl (ShellLine.edit Page.putchar) s).Ahead start k := by
  induction keys generalizing s with
  | nil => exact h
  | cons c keys ih =>
      exact ih (h.edit (hkeys c List.mem_cons_self)) fun k hk => hkeys k (List.mem_cons_of_mem _ hk)

theorem ahead_of_edgeBackspace (h : p.BlankFromCursor) (hkeys : ∀ c ∈ keys, IsKey c)
    (hedge : EdgeBackspace Page.putchar Page.col p keys) :
    (typed Page.putchar p keys).Ahead p.pos 1 := by
  obtain ⟨before, ⟨after, rfl⟩, hcmd, hcol⟩ := hedge
  have hprompt := hasText_prompt h
  have hstart : (typed Page.putchar p []).Ahead p.pos 0 :=
    ⟨hprompt.col_lt, Nat.le_of_eq hprompt.pos_eq.symm⟩
  have hbefore : (typed Page.putchar p before).Ahead p.pos 0 :=
    hstart.foldl fun c hc => hkeys c (by simp [hc])
  rw [typed, List.foldl_append, ← typed, typed_concat]
  exact (hbefore.edge hcmd hcol).foldl fun c hc => hkeys c (by simp [hc])

/-- **On the page.** The cursor is behind the command exactly if no backspace was typed at
    the edge, and then the page has the command. -/
theorem typed_iff (h : p.BlankFromCursor) (hkeys : ∀ c ∈ keys, IsKey c) :
    (typed Page.putchar p keys).display.pos =
        p.pos + (PROMPT ++ (typed Page.putchar p keys).cmd).length ↔
      ¬ EdgeBackspace Page.putchar Page.col p keys := by
  constructor
  · intro hpos hedge
    have hahead := (ahead_of_edgeBackspace h hkeys hedge).2
    rw [hpos, List.length_append] at hahead
    omega
  · intro hedge
    exact (hasText_typed h hkeys hedge).pos_eq

theorem length_cmd_typed (keys : List UInt8) : (typed Page.putchar p keys).cmd.length ≤ 255 := by
  induction keys using List.reverseRecOn with
  | nil => exact Nat.zero_le _
  | append_singleton keys c ih =>
      rw [typed_concat, edit]
      split_ifs
      · dsimp only
        rw [List.length_dropLast]
        omega
      · exact ih
      · dsimp only
        rw [List.length_append, List.length_singleton]
        omega
      · exact ih

/-! ## The screen -/

/-- The shell does the same on the screen and on the page. -/
theorem typed_shows {t : Terminal} (h : t.Shows p) (keys : List UInt8) :
    (typed Terminal.putchar t keys).cmd = (typed Page.putchar p keys).cmd ∧
      (typed Terminal.putchar t keys).display.Shows (typed Page.putchar p keys).display := by
  induction keys using List.reverseRecOn with
  | nil => exact ⟨rfl, h.putAll PROMPT⟩
  | append_singleton keys c ih =>
      obtain ⟨hcmd, hshows⟩ := ih
      rw [typed_concat, typed_concat, edit, edit, hcmd]
      split_ifs
      · exact ⟨rfl, hshows.putchar BACKSPACE⟩
      · exact ⟨hcmd, hshows⟩
      · exact ⟨rfl, hshows.putchar c⟩
      · exact ⟨hcmd, hshows⟩

theorem edgeBackspace_iff {t : Terminal} (h : t.Shows p) (keys : List UInt8) :
    EdgeBackspace Terminal.putchar Terminal.col t keys ↔
      EdgeBackspace Page.putchar Page.col p keys := by
  apply exists_congr
  intro before
  obtain ⟨hcmd, hshows⟩ := typed_shows h before
  rw [hcmd, hshows.col_eq]

end ShellLine

namespace Terminal

/-- The screen has the text from cell `start` on, row after row, the cursor behind it, and the
    rest of the cursor's row is blank. -/
structure ShowsText (t : Terminal) (start : Nat) (text : List UInt8) : Prop where
  cursor_eq : t.row * WIDTH + t.col = start + text.length
  text_eq : ∀ n < text.length, some (t.buffer (start + n)).toUInt8 = text[n]?
  blank_after : ∀ n ≥ start + text.length, n < (t.row + 1) * WIDTH →
    (t.buffer n).toUInt8 = BLANK

variable {t : Terminal} {p : Page} {start : Nat} {text : List UInt8}

/-- A cell of the page that is on the screen. -/
theorem Shows.cell_eq (h : t.Shows p) {n : Nat} (hn : n < HEIGHT * WIDTH) :
    (t.buffer n).toUInt8 = p.cell (p.top * WIDTH + n) := by
  have hy : n / WIDTH < HEIGHT := Nat.div_lt_of_lt_mul (by rwa [Nat.mul_comm])
  have hx : n % WIDTH < WIDTH := Nat.mod_lt _ (by decide)
  have hchar := h.charAt_eq _ hy _ hx
  rw [charAt, Nat.div_add_mod'] at hchar
  rw [hchar, Page.cell, Nat.mul_comm, Nat.mul_add_div (by decide), Nat.mul_add_mod]

theorem Shows.pos_eq (h : t.Shows p) : p.top * WIDTH + (t.row * WIDTH + t.col) = p.pos := by
  have hrow := h.row_eq
  have hcol := h.col_eq
  rw [Page.pos, ← hrow, ← hcol, Nat.add_mul]
  omega

/-- A text on the page whose first row is still on the screen. -/
theorem Shows.showsText (h : t.Shows p) (htext : p.HasText start text)
    (hstart : p.top * WIDTH ≤ start) : t.ShowsText (start - p.top * WIDTH) text := by
  have hpos := h.pos_eq
  have hend := htext.pos_eq
  have hscreen : t.row * WIDTH + t.col < HEIGHT * WIDTH := by
    have hrow := h.row_lt
    have hcol := h.col_lt
    simp only [WIDTH, HEIGHT] at *
    omega
  have hrow : (t.row + 1) * WIDTH ≤ HEIGHT * WIDTH := Nat.mul_le_mul_right _ h.row_lt
  refine ⟨by omega, fun n hn => ?_, fun n hn hn' => ?_⟩
  · rw [h.cell_eq (by omega), ← htext.text_eq n hn]
    congr 2
    omega
  · rw [h.cell_eq (by omega)]
    exact htext.cell_eq _ (by omega)

end Terminal

open ShellLine

/-- After the output `out` and the keys, the screen shows the prompt and the command, wherever
    the rows that were scrolled away since have moved them. -/
def LineShown (execute : List UInt8 → Terminal → Terminal) (t : Terminal)
    (out keys : List UInt8) : Prop :=
  let prompt := (Page.blank.putAll out).pos
  let scrolled := (typed Page.putchar (Page.blank.putAll out) keys).display.top * WIDTH
  let s := shellAfter execute (t.clear.putAll out) keys
  scrolled ≤ prompt ∧ s.display.ShowsText (prompt - scrolled) (PROMPT ++ s.cmd)

section

variable {execute : List UInt8 → Terminal → Terminal} {t : Terminal} {out keys : List UInt8}

theorem shows_out (t : Terminal) (out : List UInt8) :
    (t.clear.putAll out).Shows (Page.blank.putAll out) :=
  (Terminal.shows_clear t).putAll out

theorem LineShown.pos_eq (h : LineShown execute t out keys) (hkeys : ∀ c ∈ keys, IsKey c) :
    (typed Page.putchar (Page.blank.putAll out) keys).display.pos =
      (Page.blank.putAll out).pos +
        (PROMPT ++ (typed Page.putchar (Page.blank.putAll out) keys).cmd).length := by
  obtain ⟨hstart, htext⟩ := h
  obtain ⟨hcmd, hshows⟩ := typed_shows (shows_out t out) keys
  have hcursor := htext.cursor_eq
  rw [shellAfter_eq_typed execute _ hkeys, hcmd] at hcursor
  rw [← hshows.pos_eq, hcursor]
  omega

/-- The prompt never leaves the screen: a command has less than four rows. -/
theorem LineShown.of_hasText (hkeys : ∀ c ∈ keys, IsKey c)
    (htext : (typed Page.putchar (Page.blank.putAll out) keys).display.HasText
      (Page.blank.putAll out).pos
      (PROMPT ++ (typed Page.putchar (Page.blank.putAll out) keys).cmd)) :
    LineShown execute t out keys := by
  obtain ⟨hcmd, hshows⟩ := typed_shows (shows_out t out) keys
  have hlength := length_cmd_typed (p := Page.blank.putAll out) keys
  have hpos := htext.pos_eq
  have hstart : (typed Page.putchar (Page.blank.putAll out) keys).display.top * WIDTH ≤
      (Page.blank.putAll out).pos := by
    rw [List.length_append, Page.pos] at hpos
    simp only [Page.top, WIDTH, HEIGHT, PROMPT, List.length_cons, List.length_nil] at *
    omega
  refine ⟨hstart, ?_⟩
  rw [shellAfter_eq_typed execute _ hkeys, hcmd]
  exact hshows.showsText htext hstart

/-- **Line editing and display.** After any output and any printable keys and backspaces at a
    prompt, the screen shows the prompt and the command, wrapped at column 80, with the cursor
    behind them and the rest of its row blank, exactly if no backspace was typed with the cursor
    in the first column and the command not empty. -/
theorem lineShown_iff (execute : List UInt8 → Terminal → Terminal) (t : Terminal)
    (out : List UInt8) (hkeys : ∀ c ∈ keys, IsKey c) :
    LineShown execute t out keys ↔
      ¬ EdgeBackspace Terminal.putchar Terminal.col (t.clear.putAll out) keys := by
  have hblank := Page.blank_blankFromCursor.putAll out
  rw [edgeBackspace_iff (shows_out t out)]
  constructor
  · intro h
    exact (typed_iff hblank hkeys).mp (h.pos_eq hkeys)
  · intro hedge
    exact LineShown.of_hasText hkeys (hasText_typed hblank hkeys hedge)

end

/-- The terminal before it is cleared. -/
def uninitialized : Terminal := ⟨fun _ => 0, 0, 0⟩

/-- A character is typed and taken back. -/
theorem lineShown_typo :
    (∀ c ∈ [97, BACKSPACE], IsKey c) ∧
      LineShown (fun _ t => t) uninitialized [] [97, BACKSPACE] := by
  have hkeys : ∀ c ∈ [97, BACKSPACE], IsKey c := by
    simp only [List.mem_cons, List.not_mem_nil, or_false, forall_eq_or_imp, forall_eq]
    decide
  refine ⟨hkeys, (lineShown_iff _ _ _ hkeys).mpr ?_⟩
  rintro ⟨before, ⟨after, heq⟩, hcmd, hcol⟩
  rcases before with _ | ⟨b, _ | ⟨b', rest⟩⟩
  · exact hcmd rfl
  · obtain rfl : b = 97 := by simpa using congrArg List.head? heq
    exact absurd hcol (by decide)
  · simp at heq

/-- The command fills the row and its last character is taken back: the shell forgets it, the
    screen does not. -/
theorem lineShown_fails : ∃ (execute : List UInt8 → Terminal → Terminal) (t : Terminal)
    (out keys : List UInt8), (∀ c ∈ keys, IsKey c) ∧
      (shellAfter execute (t.clear.putAll out) keys).cmd.length = 77 ∧
      ¬ LineShown execute t out keys := by
  have hkeys : ∀ c ∈ List.replicate 78 97 ++ [BACKSPACE], IsKey c := by
    intro c hc
    rcases List.mem_append.mp hc with hc | hc
    · rw [List.eq_of_mem_replicate hc]
      decide
    · rw [List.mem_singleton.mp hc]
      decide
  refine ⟨fun _ t => t, uninitialized, [], _, hkeys, by decide +kernel, fun h => ?_⟩
  exact absurd (h.pos_eq hkeys) (by decide +kernel)

end NemoOS
