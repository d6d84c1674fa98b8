import Mathlib

/-!
# An ATA channel with programmed input

One channel of an ATA controller, seen through its registers: up to two drives, of which one is
selected, the registers of the next command and the phase of the last one. After a command the
drive shows a number of status bytes, as many and which ones is up to the drive, and then has a
block of words to be read, or an error. Only the two commands that transfer a block to the host
are here.
-/

namespace Ata

/-- A block of 256 words. -/
abbrev Block := List.Vector UInt16 256

/-- What a drive answers to the command that identifies it, which a packet device refuses, and
    its sectors, of which some may be unreadable. -/
structure Drive where
  identity : Option Block
  sector : Nat → Option Block

/-- After a command: the status bytes the drive will show, then the words it has or an error. -/
inductive Phase where
  | idle
  | busy (statuses : List UInt8) (answer : Option Block)
  | transfer (words : List UInt16)
  | failed

/-- What the selected drive shows: it is ready, and has data or an error once it has shown its
    status bytes. -/
def Phase.status : Phase → UInt8
  | .idle => 0x50
  | .busy (s :: _) _ => s
  | .busy [] (some _) => 0x58
  | .busy [] none => 0x51
  | .transfer _ => 0x58
  | .failed => 0x51

/-- Reading the status lets the drive go on. -/
def Phase.next : Phase → Phase
  | .busy (_ :: statuses) answer => .busy statuses answer
  | .busy [] (some words) => .transfer words.toList
  | .busy [] none => .failed
  | phase => phase

/-- `absent` is the status that is read where the selected drive does not exist. -/
structure Channel where
  master : Option Drive
  slave : Option Drive
  absent : UInt8
  drive : UInt8
  sectors : UInt8
  lbaLow : UInt8
  lbaMid : UInt8
  lbaHigh : UInt8
  phase : Phase
  delays : Nat → List UInt8

namespace Channel

def driveOf (c : Channel) (master : Bool) : Option Drive := if master then c.master else c.slave

def selected (c : Channel) : Option Drive := c.driveOf (c.drive &&& 0x10 = 0)

def lba (c : Channel) : Nat :=
  c.lbaLow.toNat + 2 ^ 8 * c.lbaMid.toNat + 2 ^ 16 * c.lbaHigh.toNat +
    2 ^ 24 * (c.drive &&& 0x0F).toNat

def status (c : Channel) : UInt8 := if c.selected.isSome then c.phase.status else c.absent

def statusRead (c : Channel) : Channel :=
  if c.selected.isSome then { c with phase := c.phase.next } else c

def readReg (c : Channel) : Nat → UInt8 × Channel
  | 4 => (c.lbaMid, c)
  | 5 => (c.lbaHigh, c)
  | 7 => (c.status, c.statusRead)
  | _ => (0, c)

/-- A command that ends with a block for the host, or an error. -/
def start (c : Channel) (answer : Option Block) : Channel :=
  { c with phase := .busy (c.delays 0) answer, delays := fun n => c.delays (n + 1) }

/-- A packet device leaves its signature in the registers. -/
def signature (c : Channel) : Channel := { c with lbaMid := 0x14, lbaHigh := 0xEB }

def command (c : Channel) (v : UInt8) : Channel :=
  match c.selected with
  | none => c
  | some d =>
      if v = 0x20 then c.start (d.sector c.lba)
      else if v = 0xEC then
        (if d.identity.isSome then c else c.signature).start d.identity
      else c

def writeReg (c : Channel) (v : UInt8) : Nat → Channel
  | 2 => { c with sectors := v }
  | 3 => { c with lbaLow := v }
  | 4 => { c with lbaMid := v }
  | 5 => { c with lbaHigh := v }
  | 6 => { c with drive := v }
  | 7 => c.command v
  | _ => c

/-- The last word ends the transfer. -/
def readData (c : Channel) : UInt16 × Channel :=
  match c.phase with
  | .transfer [w] => (w, { c with phase := .idle })
  | .transfer (w :: words) => (w, { c with phase := .transfer words })
  | _ => (0xFFFF, c)

/-! ## What a drive shows

`Gives answer n` is the state of a drive that has been given a command and will answer it after
at most `n` more status bytes.
-/

/-- Bytes that a drive may show before its answer is there: not all bits clear, and neither
    data nor an error is announced. -/
def Clean (statuses : List UInt8) : Prop :=
  ∀ s ∈ statuses, s ≠ 0 ∧ s &&& 0x08 = 0 ∧ s &&& 0x01 = 0

end Channel

namespace Phase

open Channel

def Gives (answer : Option Block) (n : Nat) : Phase → Prop
  | .idle => False
  | .busy statuses a => a = answer ∧ Clean statuses ∧ statuses.length ≤ n
  | .transfer words => ∃ block, answer = some block ∧ words = block.toList
  | .failed => answer = none

/-- When the answer has been announced. -/
def answered : Option Block → Phase
  | some block => .transfer block.toList
  | none => .failed

/-- A status byte less. -/
theorem Gives.next {answer : Option Block} {n : Nat} {p : Phase} (h : p.Gives answer n) :
    p.next.Gives answer (n - 1) := by
  cases p with
  | idle => exact h
  | transfer words => exact h
  | failed => exact h
  | busy statuses a =>
      obtain ⟨rfl, hclean, hlen⟩ := h
      cases statuses with
      | nil => cases a <;> simp [Phase.next, Gives]
      | cons s statuses =>
          refine ⟨rfl, fun t ht => hclean t (List.mem_cons_of_mem s ht), ?_⟩
          simp only [List.length_cons] at hlen
          omega

theorem Gives.mono {answer : Option Block} {m n : Nat} {p : Phase} (h : p.Gives answer m)
    (hmn : m ≤ n) : p.Gives answer n := by
  cases p with
  | busy statuses a => exact ⟨h.1, h.2.1, h.2.2.trans hmn⟩
  | _ => exact h

/-- A drive that answers never shows a status of zeros. -/
theorem Gives.status_ne_zero {answer : Option Block} {n : Nat} {p : Phase}
    (h : p.Gives answer n) : p.status ≠ 0 := by
  cases p with
  | idle => exact h.elim
  | transfer words => simp [Phase.status]
  | failed => simp [Phase.status]
  | busy statuses a =>
      cases statuses with
      | nil => cases a <;> simp [Phase.status]
      | cons s statuses => exact (h.2.1 s List.mem_cons_self).1

/-- Once data is announced it is there. -/
theorem Gives.data {answer : Option Block} {n : Nat} {p : Phase} (h : p.Gives answer n)
    (hdrq : p.status &&& 0x08 ≠ 0) : answer.isSome ∧ p.next = answered answer := by
  cases p with
  | idle => exact h.elim
  | transfer words =>
      obtain ⟨block, rfl, rfl⟩ := h
      exact ⟨rfl, rfl⟩
  | failed => exact absurd (by decide) hdrq
  | busy statuses a =>
      obtain ⟨rfl, hclean, -⟩ := h
      cases statuses with
      | cons s statuses => exact absurd (hclean s List.mem_cons_self).2.1 hdrq
      | nil =>
          cases a with
          | none => exact absurd (by decide) hdrq
          | some block => exact ⟨rfl, rfl⟩

/-- Once an error is announced the command has failed. -/
theorem Gives.error {answer : Option Block} {n : Nat} {p : Phase} (h : p.Gives answer n)
    (herr : p.status &&& 0x01 ≠ 0) : answer = none ∧ p.next = .failed := by
  cases p with
  | idle => exact h.elim
  | transfer words => exact absurd (show (0x58 : UInt8) &&& 0x01 = 0 by decide) herr
  | failed => exact ⟨h, rfl⟩
  | busy statuses a =>
      obtain ⟨rfl, hclean, -⟩ := h
      cases statuses with
      | cons s statuses => exact absurd (hclean s List.mem_cons_self).2.2 herr
      | nil =>
          cases a with
          | none => exact ⟨rfl, rfl⟩
          | some block => exact absurd (show (0x58 : UInt8) &&& 0x01 = 0 by decide) herr

/-- With no status bytes to come the answer is announced. -/
theorem Gives.announced {answer : Option Block} {p : Phase} (h : p.Gives answer 0) :
    p.status = if answer.isSome then 0x58 else 0x51 := by
  cases p with
  | idle => exact h.elim
  | transfer words =>
      obtain ⟨block, rfl, -⟩ := h
      rfl
  | failed =>
      cases h
      rfl
  | busy statuses a =>
      obtain ⟨rfl, -, hlen⟩ := h
      obtain rfl := List.length_eq_zero_iff.mp (Nat.le_zero.mp hlen)
      cases a <;> rfl

/-- Between commands. -/
def Settled (p : Phase) : Prop := p = .idle ∨ p = .failed

theorem Settled.next {p : Phase} (h : p.Settled) : p.next = p := by
  obtain rfl | rfl := h <;> rfl

theorem Settled.not_busy {p : Phase} (h : p.Settled) : p.status &&& 0x80 = 0 := by
  obtain rfl | rfl := h <;> decide

end Phase

namespace Channel

/-! ## The channel -/

theorem selected_eq {c : Channel} {master : Bool} (h : decide (c.drive &&& 0x10 = 0) = master) :
    c.selected = c.driveOf master := by
  rw [selected, h]

theorem status_of_selected {c : Channel} (h : c.selected.isSome) : c.status = c.phase.status :=
  if_pos h

theorem statusRead_of_selected {c : Channel} (h : c.selected.isSome) :
    c.statusRead = { c with phase := c.phase.next } := if_pos h

theorem status_of_absent {c : Channel} (h : c.selected = none) : c.status = c.absent := by
  simp [status, h]

theorem statusRead_of_absent {c : Channel} (h : c.selected = none) : c.statusRead = c := by
  simp [statusRead, h]

theorem statusRead_of_settled {c : Channel} (h : c.phase.Settled) : c.statusRead = c := by
  unfold statusRead
  split
  · rw [h.next]
  · rfl

theorem readData_last (c : Channel) (w : UInt16) :
    { c with phase := .transfer [w] }.readData = (w, { c with phase := .idle }) := rfl

theorem readData_more (c : Channel) (w w' : UInt16) (words : List UInt16) :
    { c with phase := .transfer (w :: w' :: words) }.readData =
      (w, { c with phase := .transfer (w' :: words) }) := rfl

/-- All delays to come are clean and no longer than `bound`. -/
def Prompt (c : Channel) (bound : Nat) : Prop :=
  ∀ n, Clean (c.delays n) ∧ (c.delays n).length ≤ bound

theorem Prompt.start {c : Channel} {bound : Nat} (h : c.Prompt bound) (answer : Option Block) :
    (c.start answer).Prompt bound := fun n => h (n + 1)

theorem Prompt.gives {c : Channel} {bound : Nat} (h : c.Prompt bound) (answer : Option Block) :
    (c.start answer).phase.Gives answer bound := ⟨rfl, h 0⟩

/-- The same drives. -/
structure SameDrives (c c' : Channel) : Prop where
  master_eq : c'.master = c.master
  slave_eq : c'.slave = c.slave
  absent_eq : c'.absent = c.absent

theorem SameDrives.refl (c : Channel) : SameDrives c c := ⟨rfl, rfl, rfl⟩

theorem SameDrives.trans {c c' c'' : Channel} (h : SameDrives c c') (h' : SameDrives c' c'') :
    SameDrives c c'' :=
  ⟨h'.master_eq.trans h.master_eq, h'.slave_eq.trans h.slave_eq, h'.absent_eq.trans h.absent_eq⟩

theorem SameDrives.driveOf {c c' : Channel} (h : SameDrives c c') (master : Bool) :
    c'.driveOf master = c.driveOf master := by
  simp [Channel.driveOf, h.master_eq, h.slave_eq]

end Channel

end Ata
