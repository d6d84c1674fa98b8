import Mathlib
import NemoOS.AtaDriver

/-!
# Waiting for a drive and identifying it

The polling loops over a drive that takes its time, and `ata_identify` over a channel with and
without the drive it asks for.
-/

namespace NemoOS

open Ata

namespace AtaBus

/-! ## Waiting -/

section Waiting

variable {base : Nat} (h : IoBase base) (b : AtaBus) {c : Channel}

include h

theorem ataWaitBsyLoop_ready (hready : c.status &&& ATA_STATUS_BSY = 0) (timeout : Nat) :
    ataWaitBsyLoop base (timeout + 1) (b.setChannel base c) =
      (0, b.setChannel base c.statusRead) := by
  simp [ataWaitBsyLoop, inb_status h, hready]

/-- A drive that will answer within the counter is waited for. -/
theorem ataWaitBsyLoop_gives (hsel : c.selected.isSome) {answer : Option Block} {n timeout : Nat}
    (hn : n ≤ timeout) (hg : c.phase.Gives answer n) :
    ∃ p : Phase, p.Gives answer n ∧
      ataWaitBsyLoop base (timeout + 1) (b.setChannel base c) =
        (0, b.setChannel base { c with phase := p }) := by
  induction timeout generalizing c n with
  | zero =>
      obtain rfl := Nat.le_zero.mp hn
      refine ⟨c.phase.next, hg.next, ?_⟩
      rw [ataWaitBsyLoop_ready h b _ 0, Channel.statusRead_of_selected hsel]
      rw [Channel.status_of_selected hsel, hg.announced]
      split <;> decide
  | succ timeout ih =>
      by_cases hbusy : c.status &&& ATA_STATUS_BSY = 0
      · refine ⟨c.phase.next, hg.next.mono (Nat.sub_le n 1), ?_⟩
        rw [ataWaitBsyLoop_ready h b hbusy, Channel.statusRead_of_selected hsel]
      · have hstep : ataWaitBsyLoop base (timeout + 1 + 1) (b.setChannel base c) =
            ataWaitBsyLoop base (timeout + 1)
              (b.setChannel base { c with phase := c.phase.next }) := by
          rw [ataWaitBsyLoop]
          simp [inb_status h, hbusy, Channel.statusRead_of_selected hsel]
        have hsel' : { c with phase := c.phase.next }.selected.isSome := hsel
        obtain ⟨p, hp, hloop⟩ := ih hsel' (by omega) hg.next
        exact ⟨p, hp.mono (Nat.sub_le n 1), hstep.trans hloop⟩

/-- **Waiting for data.** The loop reads the status at most twice for each count, so that it
    outlasts a drive that shows twice as many status bytes. -/
theorem ataWaitDrqLoop_gives (hsel : c.selected.isSome) {answer : Option Block} {n timeout : Nat}
    (hn : n ≤ 2 * timeout) (hg : c.phase.Gives answer n) :
    ataWaitDrqLoop base (timeout + 1) (b.setChannel base c) =
      (if answer.isSome then 0 else -1,
        b.setChannel base { c with phase := Phase.answered answer }) := by
  induction timeout generalizing c n with
  | zero =>
      obtain rfl := Nat.le_zero.mp hn
      rw [ataWaitDrqLoop]
      simp only [inb_status h, Channel.statusRead_of_selected hsel,
        Channel.status_of_selected hsel]
      cases answer with
      | some block =>
          have hstatus : c.phase.status = 0x58 := hg.announced
          have hdrq : c.phase.status &&& ATA_STATUS_DRQ ≠ 0 := by rw [hstatus]; decide
          simp [hdrq, (hg.data hdrq).2]
      | none =>
          have hstatus : c.phase.status = 0x51 := hg.announced
          have herr : c.phase.status &&& ATA_STATUS_ERR ≠ 0 := by rw [hstatus]; decide
          have hdrq : c.phase.status &&& ATA_STATUS_DRQ = 0 := by rw [hstatus]; decide
          simp [hdrq, (hg.error herr).2, Phase.answered]
  | succ timeout ih =>
      rw [ataWaitDrqLoop]
      simp only [inb_status h, Channel.statusRead_of_selected hsel,
        Channel.status_of_selected hsel]
      by_cases hdrq : c.phase.status &&& ATA_STATUS_DRQ = 0
      · have hsel' : { c with phase := c.phase.next }.selected.isSome := hsel
        simp only [Channel.statusRead_of_selected hsel', Channel.status_of_selected hsel']
        by_cases herr : c.phase.next.status &&& ATA_STATUS_ERR = 0
        · have hsel'' : { c with phase := c.phase.next.next }.selected.isSome := hsel
          simpa [hdrq, herr] using ih hsel'' (by omega) hg.next.next
        · obtain ⟨rfl, hnext⟩ := hg.next.error herr
          simp [hdrq, herr, hnext, Phase.answered]
      · obtain ⟨hsome, hnext⟩ := hg.data hdrq
        simp [hdrq, hsome, hnext]

theorem ataWaitDrq_gives (hsel : c.selected.isSome) {answer : Option Block}
    (hg : c.phase.Gives answer ATA_TIMEOUT) :
    (b.setChannel base c).ataWaitDrq base =
      (if answer.isSome then 0 else -1,
        b.setChannel base { c with phase := Phase.answered answer }) :=
  ataWaitDrqLoop_gives h b hsel (by decide : ATA_TIMEOUT ≤ 2 * 9999999) hg

/-- Where there is no drive nothing changes while waiting. -/
theorem ataWaitBsyLoop_absent (hsel : c.selected = none) (timeout : Nat) :
    (ataWaitBsyLoop base timeout (b.setChannel base c)).2 = b.setChannel base c := by
  induction timeout with
  | zero => rfl
  | succ timeout ih =>
      rw [ataWaitBsyLoop]
      simp only [inb_status h, Channel.statusRead_of_absent hsel]
      split
      · rfl
      · exact ih

theorem ataWaitBsyLoop_floating (hsel : c.selected = none)
    (hbusy : c.absent &&& ATA_STATUS_BSY ≠ 0) (timeout : Nat) :
    ataWaitBsyLoop base timeout (b.setChannel base c) = (-1, b.setChannel base c) := by
  induction timeout with
  | zero => rfl
  | succ timeout ih =>
      rw [ataWaitBsyLoop]
      simp only [inb_status h, Channel.statusRead_of_absent hsel,
        Channel.status_of_absent hsel, if_neg hbusy, ih]

theorem ataWaitDrqLoop_absent (hsel : c.selected = none)
    (hdrq : c.absent &&& ATA_STATUS_DRQ = 0) (timeout : Nat) :
    ataWaitDrqLoop base timeout (b.setChannel base c) = (-1, b.setChannel base c) := by
  induction timeout with
  | zero => rfl
  | succ timeout ih =>
      rw [ataWaitDrqLoop]
      simp only [inb_status h, Channel.statusRead_of_absent hsel,
        Channel.status_of_absent hsel, hdrq, ih]
      simp

/-- The words of a transfer, to the last one. -/
theorem readWords_transfer (words : List UInt16) (hne : words ≠ []) :
    readWords base words.length (b.setChannel base { c with phase := .transfer words }) =
      (words, b.setChannel base { c with phase := .idle }) := by
  induction words with
  | nil => exact absurd rfl hne
  | cons w words ih =>
      cases words with
      | nil => simp [readWords, inw_data h, Channel.readData_last]
      | cons w' words =>
          rw [List.length_cons, readWords, inw_data h, Channel.readData_more,
            ih (List.cons_ne_nil w' words)]

end Waiting

/-! ## A controller that behaves -/

/-- A channel between commands, whose drives answer within the driver's counter. Where a drive
    is missing the bus floats or no data is announced. -/
structure ReadyChannel (c : Channel) : Prop where
  settled : c.phase.Settled
  prompt : c.Prompt ATA_TIMEOUT
  absent_status : c.absent = 0xFF ∨ c.absent &&& ATA_STATUS_DRQ = 0

/-- With other register contents. -/
theorem ReadyChannel.congr {c c' : Channel} (h : ReadyChannel c) (hsame : c.SameDrives c')
    (hphase : c'.phase.Settled) (hprompt : c'.Prompt ATA_TIMEOUT) : ReadyChannel c' where
  settled := hphase
  prompt := hprompt
  absent_status := by rw [hsame.absent_eq]; exact h.absent_status

def Ready (b : AtaBus) : Prop := ReadyChannel b.primary ∧ ReadyChannel b.secondary

theorem Ready.channel {b : AtaBus} (h : b.Ready) (base : Nat) : ReadyChannel (b.channel base) := by
  unfold AtaBus.channel
  split
  · exact h.1
  · exact h.2

theorem Ready.setChannel {b : AtaBus} (h : b.Ready) (base : Nat) {c : Channel}
    (hc : ReadyChannel c) : (b.setChannel base c).Ready := by
  unfold AtaBus.setChannel
  split
  · exact ⟨hc, h.2⟩
  · exact ⟨h.1, hc⟩

/-- Polling the control port of the primary channel changes nothing between commands. -/
theorem ataPoll_of_settled {b : AtaBus} (h : b.primary.phase.Settled) : b.ataPoll = b := by
  have hread : (b.inb ATA_PRIMARY_CTRL).2 = b := by
    have hdecode : decodeIn ATA_PRIMARY_CTRL = some ( ATA_PRIMARY_IO, 7) := rfl
    have hstatus : b.primary.statusRead = b.primary := Channel.statusRead_of_settled h
    simp [inb, hdecode, AtaBus.channel, AtaBus.setChannel, Channel.readReg, hstatus]
  simp [ataPoll, List.range_succ, hread]

/-! ## Identifying a drive -/

theorem identifyByte (master : Bool) :
    decide ((if master then 0xA0 else 0xB0 : UInt8) &&& 0x10 = 0) = master := by
  cases master <;> decide

/-- The registers `ata_identify` clears. -/
def cleared (c : Channel) (master : Bool) : Channel :=
  { c with
    drive := if master then 0xA0 else 0xB0, sectors := 0, lbaLow := 0, lbaMid := 0, lbaHigh := 0 }

@[simp] theorem selected_cleared (c : Channel) (master : Bool) :
    (cleared c master).selected = c.driveOf master := Channel.selected_eq (identifyByte master)

/-- What `ata_identify` makes of a channel: the drive is described, or the call fails. -/
structure Identified (b : AtaBus) (base : Nat) (master : Bool)
    (r : (Int × AtaDev) × AtaBus) : Prop where
  found : ∀ block, ((b.channel base).driveOf master).bind Drive.identity = some block →
    r.1 = (0, describe base master block.toList)
  not_found : ((b.channel base).driveOf master).bind Drive.identity = none → r.1.1 ≠ 0
  next : ∃ c', (b.channel base).SameDrives c' ∧ ReadyChannel c' ∧
    c'.selected = (b.channel base).driveOf master ∧ r.2 = b.setChannel base c'

/-- The answer to the command is awaited and read. -/
theorem identifyAnswer_gives {base : Nat} (h : IoBase base) (b : AtaBus) {c : Channel}
    (master : Bool) (dev : AtaDev) (hsel : c.selected.isSome) {answer : Option Block}
    (hg : c.phase.Gives answer ATA_TIMEOUT) :
    ∃ p : Phase, p.Settled ∧
      ((b.setChannel base c).identifyAnswer base master dev).2 =
        b.setChannel base { c with phase := p } ∧
      (∀ block, answer = some block →
        ((b.setChannel base c).identifyAnswer base master dev).1 =
          (0, describe base master block.toList)) ∧
      (answer = none → ((b.setChannel base c).identifyAnswer base master dev).1.1 ≠ 0) := by
  have hsel' : { c with phase := c.phase.next }.selected.isSome := hsel
  unfold identifyAnswer
  simp only [inb_status h, Channel.statusRead_of_selected hsel, Channel.status_of_selected hsel]
  by_cases herr : c.phase.status &&& ATA_STATUS_ERR = 0
  · simp only [herr, ataWaitDrq_gives h b hsel' (hg.next.mono (Nat.sub_le ATA_TIMEOUT 1))]
    cases answer with
    | none => exact ⟨.failed, .inr rfl, by simp [Phase.answered], by simp, by simp⟩
    | some block =>
        have hne : block.toList ≠ [] := by
          intro hnil
          simpa [hnil] using block.toList_length
        have hwords := readWords_transfer h b (c := c) block.toList hne
        rw [block.toList_length] at hwords
        exact ⟨.idle, .inl rfl, by simp [Phase.answered, hwords],
          by simp [Phase.answered, hwords], by simp⟩
  · obtain ⟨rfl, hnext⟩ := hg.error herr
    refine ⟨.failed, .inr rfl, ?_, by simp, ?_⟩ <;>
      simp only [herr, hnext, ne_eq, not_false_eq_true, if_true,
        inb_add h b _ (show ATA_REG_LBA_MID < 8 by decide),
        inb_add h b _ (show ATA_REG_LBA_HIGH < 8 by decide)] <;>
      split <;> simp [Channel.readReg, ATA_REG_LBA_MID, ATA_REG_LBA_HIGH]

/-- The channel with a drive selected. -/
def select (c : Channel) (master : Bool) : Channel :=
  { c with drive := if master then 0xA0 else 0xB0 }

@[simp] theorem selected_select (c : Channel) (master : Bool) :
    (select c master).selected = c.driveOf master := Channel.selected_eq (identifyByte master)

theorem ReadyChannel.select {c : Channel} (h : ReadyChannel c) (master : Bool) :
    ReadyChannel (select c master) :=
  h.congr ⟨rfl, rfl, rfl⟩ h.settled h.prompt

theorem ReadyChannel.cleared {c : Channel} (h : ReadyChannel c) (master : Bool) :
    ReadyChannel (cleared c master) :=
  h.congr ⟨rfl, rfl, rfl⟩ h.settled h.prompt

/-- `ata_identify` up to the answer, on the channel. -/
theorem ataIdentify_eq {base : Nat} (h : IoBase base) {b : AtaBus} (hb : b.Ready) (master : Bool)
    (dev : AtaDev) {c₁ c₂ : Channel} (h₁ : c₁ = select (b.channel base) master)
    (h₂ : c₂ = (cleared (b.channel base) master).command ATA_CMD_IDENTIFY) :
    b.ataIdentify base master dev =
      if c₁.status = 0xFF then ((-1, dev), b.setChannel base c₁)
      else if c₂.status = 0 then ((-1, dev), b.setChannel base c₂.statusRead)
      else if ((b.setChannel base c₂.statusRead).ataWaitBsy base).1 < 0 then
        ((-1, dev), ((b.setChannel base c₂.statusRead).ataWaitBsy base).2)
      else
        ((b.setChannel base c₂.statusRead).ataWaitBsy base).2.identifyAnswer base master dev := by
  have hready : ReadyChannel c₁ := h₁ ▸ (hb.channel base).select master
  have hselect : b.outb (base + ATA_REG_DRIVE) (if master then 0xA0 else 0xB0) =
      b.setChannel base c₁ := by
    have hout := outb_add h b (b.channel base) (show ATA_REG_DRIVE < 8 by decide)
      (if master then 0xA0 else 0xB0)
    rw [setChannel_channel] at hout
    rw [hout, h₁]
    rfl
  have hpoll : (b.setChannel base c₁).ataPoll = b.setChannel base c₁ :=
    ataPoll_of_settled (hb.setChannel base hready).1.settled
  have hcommand : (((((b.setChannel base c₁).outb (base + ATA_REG_SECTORS) 0).outb
      (base + ATA_REG_LBA_LOW) 0).outb (base + ATA_REG_LBA_MID) 0).outb
      (base + ATA_REG_LBA_HIGH) 0).outb (base + ATA_REG_COMMAND) ATA_CMD_IDENTIFY =
      b.setChannel base c₂ := by
    rw [outb_add h b _ (by decide), outb_add h b _ (by decide), outb_add h b _ (by decide),
      outb_add h b _ (by decide), outb_add h b _ (by decide), h₁, h₂]
    rfl
  unfold ataIdentify
  simp only [hselect, hpoll, inb_status h, Channel.statusRead_of_settled hready.settled, hcommand]

/-- Where there is no drive none is found. -/
theorem identified_of_absent {base : Nat} (h : IoBase base) {b : AtaBus} (hb : b.Ready)
    (master : Bool) (dev : AtaDev) (hnone : (b.channel base).driveOf master = none) :
    Identified b base master (b.ataIdentify base master dev) := by
  have hready := hb.channel base
  have hsel : (select (b.channel base) master).selected = none := by simpa using hnone
  have hsel₂ : (cleared (b.channel base) master).selected = none := by simpa using hnone
  have hcommand : (cleared (b.channel base) master).command ATA_CMD_IDENTIFY =
      cleared (b.channel base) master := by simp [Channel.command, hnone]
  have hloop := ataWaitBsyLoop_absent h b hsel₂ ATA_TIMEOUT
  have hwait : ((b.setChannel base (cleared (b.channel base) master)).ataWaitBsy base).2 =
      b.setChannel base (cleared (b.channel base) master) := hloop
  have hkept : ∃ c', (b.channel base).SameDrives c' ∧ ReadyChannel c' ∧
      c'.selected = (b.channel base).driveOf master ∧
      b.setChannel base (cleared (b.channel base) master) = b.setChannel base c' :=
    ⟨cleared (b.channel base) master, ⟨rfl, rfl, rfl⟩, hready.cleared master,
      selected_cleared _ master, rfl⟩
  have heq := ataIdentify_eq h hb master dev rfl hcommand.symm
  rw [Channel.status_of_absent hsel, Channel.statusRead_of_absent hsel₂, hwait] at heq
  by_cases hfloat : (select (b.channel base) master).absent = 0xFF
  · rw [if_pos hfloat] at heq
    rw [heq]
    exact ⟨by simp [hnone], by simp, select (b.channel base) master, ⟨rfl, rfl, rfl⟩,
      hready.select master, selected_select _ master, rfl⟩
  · have hdrq := hready.absent_status.resolve_left hfloat
    rw [if_neg hfloat] at heq
    rw [heq]
    split
    · exact ⟨by simp [hnone], by simp, hkept⟩
    · split
      · exact ⟨by simp [hnone], by simp, hkept⟩
      · -- the status is taken for that of a drive, but no data is ever announced
        unfold identifyAnswer
        have hdrqWait := ataWaitDrqLoop_absent h b hsel₂ hdrq ATA_TIMEOUT
        simp only [inb_status h, Channel.statusRead_of_absent hsel₂, ataWaitDrq, hdrqWait,
          inb_add h b _ (show ATA_REG_LBA_MID < 8 by decide),
          inb_add h b _ (show ATA_REG_LBA_HIGH < 8 by decide)]
        split
        · split <;> exact ⟨by simp [hnone], by simp, hkept⟩
        · exact ⟨by simp [hnone], by simp, hkept⟩

/-- A drive that is there is asked for its description. -/
theorem identified_of_drive {base : Nat} (h : IoBase base) {b : AtaBus} (hb : b.Ready)
    (master : Bool) (dev : AtaDev) {d : Drive} (hd : (b.channel base).driveOf master = some d) :
    Identified b base master (b.ataIdentify base master dev) := by
  have hready := hb.channel base
  obtain ⟨c, hc, hstart⟩ : ∃ c : Channel, (b.channel base).SameDrives c ∧
      (cleared (b.channel base) master).command ATA_CMD_IDENTIFY = c.start d.identity ∧
      c.selected = (b.channel base).driveOf master ∧ c.Prompt ATA_TIMEOUT := by
    refine ⟨if d.identity.isSome then cleared (b.channel base) master
      else (cleared (b.channel base) master).signature, ?_, ?_, ?_, ?_⟩
    · split <;> exact ⟨rfl, rfl, rfl⟩
    · simp [Channel.command, hd, ATA_CMD_IDENTIFY]
    · split <;> exact selected_cleared _ master
    · split <;> exact hready.prompt
  obtain ⟨hcommand, hselected, hprompt⟩ := hstart
  have hsel : c.selected.isSome := by simp [hselected, hd]
  have hsel₁ : (select (b.channel base) master).selected.isSome := by simp [hd]
  have hsel₂ : (c.start d.identity).selected.isSome := hsel
  have hfloat : (select (b.channel base) master).status ≠ 0xFF := by
    rw [Channel.status_of_selected hsel₁]
    obtain hidle | hfailed := hready.settled
    · simp [select, hidle, Phase.status]
    · simp [select, hfailed, Phase.status]
  have hg := hprompt.gives d.identity
  have hzero : (c.start d.identity).status ≠ 0 := by
    rw [Channel.status_of_selected hsel₂]
    exact hg.status_ne_zero
  have hread := Channel.statusRead_of_selected hsel₂
  have hsel₃ : (c.start d.identity).statusRead.selected.isSome := by rw [hread]; exact hsel
  have hg₃ : (c.start d.identity).statusRead.phase.Gives d.identity 9999999 := by
    rw [hread]; exact hg.next
  obtain ⟨p, hp, hwait⟩ := ataWaitBsyLoop_gives h b hsel₃ (Nat.le_refl 9999999) hg₃
  have hwait' : (b.setChannel base (c.start d.identity).statusRead).ataWaitBsy base =
      (0, b.setChannel base { (c.start d.identity).statusRead with phase := p }) := hwait
  have hsel₄ : { (c.start d.identity).statusRead with phase := p }.selected.isSome := hsel₃
  obtain ⟨q, hq, hbus, hfound, hnot⟩ := identifyAnswer_gives h b master dev hsel₄
    (hp.mono (by decide : 9999999 ≤ ATA_TIMEOUT))
  have heq := ataIdentify_eq h hb master dev rfl hcommand.symm
  rw [if_neg hfloat, if_neg hzero, hwait'] at heq
  simp only [lt_irrefl, if_false] at heq
  have hsame : (b.channel base).SameDrives
      { (c.start d.identity).statusRead with phase := q } := by
    rw [hread]
    exact ⟨hc.master_eq, hc.slave_eq, hc.absent_eq⟩
  have hprompt' : { (c.start d.identity).statusRead with phase := q }.Prompt ATA_TIMEOUT := by
    rw [hread]
    exact hprompt.start d.identity
  rw [heq]
  have hselected' : { (c.start d.identity).statusRead with phase := q }.selected =
      (b.channel base).driveOf master := by
    rw [hread]
    exact hselected
  refine ⟨?_, ?_, _, hsame, hready.congr hsame hq hprompt', hselected', hbus⟩
  · intro block hblock
    exact hfound block (by simpa [hd] using hblock)
  · intro hnone
    exact hnot (by simpa [hd] using hnone)

/-- **`ata_identify`.** -/
theorem ataIdentify_spec {base : Nat} (h : IoBase base) {b : AtaBus} (hb : b.Ready)
    (master : Bool) (dev : AtaDev) :
    Identified b base master (b.ataIdentify base master dev) := by
  cases hd : (b.channel base).driveOf master with
  | none => exact identified_of_absent h hb master dev hd
  | some d => exact identified_of_drive h hb master dev hd

end AtaBus

end NemoOS
