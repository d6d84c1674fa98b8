import Mathlib
import NemoOS.Fat32
import NemoOS.Lib.AtaChannel

/-!
# The ATA driver

The functions of `drivers/ata.cpp` over the ports of a controller with two channels. The driver
polls: `ata_wait_bsy` and `ata_wait_drq` read the status until a bit changes or their counter
has run down. The second reads the status twice in a round and looks for data in the first and
for an error in the second reading only.

`ata_write_sector` is not here: it has no caller, and it gives the drive the command to read
right before the one to write.
-/

namespace NemoOS

open Ata

def ATA_PRIMARY_IO : Nat := 0x1F0
def ATA_PRIMARY_CTRL : Nat := 0x3F6
def ATA_SECONDARY_IO : Nat := 0x170
def ATA_SECONDARY_CTRL : Nat := 0x376

def ATA_REG_DATA : Nat := 0
def ATA_REG_SECTORS : Nat := 2
def ATA_REG_LBA_LOW : Nat := 3
def ATA_REG_LBA_MID : Nat := 4
def ATA_REG_LBA_HIGH : Nat := 5
def ATA_REG_DRIVE : Nat := 6
def ATA_REG_COMMAND : Nat := 7
def ATA_REG_STATUS : Nat := 7

def ATA_CMD_READ : UInt8 := 0x20
def ATA_CMD_IDENTIFY : UInt8 := 0xEC

def ATA_STATUS_ERR : UInt8 := 0x01
def ATA_STATUS_DRQ : UInt8 := 0x08
def ATA_STATUS_BSY : UInt8 := 0x80

def ATA_TIMEOUT : Nat := 10000000

/-- An `ata_device`. -/
structure AtaDev where
  base : Nat
  ctrl : Nat
  present : Bool
  isMaster : Bool
  model : List UInt8
  sectors : UInt32
deriving DecidableEq

structure AtaBus where
  primary : Channel
  secondary : Channel

namespace AtaBus

/-! ## Ports -/

def channel (b : AtaBus) (base : Nat) : Channel :=
  if base = ATA_PRIMARY_IO then b.primary else b.secondary

def setChannel (b : AtaBus) (base : Nat) (c : Channel) : AtaBus :=
  if base = ATA_PRIMARY_IO then { b with primary := c } else { b with secondary := c }

/-- The channel and the register at a port. -/
def decode (port : Nat) : Option (Nat × Nat) :=
  if ATA_PRIMARY_IO ≤ port ∧ port < ATA_PRIMARY_IO + 8 then
    some ( ATA_PRIMARY_IO, port - ATA_PRIMARY_IO)
  else if ATA_SECONDARY_IO ≤ port ∧ port < ATA_SECONDARY_IO + 8 then
    some ( ATA_SECONDARY_IO, port - ATA_SECONDARY_IO)
  else none

/-- Where a reading comes from: the control port shows the status as well. -/
def decodeIn (port : Nat) : Option (Nat × Nat) :=
  if port = ATA_PRIMARY_CTRL then some ( ATA_PRIMARY_IO, ATA_REG_STATUS)
  else if port = ATA_SECONDARY_CTRL then some ( ATA_SECONDARY_IO, ATA_REG_STATUS)
  else decode port

def inb (b : AtaBus) (port : Nat) : UInt8 × AtaBus :=
  match decodeIn port with
  | none => (0xFF, b)
  | some (base, reg) =>
      (((b.channel base).readReg reg).1, b.setChannel base ((b.channel base).readReg reg).2)

def outb (b : AtaBus) (port : Nat) (v : UInt8) : AtaBus :=
  match decode port with
  | none => b
  | some (base, reg) => b.setChannel base ((b.channel base).writeReg v reg)

def inw (b : AtaBus) (port : Nat) : UInt16 × AtaBus :=
  match decode port with
  | some (base, 0) => ((b.channel base).readData.1, b.setChannel base (b.channel base).readData.2)
  | _ => (0xFFFF, b)

/-! ## The driver -/

def ataPoll (b : AtaBus) : AtaBus :=
  (List.range 4).foldl (fun b _ => (b.inb ATA_PRIMARY_CTRL).2) b

/-- The loop of `ata_wait_bsy` with `timeout` left. -/
def ataWaitBsyLoop (base : Nat) : Nat → AtaBus → Int × AtaBus
  | 0, b => (-1, b)
  | timeout + 1, b =>
      let r := b.inb (base + ATA_REG_STATUS)
      if r.1 &&& ATA_STATUS_BSY = 0 then (0, r.2) else ataWaitBsyLoop base timeout r.2

def ataWaitBsy (b : AtaBus) (base : Nat) : Int × AtaBus := ataWaitBsyLoop base ATA_TIMEOUT b

/-- The loop of `ata_wait_drq` with `timeout` left: when the counter has run down there is no
    second reading. -/
def ataWaitDrqLoop (base : Nat) : Nat → AtaBus → Int × AtaBus
  | 0, b => (-1, b)
  | timeout + 1, b =>
      let r := b.inb (base + ATA_REG_STATUS)
      if r.1 &&& ATA_STATUS_DRQ ≠ 0 then (0, r.2)
      else if timeout = 0 then (-1, r.2)
      else
        let e := r.2.inb (base + ATA_REG_STATUS)
        if e.1 &&& ATA_STATUS_ERR ≠ 0 then (-1, e.2) else ataWaitDrqLoop base timeout e.2

def ataWaitDrq (b : AtaBus) (base : Nat) : Int × AtaBus := ataWaitDrqLoop base ATA_TIMEOUT b

/-- `n` times `inw` of the data register. -/
def readWords (base : Nat) : Nat → AtaBus → List UInt16 × AtaBus
  | 0, b => ([], b)
  | n + 1, b =>
      let r := b.inw (base + ATA_REG_DATA)
      let rest := readWords base n r.2
      (r.1 :: rest.1, rest.2)

/-- The two bytes of each of the words 27 to 46, the high one first. -/
def modelBytes (buf : List UInt16) : List UInt8 :=
  (List.range 20).flatMap fun i =>
    [(buf.getD (27 + i) 0 >>> 8).toUInt8, (buf.getD (27 + i) 0).toUInt8]

/-- The loop that clears blanks from position `i` downwards. -/
def trimBlanks : Nat → List UInt8 → List UInt8
  | 0, model => model
  | i + 1, model => if model.getD i 0 ≠ 32 then model else trimBlanks i (model.set i 0)

/-- The assignments to `dev` at the end of `ata_identify`. -/
def describe (base : Nat) (master : Bool) (buf : List UInt16) : AtaDev where
  base := base
  ctrl := if base = ATA_PRIMARY_IO then ATA_PRIMARY_CTRL else ATA_SECONDARY_CTRL
  present := true
  isMaster := master
  model := trimBlanks 40 (modelBytes buf)
  sectors := (buf.getD 61 0).toUInt32 <<< 16 ||| (buf.getD 60 0).toUInt32

/-- `ata_identify`, from the reading of the answer on. -/
def identifyAnswer (b : AtaBus) (base : Nat) (master : Bool) (dev : AtaDev) :
    (Int × AtaDev) × AtaBus :=
  let s := b.inb (base + ATA_REG_STATUS)
  if s.1 &&& ATA_STATUS_ERR ≠ 0 then
    let mid := s.2.inb (base + ATA_REG_LBA_MID)
    let high := mid.2.inb (base + ATA_REG_LBA_HIGH)
    if mid.1 = 0x14 ∧ high.1 = 0xEB then ((-2, dev), high.2) else ((-1, dev), high.2)
  else
    let w := s.2.ataWaitDrq base
    if w.1 < 0 then ((-1, dev), w.2)
    else
      let buf := readWords base 256 w.2
      ((0, describe base master buf.1), buf.2)

def ataIdentify (b : AtaBus) (base : Nat) (master : Bool) (dev : AtaDev) :
    (Int × AtaDev) × AtaBus :=
  let b := (b.outb (base + ATA_REG_DRIVE) (if master then 0xA0 else 0xB0)).ataPoll
  let s := b.inb (base + ATA_REG_STATUS)
  if s.1 = 0xFF then ((-1, dev), s.2)
  else
    let b := s.2.outb (base + ATA_REG_SECTORS) 0
    let b := b.outb (base + ATA_REG_LBA_LOW) 0
    let b := b.outb (base + ATA_REG_LBA_MID) 0
    let b := b.outb (base + ATA_REG_LBA_HIGH) 0
    let b := b.outb (base + ATA_REG_COMMAND) ATA_CMD_IDENTIFY
    let s := b.inb (base + ATA_REG_STATUS)
    if s.1 = 0 then ((-1, dev), s.2)
    else
      let w := s.2.ataWaitBsy base
      if w.1 < 0 then ((-1, dev), w.2) else w.2.identifyAnswer base master dev

/-! ## Reading and writing the registers of a channel -/

/-- The base of one of the two channels. -/
def IoBase (base : Nat) : Prop := base = ATA_PRIMARY_IO ∨ base = ATA_SECONDARY_IO

@[simp] theorem channel_setChannel (b : AtaBus) (base : Nat) (c : Channel) :
    (b.setChannel base c).channel base = c := by
  unfold setChannel channel
  split <;> rfl

@[simp] theorem setChannel_setChannel (b : AtaBus) (base : Nat) (c c' : Channel) :
    (b.setChannel base c).setChannel base c' = b.setChannel base c' := by
  unfold setChannel
  split <;> rfl

@[simp] theorem setChannel_channel (b : AtaBus) (base : Nat) :
    b.setChannel base (b.channel base) = b := by
  unfold setChannel channel
  split <;> rfl

theorem channel_setChannel_of_ne {base base' : Nat} (h : IoBase base) (h' : IoBase base')
    (hne : base' ≠ base) (b : AtaBus) (c : Channel) :
    (b.setChannel base c).channel base' = b.channel base' := by
  obtain rfl | rfl := h <;> obtain rfl | rfl := h' <;>
    simp_all [setChannel, channel, ATA_PRIMARY_IO, ATA_SECONDARY_IO]

theorem decode_add {base reg : Nat} (h : IoBase base) (hreg : reg < 8) :
    decode (base + reg) = some (base, reg) := by
  obtain rfl | rfl := h
  · simp [decode, hreg]
  · rw [decode, if_neg, if_pos]
    · simp
    · simp [hreg]
    · simp only [ ATA_PRIMARY_IO, ATA_SECONDARY_IO]
      omega

theorem decodeIn_add {base reg : Nat} (h : IoBase base) (hreg : reg < 8) :
    decodeIn (base + reg) = some (base, reg) := by
  rw [decodeIn, if_neg, if_neg, decode_add h hreg] <;>
    obtain rfl | rfl := h <;>
    simp only [ ATA_PRIMARY_IO, ATA_SECONDARY_IO, ATA_PRIMARY_CTRL, ATA_SECONDARY_CTRL] <;>
    omega

section Registers

variable {base : Nat} (h : IoBase base) (b : AtaBus) (c : Channel)

include h

theorem inb_add {reg : Nat} (hreg : reg < 8) :
    (b.setChannel base c).inb (base + reg) =
      ((c.readReg reg).1, b.setChannel base (c.readReg reg).2) := by
  simp [inb, decodeIn_add h hreg]

theorem inb_status : (b.setChannel base c).inb (base + ATA_REG_STATUS) =
    (c.status, b.setChannel base c.statusRead) := inb_add h b c (by decide)

theorem outb_add {reg : Nat} (hreg : reg < 8) (v : UInt8) :
    (b.setChannel base c).outb (base + reg) v = b.setChannel base (c.writeReg v reg) := by
  simp [outb, decode_add h hreg]

theorem inw_data : (b.setChannel base c).inw (base + ATA_REG_DATA) =
    (c.readData.1, b.setChannel base c.readData.2) := by
  have hdecode : decode (base + ATA_REG_DATA) = some (base, 0) := decode_add h (by decide)
  simp [inw, hdecode]

end Registers

end AtaBus

/-- The controller and `devices`, of which `device_count` is the length. -/
structure AtaDriver where
  bus : AtaBus
  devices : List AtaDev

namespace AtaDriver

def probes : List (Nat × Bool) :=
  [( ATA_PRIMARY_IO, true), ( ATA_PRIMARY_IO, false),
    ( ATA_SECONDARY_IO, true), ( ATA_SECONDARY_IO, false)]

/-- The device before `ata_identify`, all zeros. -/
def noDevice : AtaDev := ⟨0, 0, false, false, List.replicate 40 0, 0⟩

/-- A round of the loop of `ata_init`. -/
def probe (s : AtaDriver) (p : Nat × Bool) : AtaDriver :=
  let r := s.bus.ataIdentify p.1 p.2 noDevice
  { bus := r.2, devices := if r.1.1 = 0 then s.devices ++ [r.1.2] else s.devices }

def ataInit (bus : AtaBus) : AtaDriver := probes.foldl probe ⟨bus, []⟩

/-- What `ata_read_sector` writes to the drive register. -/
def driveByte (master : Bool) (lba : UInt32) : UInt32 :=
  (0xE0 : UInt32) ||| (if master then (0 : UInt32) else 0x10) ||| ((lba >>> 24) &&& 0x0F)

/-- The command of `ata_read_sector`. -/
def readCommand (b : AtaBus) (d : AtaDev) (lba : UInt32) : AtaBus :=
  let b := b.outb (d.base + ATA_REG_DRIVE) (driveByte d.isMaster lba).toUInt8
  let b := b.outb (d.base + ATA_REG_SECTORS) 1
  let b := b.outb (d.base + ATA_REG_LBA_LOW) (lba &&& 0xFF).toUInt8
  let b := b.outb (d.base + ATA_REG_LBA_MID) ((lba >>> 8) &&& 0xFF).toUInt8
  let b := b.outb (d.base + ATA_REG_LBA_HIGH) ((lba >>> 16) &&& 0xFF).toUInt8
  b.outb (d.base + ATA_REG_COMMAND) ATA_CMD_READ

/-- `ata_read_sector`: its result and the words it has written to the buffer. -/
def ataReadSector (s : AtaDriver) (dev : Int) (lba : UInt32) :
    (Int × List UInt16) × AtaDriver :=
  if dev < 0 ∨ (s.devices.length : Int) ≤ dev then ((-1, []), s)
  else
    let d := s.devices.getD dev.toNat noDevice
    let w := s.bus.ataWaitBsy d.base
    if w.1 < 0 then ((-1, []), { s with bus := w.2 })
    else
      let q := (readCommand w.2 d lba).ataWaitDrq d.base
      if q.1 < 0 then ((-1, []), { s with bus := q.2 })
      else
        let buf := AtaBus.readWords d.base 256 q.2
        ((0, buf.1), { s with bus := buf.2 })

end AtaDriver

end NemoOS
