import Mathlib
import NemoOS.AtaIdentify
import NemoOS.Lib.Runs

/-!
# Sectors through the registers

The layer above the driver sees disks: `ataReadSector` of the FAT32 model answers a sector number
with the sector or an error. Here the driver with its polling loops, over a controller whose
drives take their time, is shown to be such disks, one for each drive that is there, in the order
in which `ata_init` looks for them.

`ata_read_sector` waits for the channel before it selects the drive, so what it sees first is the
drive selected last. After `ata_init` that is the second one of the channel.
-/

namespace NemoOS

open Ata Transition

/-! ## The name of a drive -/

namespace AtaBus

theorem trimBlanks_append (i : Nat) (model rest : List UInt8) (hi : i ≤ model.length) :
    trimBlanks i (model ++ rest) = trimBlanks i model ++ rest := by
  induction i generalizing model with
  | zero => rfl
  | succ i ih =>
      have hget : (model ++ rest).getD i 0 = model.getD i 0 :=
        List.getD_append model rest 0 i hi
      have hset : (model ++ rest).set i 0 = model.set i 0 ++ rest :=
        List.set_append_left i 0 hi
      rw [trimBlanks, trimBlanks, hget, hset, ih _ (by simpa using Nat.le_of_succ_le hi)]
      split <;> rfl

/-- The loop leaves the text without the blanks at its end, filled up with zeros. -/
theorem trimBlanks_eq (model : List UInt8) :
    trimBlanks model.length model =
      (model.rdropWhile (· == 32)).rightpad model.length 0 := by
  induction model using List.reverseRecOn with
  | nil => rfl
  | append_singleton model x ih =>
      have hget : (model ++ [x]).getD model.length 0 = x := by simp
      rw [List.length_append, List.length_singleton, trimBlanks, hget]
      by_cases hx : x = 32
      · have hset : (model ++ [x]).set model.length 0 = model ++ [0] := by simp
        have hle : (model.rdropWhile (· == 32)).length ≤ model.length := by
          simpa [List.rdropWhile] using List.length_dropWhile_le (· == 32) model.reverse
        rw [if_neg (not_not.mpr hx), hset, trimBlanks_append _ _ _ le_rfl, ih,
          List.rdropWhile_concat_pos _ _ _ (by simpa using hx)]
        simp only [List.rightpad, List.append_assoc]
        rw [← List.replicate_succ', Nat.succ_sub hle]
      · rw [if_pos hx, List.rdropWhile_concat_neg _ _ _ (by simpa using hx)]
        simp [List.rightpad]

theorem length_modelBytes (buf : List UInt16) : (modelBytes buf).length = 40 := by
  simp [modelBytes]

end AtaBus

namespace AtaDriver

open AtaBus

/-! ## Looking for drives -/

/-- The device of a drive: its name ends before the blanks. -/
def deviceOf (base : Nat) (master : Bool) (block : Block) : AtaDev where
  base := base
  ctrl := if base = ATA_PRIMARY_IO then ATA_PRIMARY_CTRL else ATA_SECONDARY_CTRL
  present := true
  isMaster := master
  model := ((modelBytes block.toList).rdropWhile (· == 32)).rightpad 40 0
  sectors := (block.toList.getD 61 0).toUInt32 <<< 16 ||| (block.toList.getD 60 0).toUInt32

theorem describe_eq (base : Nat) (master : Bool) (block : Block) :
    describe base master block.toList = deviceOf base master block := by
  have hmodel := trimBlanks_eq (modelBytes block.toList)
  rw [length_modelBytes] at hmodel
  simp [describe, deviceOf, hmodel]

/-- The device at a place, if there is a drive that can be identified. -/
def deviceAt (bus : AtaBus) (p : Nat × Bool) : Option AtaDev :=
  (((bus.channel p.1).driveOf p.2).bind Drive.identity).map (deviceOf p.1 p.2)

/-- The same drives on both channels. -/
def SameDrives (bus bus' : AtaBus) : Prop :=
  ∀ base, (bus.channel base).SameDrives (bus'.channel base)

theorem SameDrives.setChannel {bus bus' : AtaBus} (h : SameDrives bus bus') {base : Nat}
    {c : Channel} (hc : (bus'.channel base).SameDrives c) :
    SameDrives bus (bus'.setChannel base c) := by
  intro base'
  by_cases hsame : (bus'.setChannel base c).channel base' = bus'.channel base'
  · rw [hsame]
    exact h base'
  · have hthere : (bus'.setChannel base c).channel base' = c ∧
        bus'.channel base' = bus'.channel base := by
      unfold AtaBus.channel AtaBus.setChannel at hsame ⊢
      split_ifs at hsame ⊢ <;> simp_all
    rw [hthere.1]
    exact (h base').trans (hthere.2 ▸ hc)

theorem SameDrives.driveOf {bus bus' : AtaBus} (h : SameDrives bus bus') (base : Nat)
    (master : Bool) : (bus'.channel base).driveOf master = (bus.channel base).driveOf master :=
  (h base).driveOf master

theorem ioBase_of_mem_probes {p : Nat × Bool} (hp : p ∈ probes) : IoBase p.1 := by
  simp only [probes, List.mem_cons, List.not_mem_nil, or_false] at hp
  obtain rfl | rfl | rfl | rfl := hp <;> simp [IoBase]

/-- A round of `ata_init`. -/
theorem probe_spec {bus : AtaBus} {s : AtaDriver} {p : Nat × Bool} (hp : IoBase p.1)
    (hready : s.bus.Ready) (hsame : SameDrives bus s.bus) :
    (s.probe p).bus.Ready ∧ SameDrives bus (s.probe p).bus ∧
      (s.probe p).devices = s.devices ++ (deviceAt bus p).toList := by
  have hid := ataIdentify_spec hp hready p.2 noDevice
  obtain ⟨c', hsame', hready', -, hbus⟩ := hid.next
  have hnext : (s.probe p).bus = s.bus.setChannel p.1 c' := hbus
  refine ⟨hnext ▸ hready.setChannel p.1 hready', hnext ▸ hsame.setChannel hsame', ?_⟩
  have hdrive := hsame.driveOf p.1 p.2
  cases hblock : ((bus.channel p.1).driveOf p.2).bind Drive.identity with
  | none =>
      have hret := hid.not_found (by rw [hdrive, hblock])
      simp [probe, deviceAt, hret, hblock]
  | some block =>
      have hret := hid.found block (by rw [hdrive, hblock])
      simp [probe, deviceAt, hret, hblock, describe_eq]

theorem foldl_probe {bus : AtaBus} (places : List (Nat × Bool)) (s : AtaDriver)
    (hplaces : ∀ p ∈ places, IoBase p.1) (hready : s.bus.Ready) (hsame : SameDrives bus s.bus) :
    (places.foldl probe s).bus.Ready ∧ SameDrives bus (places.foldl probe s).bus ∧
      (places.foldl probe s).devices = s.devices ++ places.filterMap (deviceAt bus) := by
  induction places generalizing s with
  | nil => exact ⟨hready, hsame, by simp⟩
  | cons p places ih =>
      obtain ⟨hready', hsame', hdevices⟩ :=
        probe_spec (hplaces p List.mem_cons_self) hready hsame
      obtain ⟨hready'', hsame'', hrest⟩ :=
        ih (s.probe p) (fun q hq => hplaces q (List.mem_cons_of_mem p hq)) hready' hsame'
      refine ⟨hready'', hsame'', ?_⟩
      rw [List.foldl_cons, hrest, hdevices]
      cases hdevice : deviceAt bus p <;> simp [hdevice]

theorem SameDrives.refl (bus : AtaBus) : SameDrives bus bus :=
  fun base => Channel.SameDrives.refl (bus.channel base)

theorem ataInit_spec {bus : AtaBus} (h : bus.Ready) :
    (ataInit bus).bus.Ready ∧ SameDrives bus (ataInit bus).bus ∧
      (ataInit bus).devices = probes.filterMap (deviceAt bus) := by
  simpa [ataInit] using
    foldl_probe probes ⟨bus, []⟩ (fun _ => ioBase_of_mem_probes) h (SameDrives.refl bus)

/-! ## The command to read -/

theorem driveByte_bits (n : Fin 16) (master : Bool) :
    decide (((0xE0 : UInt32) ||| (if master then (0 : UInt32) else 0x10) |||
        UInt32.ofNat n.val).toUInt8 &&& 0x10 = 0) = master ∧
      (((0xE0 : UInt32) ||| (if master then (0 : UInt32) else 0x10) |||
        UInt32.ofNat n.val).toUInt8 &&& 0x0F).toNat = n.val := by
  revert n master
  decide

/-- The drive register selects the drive and holds the top four bits of the sector number. -/
theorem driveByte_spec (master : Bool) (lba : UInt32) :
    decide ((driveByte master lba).toUInt8 &&& 0x10 = 0) = master ∧
      ((driveByte master lba).toUInt8 &&& 0x0F).toNat = lba.toNat / 2 ^ 24 % 16 := by
  have hand : ((lba >>> 24) &&& 0x0F).toNat = lba.toNat / 2 ^ 24 % 16 := by
    have hshift : (lba >>> 24).toNat = lba.toNat / 2 ^ 24 := by
      simp [UInt32.toNat_shiftRight, Nat.shiftRight_eq_div_pow]
    rw [UInt32.toNat_and, hshift]
    exact Nat.and_two_pow_sub_one_eq_mod (lba.toNat / 2 ^ 24) 4
  have hlt : lba.toNat / 2 ^ 24 % 16 < 16 := Nat.mod_lt _ (by decide)
  have hbits := driveByte_bits ⟨lba.toNat / 2 ^ 24 % 16, hlt⟩ master
  have hofNat : UInt32.ofNat (lba.toNat / 2 ^ 24 % 16) = (lba >>> 24) &&& 0x0F := by
    rw [← hand, UInt32.ofNat_toNat]
  rw [hofNat] at hbits
  exact hbits

/-- A byte of the sector number. -/
theorem lbaByte (lba : UInt32) : (lba &&& 0xFF).toUInt8.toNat = lba.toNat % 256 := by
  have hand : (lba &&& 0xFF).toNat = lba.toNat % 256 := by
    simpa using Nat.and_two_pow_sub_one_eq_mod lba.toNat 8
  rw [UInt32.toNat_toUInt8, hand]
  omega

/-- The channel with the registers of a read. -/
def reading (c : Channel) (master : Bool) (lba : UInt32) : Channel :=
  { c with
    drive := (driveByte master lba).toUInt8
    sectors := 1
    lbaLow := (lba &&& 0xFF).toUInt8
    lbaMid := ((lba >>> 8) &&& 0xFF).toUInt8
    lbaHigh := ((lba >>> 16) &&& 0xFF).toUInt8 }

theorem selected_reading (c : Channel) (master : Bool) (lba : UInt32) :
    (reading c master lba).selected = c.driveOf master :=
  Channel.selected_eq (driveByte_spec master lba).1

/-- The registers hold 28 bits of the sector number. -/
theorem lba_reading (c : Channel) (master : Bool) (lba : UInt32) :
    (reading c master lba).lba = lba.toNat % 2 ^ 28 := by
  have hlow := lbaByte lba
  have hmid := lbaByte (lba >>> 8)
  have hhigh := lbaByte (lba >>> 16)
  have htop := (driveByte_spec master lba).2
  have hmid' : (lba >>> 8).toNat = lba.toNat / 2 ^ 8 := by
    simp [UInt32.toNat_shiftRight, Nat.shiftRight_eq_div_pow]
  have hhigh' : (lba >>> 16).toNat = lba.toNat / 2 ^ 16 := by
    simp [UInt32.toNat_shiftRight, Nat.shiftRight_eq_div_pow]
  rw [hmid'] at hmid
  rw [hhigh'] at hhigh
  unfold Channel.lba reading
  dsimp only
  rw [hlow, hmid, hhigh, htop]
  omega

theorem readCommand_eq {b : AtaBus} {d : AtaDev} (h : IoBase d.base) (lba : UInt32)
    {drive : Drive} (hd : (b.channel d.base).driveOf d.isMaster = some drive) :
    readCommand b d lba = b.setChannel d.base
      ((reading (b.channel d.base) d.isMaster lba).start (drive.sector (lba.toNat % 2 ^ 28))) := by
  have hwrites : readCommand (b.setChannel d.base (b.channel d.base)) d lba = b.setChannel d.base
      ((reading (b.channel d.base) d.isMaster lba).command ATA_CMD_READ) := by
    unfold readCommand
    dsimp only
    rw [outb_add h b _ (by decide), outb_add h b _ (by decide), outb_add h b _ (by decide),
      outb_add h b _ (by decide), outb_add h b _ (by decide), outb_add h b _ (by decide)]
    rfl
  rw [setChannel_channel] at hwrites
  rw [hwrites]
  simp [Channel.command, selected_reading, hd, lba_reading, ATA_CMD_READ]

/-! ## Reading a sector -/

/-- The bytes of a block in memory, the low one of each word first. -/
def bytesOf (words : List UInt16) : Sector := fun i =>
  if i % 2 = 0 then (words.getD (i / 2) 0).toUInt8 else (words.getD (i / 2) 0 >>> 8).toUInt8

/-- A call of `ata_read_sector` with the sector it leaves in the buffer. -/
def readSector (s : AtaDriver) (call : Int × UInt32) : Option Sector × AtaDriver :=
  let r := s.ataReadSector call.1 call.2
  (if r.1.1 = 0 then some (bytesOf r.1.2) else none, r.2)

/-- The disk of a device. -/
def diskOf (bus : AtaBus) (d : AtaDev) : AtaDevice := fun lba =>
  (((bus.channel d.base).driveOf d.isMaster).bind (·.sector lba)).map (bytesOf ·.toList)

/-- A call for a disk that is not there is refused. -/
def diskRead (disks : List AtaDevice) (call : Int × UInt32) : Option Sector :=
  if call.1 < 0 then none
  else disks[call.1.toNat]?.bind fun disk => NemoOS.ataReadSector disk call.2

theorem ataReadSector_out_of_range (s : AtaDriver) {dev : Int} (lba : UInt32)
    (h : dev < 0 ∨ (s.devices.length : Int) ≤ dev) : s.ataReadSector dev lba = ((-1, []), s) :=
  if_pos h

/-- What `ata_read_sector` returns for an answer of the drive. -/
def resultOf : Option Block → Int × List UInt16
  | some block => (0, block.toList)
  | none => (-1, [])

/-- The channel after a command that was answered. -/
def finished (c : Channel) (answer : Option Block) : Channel :=
  { c.start answer with phase := if answer.isSome then .idle else .failed }

theorem readyChannel_finished {c : Channel} (h : ReadyChannel c) (master : Bool) (lba : UInt32)
    (answer : Option Block) : ReadyChannel (finished (reading c master lba) answer) := by
  have hprompt : (reading c master lba).Prompt ATA_TIMEOUT := h.prompt
  refine h.congr ⟨rfl, rfl, rfl⟩ ?_ (hprompt.start answer)
  cases answer with
  | none => exact .inr rfl
  | some block => exact .inl rfl

/-- A drive on a channel that is not busy when the call is made gives the sector, or the error
    it has. -/
theorem ataReadSector_of_drive {s : AtaDriver} {dev : Int} {d : AtaDev} (lba : UInt32)
    (hdev : 0 ≤ dev) (hget : s.devices[dev.toNat]? = some d) (h : IoBase d.base)
    (hready : s.bus.Ready) {drive : Drive} {answer : Option Block}
    (hd : (s.bus.channel d.base).driveOf d.isMaster = some drive)
    (hbusy : (s.bus.channel d.base).status &&& ATA_STATUS_BSY = 0)
    (hanswer : drive.sector (lba.toNat % 2 ^ 28) = answer) :
    s.ataReadSector dev lba = (resultOf answer, { s with
      bus := s.bus.setChannel d.base
        (finished (reading (s.bus.channel d.base) d.isMaster lba) answer) }) := by
  have hc := hready.channel d.base
  obtain ⟨hlt, -⟩ := List.getElem?_eq_some_iff.mp hget
  have hrange : ¬ (dev < 0 ∨ (s.devices.length : Int) ≤ dev) := by omega
  have hgetD : s.devices.getD dev.toNat noDevice = d := by
    rw [List.getD_eq_getElem?_getD, hget, Option.getD_some]
  have hwait : s.bus.ataWaitBsy d.base = (0, s.bus) := by
    have hloop := ataWaitBsyLoop_ready h s.bus hbusy 9999999
    rw [Channel.statusRead_of_settled hc.settled, setChannel_channel] at hloop
    exact hloop
  generalize hreading : reading (s.bus.channel d.base) d.isMaster lba = c
  have hprompt : c.Prompt ATA_TIMEOUT := hreading ▸ hc.prompt
  have hsel : (c.start answer).selected.isSome := by
    have hselected : c.selected = some drive := by rw [← hreading, selected_reading, hd]
    exact Option.isSome_of_eq_some hselected
  have hcommand : readCommand s.bus d lba = s.bus.setChannel d.base (c.start answer) := by
    rw [readCommand_eq h lba hd, hanswer, hreading]
  have hdrq := ataWaitDrq_gives h s.bus hsel (hprompt.gives answer)
  rw [AtaDriver.ataReadSector, if_neg hrange]
  simp only [hgetD, hwait, hcommand, hdrq]
  cases answer with
  | none => rfl
  | some block =>
      have hne : block.toList ≠ [] := by
        intro hnil
        simpa [hnil] using block.toList_length
      have hwords := readWords_transfer h s.bus (c := c.start (some block)) block.toList hne
      rw [block.toList_length] at hwords
      simp [Phase.answered, hwords, resultOf, finished]

/-! ## Calls in a row -/

/-- The driver after `ata_init` and any number of reads. -/
structure Serves (bus : AtaBus) (s : AtaDriver) : Prop where
  ready : s.bus.Ready
  same : SameDrives bus s.bus
  devices_eq : s.devices = probes.filterMap (deviceAt bus)

theorem serves_ataInit {bus : AtaBus} (h : bus.Ready) : Serves bus (ataInit bus) :=
  ⟨(ataInit_spec h).1, (ataInit_spec h).2.1, (ataInit_spec h).2.2⟩

theorem drive_of_mem_devices {bus : AtaBus} {d : AtaDev}
    (h : d ∈ probes.filterMap (deviceAt bus)) :
    IoBase d.base ∧ ∃ drive, (bus.channel d.base).driveOf d.isMaster = some drive := by
  obtain ⟨p, hp, hdevice⟩ := List.mem_filterMap.mp h
  obtain ⟨block, hblock, rfl⟩ := Option.map_eq_some_iff.mp hdevice
  obtain ⟨drive, hdrive, -⟩ := Option.bind_eq_some_iff.mp hblock
  exact ⟨ioBase_of_mem_probes hp, drive, hdrive⟩

/-- A channel that is busy between commands shows the status of a missing drive, and goes on
    doing so. -/
theorem ataReadSector_of_busy {s : AtaDriver} {dev : Int} {d : AtaDev} (lba : UInt32)
    (hget : s.devices[dev.toNat]? = some d) (h : IoBase d.base) (hready : s.bus.Ready)
    (hbusy : (s.bus.channel d.base).status &&& ATA_STATUS_BSY ≠ 0) :
    s.ataReadSector dev lba = ((-1, []), s) := by
  by_cases hrange : dev < 0 ∨ (s.devices.length : Int) ≤ dev
  · exact ataReadSector_out_of_range s lba hrange
  · have hsel : (s.bus.channel d.base).selected = none := by
      by_contra hsome
      have hsel := Option.isSome_iff_ne_none.mpr hsome
      rw [Channel.status_of_selected hsel] at hbusy
      exact hbusy (hready.channel d.base).settled.not_busy
    rw [Channel.status_of_absent hsel] at hbusy
    have hloop := ataWaitBsyLoop_floating h s.bus hsel hbusy ATA_TIMEOUT
    rw [setChannel_channel] at hloop
    rw [AtaDriver.ataReadSector, if_neg hrange]
    simp [hget, ataWaitBsy, hloop]

/-- The ways a call can go: there is no such device, its channel is busy, or the disk answers. -/
theorem readSector_cases {bus : AtaBus} {s : AtaDriver} (hs : Serves bus s) (dev : Int)
    (lba : UInt32) :
    ((dev < 0 ∨ (s.devices.length : Int) ≤ dev) ∧ s.readSector (dev, lba) = (none, s)) ∨
    ∃ d, 0 ≤ dev ∧ s.devices[dev.toNat]? = some d ∧ IoBase d.base ∧
      (((s.bus.channel d.base).status &&& ATA_STATUS_BSY ≠ 0 ∧
          s.readSector (dev, lba) = (none, s)) ∨
        ((s.bus.channel d.base).status &&& ATA_STATUS_BSY = 0 ∧ ∃ answer,
          s.readSector (dev, lba) = (NemoOS.ataReadSector (diskOf bus d) lba, { s with
            bus := s.bus.setChannel d.base
              (finished (reading (s.bus.channel d.base) d.isMaster lba) answer) }))) := by
  by_cases hrange : dev < 0 ∨ (s.devices.length : Int) ≤ dev
  · exact .inl ⟨hrange, by simp [readSector, ataReadSector_out_of_range s lba hrange]⟩
  · have hlt : dev.toNat < s.devices.length := by omega
    have hget : s.devices[dev.toNat]? = some s.devices[dev.toNat] :=
      List.getElem?_eq_getElem hlt
    have hmem : s.devices[dev.toNat] ∈ probes.filterMap (deviceAt bus) :=
      hs.devices_eq ▸ List.getElem_mem hlt
    generalize s.devices[dev.toNat] = d at hget hmem
    obtain ⟨hbase, drive, hdrive⟩ := drive_of_mem_devices hmem
    refine .inr ⟨d, by omega, hget, hbase, ?_⟩
    by_cases hbusy : (s.bus.channel d.base).status &&& ATA_STATUS_BSY = 0
    · have hd := (hs.same.driveOf d.base d.isMaster).trans hdrive
      have hcall := ataReadSector_of_drive lba (by omega) hget hbase hs.ready hd hbusy rfl
      have hdisk : NemoOS.ataReadSector (diskOf bus d) lba =
          (drive.sector (lba.toNat % 2 ^ 28)).map (bytesOf ·.toList) := by
        simp [NemoOS.ataReadSector, diskOf, hdrive]
      refine .inr ⟨hbusy, drive.sector (lba.toNat % 2 ^ 28), ?_⟩
      rw [readSector, hcall, hdisk]
      cases drive.sector (lba.toNat % 2 ^ 28) <;> rfl
    · exact .inl ⟨hbusy, by simp [readSector, ataReadSector_of_busy lba hget hbase hs.ready hbusy]⟩

theorem Serves.setChannel {bus : AtaBus} {s : AtaDriver} (hs : Serves bus s) (d : AtaDev)
    (lba : UInt32) (answer : Option Block) :
    Serves bus { s with
      bus := s.bus.setChannel d.base
        (finished (reading (s.bus.channel d.base) d.isMaster lba) answer) } where
  ready := hs.ready.setChannel d.base
    (readyChannel_finished (hs.ready.channel d.base) d.isMaster lba answer)
  same := hs.same.setChannel ⟨rfl, rfl, rfl⟩
  devices_eq := hs.devices_eq

theorem Serves.readSector {bus : AtaBus} {s : AtaDriver} (hs : Serves bus s)
    (call : Int × UInt32) : Serves bus (s.readSector call).2 := by
  obtain ⟨-, heq⟩ | ⟨d, -, -, -, ⟨-, heq⟩ | ⟨-, answer, heq⟩⟩ := readSector_cases hs call.1 call.2
  · rw [heq]
    exact hs
  · rw [heq]
    exact hs
  · rw [heq]
    exact hs.setChannel d call.2 answer

/-- Beside a drive that is there, a missing one is not shown as busy. -/
def Quiet (bus : AtaBus) : Prop :=
  ∀ base master, ((bus.channel base).driveOf master).isSome →
    (bus.channel base).absent &&& ATA_STATUS_BSY = 0

theorem Serves.not_busy {bus : AtaBus} {s : AtaDriver} (hs : Serves bus s) (hquiet : Quiet bus)
    {d : AtaDev} (hd : d ∈ s.devices) :
    (s.bus.channel d.base).status &&& ATA_STATUS_BSY = 0 := by
  obtain ⟨-, drive, hdrive⟩ := drive_of_mem_devices (hs.devices_eq ▸ hd)
  unfold Channel.status
  split
  · exact (hs.ready.channel d.base).settled.not_busy
  · rw [(hs.same d.base).absent_eq]
    exact hquiet d.base d.isMaster (Option.isSome_of_eq_some hdrive)

/-- The disks, in the order in which `ata_init` finds them. -/
def disks (bus : AtaBus) : List AtaDevice :=
  (probes.filterMap (deviceAt bus)).map (diskOf bus)

theorem readSector_eq {bus : AtaBus} {s : AtaDriver} (hs : Serves bus s) (hquiet : Quiet bus)
    (call : Int × UInt32) : (s.readSector call).1 = diskRead (disks bus) call := by
  obtain ⟨hrange, heq⟩ | ⟨d, hdev, hget, -, ⟨hbusy, -⟩ | ⟨-, answer, heq⟩⟩ :=
    readSector_cases hs call.1 call.2
  · rw [heq, diskRead]
    split
    · rfl
    · have hnone : (disks bus)[call.1.toNat]? = none := by
        rw [List.getElem?_eq_none_iff, disks, List.length_map, ← hs.devices_eq]
        omega
      simp [hnone]
  · exact absurd (hs.not_busy hquiet (List.mem_of_getElem? hget)) hbusy
  · have hdisk : (disks bus)[call.1.toNat]? = some (diskOf bus d) := by
      rw [disks, List.getElem?_map, ← hs.devices_eq, hget, Option.map_some]
    rw [heq, diskRead, if_neg (by omega), hdisk, Option.bind_some]

/-- **The driver is the disks.** `ata_init` finds the drives that can be identified, in its
    order, and from then on every read, in any order and number, has the result of the disk it
    is for, whatever the drives have shown while they were busy. -/
theorem ataReadSector_refines_disks {bus : AtaBus} (h : bus.Ready) (hquiet : Quiet bus)
    (calls : List (Int × UInt32)) :
    (ataInit bus).devices = probes.filterMap (deviceAt bus) ∧
      outputs readSector (ataInit bus) calls = calls.map (diskRead (disks bus)) := by
  have hcall : ∀ (s : AtaDriver) (t : Unit) (call : Int × UInt32), Serves bus s → True →
      (s.readSector call).1 = diskRead (disks bus) call ∧ Serves bus (s.readSector call).2 :=
    fun s _ call hs _ => ⟨readSector_eq hs hquiet call, hs.readSector call⟩
  refine ⟨(serves_ataInit h).devices_eq, ?_⟩
  rw [← outputs_stateless]
  exact outputs_eq (fun s _ => Serves bus s) hcall (serves_ataInit h) fun _ _ => trivial

/-- A drive whose even sectors are readable. -/
def halfDrive : Drive where
  identity := some (List.Vector.replicate 256 0x2020)
  sector := fun lba => if lba % 2 = 0 then some (List.Vector.replicate 256 0x0102) else none

/-- A channel with that drive as its master, which is busy for two readings. -/
def halfChannel (absent : UInt8) : Channel where
  master := some halfDrive
  slave := none
  absent := absent
  drive := 0
  sectors := 0
  lbaLow := 0
  lbaMid := 0
  lbaHigh := 0
  phase := .idle
  delays := fun _ => [0x80, 0x50]

theorem readyChannel_half (absent : UInt8) (h : absent = 0xFF ∨ absent &&& ATA_STATUS_DRQ = 0) :
    ReadyChannel (halfChannel absent) where
  settled := .inl rfl
  prompt := by
    have hclean : Channel.Clean [0x80, 0x50] := by
      intro s hs
      obtain rfl | rfl : s = 0x80 ∨ s = 0x50 := by simpa using hs
      · exact ⟨by decide, by decide, by decide⟩
      · exact ⟨by decide, by decide, by decide⟩
    exact fun _ => ⟨hclean, by simp [halfChannel, ATA_TIMEOUT]⟩
  absent_status := h

theorem ataReadSector_refines_disks_half :
    (AtaBus.mk (halfChannel 0) (halfChannel 0)).Ready ∧
      Quiet ⟨halfChannel 0, halfChannel 0⟩ ∧
      outputs readSector (ataInit ⟨halfChannel 0, halfChannel 0⟩) [(0, 2), (1, 3), (2, 0)] =
        [(0, 2), (1, 3), (2, 0)].map (diskRead (disks ⟨halfChannel 0, halfChannel 0⟩)) := by
  have hchannel := readyChannel_half 0 (.inr (by decide))
  have hquiet : Quiet ⟨halfChannel 0, halfChannel 0⟩ := by
    intro base master _
    unfold AtaBus.channel
    split <;> exact (by decide : (0 : UInt8) &&& ATA_STATUS_BSY = 0)
  exact ⟨⟨hchannel, hchannel⟩, hquiet,
    (ataReadSector_refines_disks ⟨hchannel, hchannel⟩ hquiet _).2⟩

/-! ## A floating bus -/

theorem probe_selected {s : AtaDriver} {p : Nat × Bool} (hp : IoBase p.1)
    (hready : s.bus.Ready) :
    ((s.probe p).bus.channel p.1).selected = (s.bus.channel p.1).driveOf p.2 := by
  obtain ⟨c', -, -, hselected, hbus⟩ := (ataIdentify_spec hp hready p.2 noDevice).next
  have hnext : (s.probe p).bus = s.bus.setChannel p.1 c' := hbus
  rw [hnext, channel_setChannel, hselected]

theorem probe_other {s : AtaDriver} {p : Nat × Bool} (hp : IoBase p.1) (hready : s.bus.Ready)
    {base : Nat} (hbase : IoBase base) (hne : base ≠ p.1) :
    (s.probe p).bus.channel base = s.bus.channel base := by
  obtain ⟨c', -, -, -, hbus⟩ := (ataIdentify_spec hp hready p.2 noDevice).next
  have hnext : (s.probe p).bus = s.bus.setChannel p.1 c' := hbus
  rw [hnext, channel_setChannel_of_ne hp hbase hne]

/-- `ata_init` leaves the second drive of each channel selected. -/
theorem selected_ataInit {bus : AtaBus} (h : bus.Ready) {base : Nat} (hbase : IoBase base) :
    ((ataInit bus).bus.channel base).selected = (bus.channel base).driveOf false := by
  have hprimary : IoBase ATA_PRIMARY_IO := .inl rfl
  have hsecondary : IoBase ATA_SECONDARY_IO := .inr rfl
  obtain ⟨hready₁, hsame₁, -⟩ := probe_spec (s := ⟨bus, []⟩) (p := ( ATA_PRIMARY_IO, true))
    hprimary h (SameDrives.refl bus)
  obtain ⟨hready₂, hsame₂, -⟩ := probe_spec (p := ( ATA_PRIMARY_IO, false)) hprimary hready₁ hsame₁
  obtain ⟨hready₃, hsame₃, -⟩ :=
    probe_spec (p := ( ATA_SECONDARY_IO, true)) hsecondary hready₂ hsame₂
  obtain rfl | rfl := hbase
  · have hne : ATA_PRIMARY_IO ≠ ATA_SECONDARY_IO := by decide
    have hfourth := probe_other (p := ( ATA_SECONDARY_IO, false)) hsecondary hready₃ hprimary hne
    have hthird := probe_other (p := ( ATA_SECONDARY_IO, true)) hsecondary hready₂ hprimary hne
    have hsecond := probe_selected (p := ( ATA_PRIMARY_IO, false)) hprimary hready₁
    rw [hsame₁.driveOf] at hsecond
    simp only [ataInit, probes, List.foldl_cons, List.foldl_nil]
    rw [hfourth, hthird, hsecond]
  · have hlast := probe_selected (p := ( ATA_SECONDARY_IO, false)) hsecondary hready₃
    rw [hsame₃.driveOf] at hlast
    simpa only [ataInit, probes, List.foldl_cons, List.foldl_nil] using hlast

/-- The channel shows a busy drive that is not there. -/
def Floating (base : Nat) (s : AtaDriver) : Prop :=
  (s.bus.channel base).selected = none ∧ (s.bus.channel base).absent &&& ATA_STATUS_BSY ≠ 0

theorem Floating.status {base : Nat} {s : AtaDriver} (h : Floating base s) :
    (s.bus.channel base).status &&& ATA_STATUS_BSY ≠ 0 := by
  rw [Channel.status_of_absent h.1]
  exact h.2

/-- No read gets the channel out of it: those for its drives give up before they select one. -/
theorem Floating.readSector {bus : AtaBus} {base : Nat} {s : AtaDriver} (h : Floating base s)
    (hbase : IoBase base) (hs : Serves bus s) (call : Int × UInt32) :
    Floating base (s.readSector call).2 := by
  obtain ⟨-, heq⟩ | ⟨d, -, -, hd, ⟨-, heq⟩ | ⟨hready, answer, heq⟩⟩ :=
    readSector_cases hs call.1 call.2
  · rw [heq]
    exact h
  · rw [heq]
    exact h
  · have hne : base ≠ d.base := fun hsame => h.status (hsame ▸ hready)
    rw [heq]
    unfold Floating
    rw [channel_setChannel_of_ne hd hbase hne]
    exact h

theorem Floating.stateAfter {bus : AtaBus} {base : Nat} {s : AtaDriver} (h : Floating base s)
    (hbase : IoBase base) (hs : Serves bus s) (calls : List (Int × UInt32)) :
    Serves bus (stateAfter AtaDriver.readSector s calls) ∧
      Floating base (stateAfter AtaDriver.readSector s calls) := by
  induction calls generalizing s with
  | nil => exact ⟨hs, h⟩
  | cons call calls ih =>
      rw [stateAfter_cons]
      exact ih (h.readSector hbase hs call) (hs.readSector call)

/-- **A drive behind a floating bus is found and cannot be read.** Where the slave is missing and
    its status reads as ones, `ata_init` lists the master, but every read of it fails, after
    any reads before. -/
theorem ataReadSector_floating {bus : AtaBus} (h : bus.Ready) {base : Nat} (hbase : IoBase base)
    (hslave : (bus.channel base).slave = none) (hfloat : (bus.channel base).absent = 0xFF)
    {block : Block} (hmaster : (bus.channel base).master.bind Drive.identity = some block)
    (calls : List (Int × UInt32)) :
    deviceOf base true block ∈ (ataInit bus).devices ∧
      ∀ (dev : Nat) (d : AtaDev) (lba : UInt32), (ataInit bus).devices[dev]? = some d →
        d.base = base →
        (readSector (stateAfter readSector (ataInit bus) calls) (dev, lba)).1 = none := by
  have hinit := serves_ataInit h
  have hstart : Floating base (ataInit bus) := by
    have hnone : (bus.channel base).driveOf false = none := hslave
    have hbusy : (0xFF : UInt8) &&& ATA_STATUS_BSY ≠ 0 := by decide
    refine ⟨(selected_ataInit h hbase).trans hnone, ?_⟩
    rw [(hinit.same base).absent_eq, hfloat]
    exact hbusy
  have hrun := hstart.stateAfter hbase hinit calls
  refine ⟨?_, ?_⟩
  · rw [hinit.devices_eq]
    have hplace : (base, true) ∈ probes := by
      obtain rfl | rfl := hbase <;> simp [probes]
    exact List.mem_filterMap.mpr ⟨(base, true), hplace, by
      simp [deviceAt, Channel.driveOf, hmaster]⟩
  · intro dev d lba hget hd
    rw [hinit.devices_eq, ← hrun.1.devices_eq] at hget
    obtain ⟨-, heq⟩ | ⟨d', -, hget', -, ⟨-, heq⟩ | ⟨hready, -⟩⟩ :=
      readSector_cases hrun.1 (dev : Int) lba
    · rw [heq]
    · rw [heq]
    · obtain rfl : d' = d := by simpa [hget] using hget'.symm
      exact absurd (hd ▸ hready) hrun.2.status

theorem ataReadSector_floating_half :
    deviceOf ATA_PRIMARY_IO true (List.Vector.replicate 256 0x2020) ∈
        (ataInit ⟨halfChannel 0xFF, halfChannel 0⟩).devices ∧
      ∀ (dev : Nat) (d : AtaDev) (lba : UInt32),
        (ataInit ⟨halfChannel 0xFF, halfChannel 0⟩).devices[dev]? = some d →
        d.base = ATA_PRIMARY_IO →
        (readSector (stateAfter readSector (ataInit ⟨halfChannel 0xFF, halfChannel 0⟩)
          [(1, 2), (0, 2)]) (dev, lba)).1 = none :=
  ataReadSector_floating
    ⟨readyChannel_half 0xFF (.inl rfl), readyChannel_half 0 (.inr (by decide))⟩ (.inl rfl) rfl rfl
    rfl [(1, 2), (0, 2)]

end AtaDriver

end NemoOS
