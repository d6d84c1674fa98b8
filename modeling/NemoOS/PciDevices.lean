import Mathlib

/-!
# Looking for PCI devices

`pci_init` of `drivers/pci.cpp`. A register of a function is read in two steps: its address is
written to one port and the register then shows at another. The loop goes over every bus and
slot, takes the function 0 of a slot if there is one, and the other seven only if the header of
function 0 says that there are more. The table has room for 64.
-/

namespace NemoOS

def MAX_PCI_DEVICES : Nat := 64

def PCI_VENDOR_ID : UInt32 := 0x00
def PCI_CLASS : UInt32 := 0x0B
def PCI_HEADER_TYPE : UInt32 := 0x0E

/-- A `pci_device`. -/
structure PciDevice where
  bus : Nat
  slot : Nat
  func : Nat
  vendorId : UInt16
  deviceId : UInt16
  classCode : UInt8
  subclass : UInt8
  progIf : UInt8
  headerType : UInt8
deriving DecidableEq

/-- The registers of all functions, by bus, slot, function and offset. -/
abbrev ConfigSpace := Nat → Nat → Nat → Nat → UInt32

/-- The host bridge, with the address written last. -/
structure PciBridge where
  space : ConfigSpace
  address : UInt32

namespace PciBridge

def configAddress (bus slot func : Nat) (offset : UInt32) : UInt32 :=
  (UInt32.ofNat bus <<< 16) ||| (UInt32.ofNat slot <<< 11) ||| (UInt32.ofNat func <<< 8) |||
    (offset &&& 0xFC) ||| 0x80000000

/-- `outl(PCI_CONFIG_ADDR, address)`. -/
def outAddress (b : PciBridge) (address : UInt32) : PciBridge := { b with address := address }

/-- `inl(PCI_CONFIG_DATA)`: the register the address names. -/
def inData (b : PciBridge) : UInt32 :=
  b.space (b.address.toNat / 2 ^ 16 % 256) (b.address.toNat / 2 ^ 11 % 32)
    (b.address.toNat / 2 ^ 8 % 8) (b.address.toNat % 256)

def pciConfigRead (b : PciBridge) (bus slot func : Nat) (offset : UInt32) : UInt32 × PciBridge :=
  let b := b.outAddress (configAddress bus slot func offset)
  (b.inData, b)

/-! ## The address of a register -/

theorem toNat_shifted {v k : Nat} {s : UInt32} (hs : s.toNat = k) (hk : k < 32)
    (hv : v * 2 ^ k < 2 ^ 32) : (UInt32.ofNat v <<< s).toNat = 2 ^ k * v := by
  have hpos : 0 < 2 ^ k := Nat.two_pow_pos k
  have hlt : v < 2 ^ 32 := lt_of_le_of_lt (Nat.le_mul_of_pos_right v hpos) hv
  rw [UInt32.toNat_shiftLeft, hs, Nat.mod_eq_of_lt hk, UInt32.toNat_ofNat', Nat.mod_eq_of_lt hlt,
    Nat.shiftLeft_eq, Nat.mod_eq_of_lt hv, Nat.mul_comm]

/-- The parts of an address lie side by side. -/
theorem toNat_configAddress {bus slot func : Nat} (hbus : bus < 256) (hslot : slot < 32)
    (hfunc : func < 8) (offset : UInt32) :
    (configAddress bus slot func offset).toNat =
      2 ^ 31 + (2 ^ 16 * bus + 2 ^ 11 * slot + 2 ^ 8 * func + (offset &&& 0xFC).toNat) := by
  have hoffset : (offset &&& 0xFC).toNat < 2 ^ 8 := by
    rw [UInt32.toNat_and]
    exact lt_of_le_of_lt Nat.and_le_right (by decide)
  have h₁ : 2 ^ 16 * bus ||| 2 ^ 11 * slot = 2 ^ 11 * (2 ^ 5 * bus + slot) := by
    rw [← Nat.two_pow_add_eq_or_of_lt (by omega : 2 ^ 11 * slot < 2 ^ 16)]
    ring
  have h₂ : 2 ^ 11 * (2 ^ 5 * bus + slot) ||| 2 ^ 8 * func =
      2 ^ 8 * (2 ^ 8 * bus + 2 ^ 3 * slot + func) := by
    rw [← Nat.two_pow_add_eq_or_of_lt (by omega : 2 ^ 8 * func < 2 ^ 11)]
    ring
  have h₃ := Nat.two_pow_add_eq_or_of_lt hoffset (2 ^ 8 * bus + 2 ^ 3 * slot + func)
  have h₄ := Nat.two_pow_add_eq_or_of_lt (i := 31)
    (by omega : 2 ^ 8 * (2 ^ 8 * bus + 2 ^ 3 * slot + func) + (offset &&& 0xFC).toNat < 2 ^ 31) 1
  have hb : (UInt32.ofNat bus <<< 16).toNat = 2 ^ 16 * bus :=
    toNat_shifted rfl (by decide) (by omega)
  have hs : (UInt32.ofNat slot <<< 11).toNat = 2 ^ 11 * slot :=
    toNat_shifted rfl (by decide) (by omega)
  have hf : (UInt32.ofNat func <<< 8).toNat = 2 ^ 8 * func :=
    toNat_shifted rfl (by decide) (by omega)
  unfold configAddress
  rw [UInt32.toNat_or, UInt32.toNat_or, UInt32.toNat_or, UInt32.toNat_or, hb, hs, hf, h₁, h₂,
    ← h₃, Nat.or_comm]
  refine h₄.symm.trans ?_
  ring

/-- A register is read under its own address. -/
theorem pciConfigRead_eq (b : PciBridge) {bus slot func : Nat} (hbus : bus < 256)
    (hslot : slot < 32) (hfunc : func < 8) (offset : UInt32) :
    (b.pciConfigRead bus slot func offset).1 = b.space bus slot func (offset &&& 0xFC).toNat := by
  have hoffset : (offset &&& 0xFC).toNat < 2 ^ 8 := by
    rw [UInt32.toNat_and]
    exact lt_of_le_of_lt Nat.and_le_right (by decide)
  have haddress := toNat_configAddress hbus hslot hfunc offset
  unfold pciConfigRead inData outAddress
  dsimp only
  rw [haddress]
  congr 1 <;> omega

@[simp] theorem space_pciConfigRead (b : PciBridge) (bus slot func : Nat) (offset : UInt32) :
    (b.pciConfigRead bus slot func offset).2.space = b.space := rfl

end PciBridge

/-- The bridge and `pci_devices`, of which `pci_count` is the length. -/
structure PciTable where
  bridge : PciBridge
  devices : List PciDevice

namespace PciTable

def pciAddDevice (t : PciTable) (bus slot func : Nat) : PciTable :=
  if MAX_PCI_DEVICES ≤ t.devices.length then t
  else
    let id := t.bridge.pciConfigRead bus slot func PCI_VENDOR_ID
    if id.1.toUInt16 = 0xFFFF then { t with bridge := id.2 }
    else
      let classRev := id.2.pciConfigRead bus slot func PCI_CLASS
      let hdr := classRev.2.pciConfigRead bus slot func PCI_HEADER_TYPE
      { bridge := hdr.2
        devices := t.devices ++ [{
          bus := bus
          slot := slot
          func := func
          vendorId := id.1.toUInt16
          deviceId := (id.1 >>> 16).toUInt16
          classCode := (classRev.1 >>> 24).toUInt8
          subclass := (classRev.1 >>> 16).toUInt8
          progIf := (classRev.1 >>> 8).toUInt8
          headerType := (hdr.1 >>> 16).toUInt8 }] }

/-- A round of the loop over the functions 1 to 7. -/
def probeFunc (bus slot : Nat) (t : PciTable) (func : Nat) : PciTable :=
  let id := t.bridge.pciConfigRead bus slot func PCI_VENDOR_ID
  let t := { t with bridge := id.2 }
  if id.1.toUInt16 ≠ 0xFFFF then t.pciAddDevice bus slot func else t

/-- A round of the loop over the slots. -/
def probeSlot (bus : Nat) (t : PciTable) (slot : Nat) : PciTable :=
  let id := t.bridge.pciConfigRead bus slot 0 PCI_VENDOR_ID
  let t := { t with bridge := id.2 }
  if id.1.toUInt16 = 0xFFFF then t
  else
    let t := t.pciAddDevice bus slot 0
    let hdr := t.bridge.pciConfigRead bus slot 0 PCI_HEADER_TYPE
    let t := { t with bridge := hdr.2 }
    if (hdr.1 >>> 16).toUInt8 &&& 0x80 ≠ 0 then
      [1, 2, 3, 4, 5, 6, 7].foldl (probeFunc bus slot) t
    else t

def pciInit (bridge : PciBridge) : PciTable :=
  (List.range 256).foldl (fun t bus => (List.range 32).foldl (probeSlot bus) t) ⟨bridge, []⟩

/-! ## The functions that are there -/

/-- The function is there. -/
def Present (space : ConfigSpace) (bus slot func : Nat) : Prop :=
  (space bus slot func 0).toUInt16 ≠ 0xFFFF

instance (space : ConfigSpace) (bus slot func : Nat) : Decidable (Present space bus slot func) :=
  inferInstanceAs (Decidable (_ ≠ _))

/-- The header of function 0 says that there are more. -/
def Multifunction (space : ConfigSpace) (bus slot : Nat) : Prop :=
  (space bus slot 0 12 >>> 16).toUInt8 &&& 0x80 ≠ 0

instance (space : ConfigSpace) (bus slot : Nat) : Decidable (Multifunction space bus slot) :=
  inferInstanceAs (Decidable (_ ≠ _))

/-- The device a function describes. -/
def deviceOf (space : ConfigSpace) (bus slot func : Nat) : PciDevice where
  bus := bus
  slot := slot
  func := func
  vendorId := (space bus slot func 0).toUInt16
  deviceId := (space bus slot func 0 >>> 16).toUInt16
  classCode := (space bus slot func 8 >>> 24).toUInt8
  subclass := (space bus slot func 8 >>> 16).toUInt8
  progIf := (space bus slot func 8 >>> 8).toUInt8
  headerType := (space bus slot func 12 >>> 16).toUInt8

/-- The functions of a slot that count. -/
def functions (space : ConfigSpace) (bus slot : Nat) : List Nat :=
  if ¬ Present space bus slot 0 then []
  else if Multifunction space bus slot then
    0 :: [1, 2, 3, 4, 5, 6, 7].filter (Present space bus slot ·)
  else [0]

/-- All devices, in the order of their addresses. -/
def allDevices (space : ConfigSpace) : List PciDevice :=
  (List.range 256).flatMap fun bus => (List.range 32).flatMap fun slot =>
    (functions space bus slot).map (deviceOf space bus slot)

/-! ## The loops -/

/-- The table holds the first 64 of the devices. -/
structure Lists (space : ConfigSpace) (t : PciTable) (devices : List PciDevice) : Prop where
  space_eq : t.bridge.space = space
  devices_eq : t.devices = devices.take MAX_PCI_DEVICES

theorem Lists.bridge {space : ConfigSpace} {t : PciTable} {devices : List PciDevice}
    (h : Lists space t devices) {b : PciBridge} (hb : b.space = space) :
    Lists space { t with bridge := b } devices := ⟨hb, h.devices_eq⟩

theorem Lists.read {space : ConfigSpace} {t : PciTable} {devices : List PciDevice}
    (h : Lists space t devices) {bus slot func : Nat} (hbus : bus < 256) (hslot : slot < 32)
    (hfunc : func < 8) (offset : UInt32) :
    (t.bridge.pciConfigRead bus slot func offset).1 =
      space bus slot func (offset &&& 0xFC).toNat := by
  rw [PciBridge.pciConfigRead_eq _ hbus hslot hfunc, h.space_eq]

/-- A function that is there is entered, if there is room. -/
theorem Lists.pciAddDevice {space : ConfigSpace} {t : PciTable} {devices : List PciDevice}
    (h : Lists space t devices) {bus slot func : Nat} (hbus : bus < 256) (hslot : slot < 32)
    (hfunc : func < 8) (hpresent : Present space bus slot func) :
    Lists space (t.pciAddDevice bus slot func)
      (devices ++ [deviceOf space bus slot func]) := by
  have hid := h.read hbus hslot hfunc PCI_VENDOR_ID
  have hclass := (h.bridge h.space_eq).read hbus hslot hfunc PCI_CLASS
  unfold PciTable.pciAddDevice
  split
  · rename_i hfull
    refine ⟨h.space_eq, ?_⟩
    rw [h.devices_eq, List.length_take] at hfull
    rw [h.devices_eq, List.take_append_of_le_length (by omega)]
  · rename_i hroom
    have hshort : devices.length < MAX_PCI_DEVICES := by
      rw [h.devices_eq, List.length_take] at hroom
      omega
    have hfits : (devices ++ [deviceOf space bus slot func]).length ≤
        MAX_PCI_DEVICES := by simpa using hshort
    have hvendor : (t.bridge.pciConfigRead bus slot func PCI_VENDOR_ID).1.toUInt16 ≠ 0xFFFF := by
      rw [hid]
      exact hpresent
    rw [if_neg hvendor]
    refine ⟨h.space_eq, ?_⟩
    rw [List.take_of_length_le hfits, h.devices_eq, List.take_of_length_le hshort.le]
    simp only [deviceOf, hid,
      PciBridge.pciConfigRead_eq _ hbus hslot hfunc, PciBridge.space_pciConfigRead, h.space_eq]
    rfl

theorem flatMap_ite {α β : Type} (p : α → Prop) [DecidablePred p] (f : α → β) (l : List α) :
    (l.flatMap fun a => if p a then [f a] else []) = (l.filter (p ·)).map f := by
  induction l with
  | nil => rfl
  | cons a l ih => by_cases ha : p a <;> simp [ha, ih]

/-- A loop adds what its rounds add. -/
theorem Lists.foldl {space : ConfigSpace} {ι : Type} {t : PciTable} {devices : List PciDevice}
    (h : Lists space t devices) (step : PciTable → ι → PciTable) (add : ι → List PciDevice)
    (items : List ι)
    (hstep : ∀ t devices i, i ∈ items → Lists space t devices →
      Lists space (step t i) (devices ++ add i)) :
    Lists space (items.foldl step t) (devices ++ items.flatMap add) := by
  induction items generalizing t devices with
  | nil => simpa using h
  | cons i items ih =>
      have hnext := hstep t devices i List.mem_cons_self h
      have hrest := ih hnext fun t devices j hj => hstep t devices j (List.mem_cons_of_mem i hj)
      rw [List.flatMap_cons, ← List.append_assoc]
      exact hrest

theorem Lists.probeFunc {space : ConfigSpace} {t : PciTable} {devices : List PciDevice}
    (h : Lists space t devices) {bus slot func : Nat} (hbus : bus < 256) (hslot : slot < 32)
    (hfunc : func < 8) :
    Lists space (PciTable.probeFunc bus slot t func)
      (devices ++ if Present space bus slot func then
        [deviceOf space bus slot func] else []) := by
  have hid : (t.bridge.pciConfigRead bus slot func PCI_VENDOR_ID).1 = space bus slot func 0 :=
    h.read hbus hslot hfunc PCI_VENDOR_ID
  have hread := h.bridge (b := (t.bridge.pciConfigRead bus slot func PCI_VENDOR_ID).2) h.space_eq
  unfold PciTable.probeFunc
  dsimp only
  rw [hid]
  by_cases hpresent : Present space bus slot func
  · rw [if_pos hpresent, if_pos (show (space bus slot func 0).toUInt16 ≠ 0xFFFF from hpresent)]
    exact hread.pciAddDevice hbus hslot hfunc hpresent
  · rw [if_neg hpresent, List.append_nil,
      if_neg (show ¬ (space bus slot func 0).toUInt16 ≠ 0xFFFF from hpresent)]
    exact hread

theorem Lists.probeSlot {space : ConfigSpace} {t : PciTable} {devices : List PciDevice}
    (h : Lists space t devices) {bus slot : Nat} (hbus : bus < 256) (hslot : slot < 32) :
    Lists space (PciTable.probeSlot bus t slot)
      (devices ++ (functions space bus slot).map (deviceOf space bus slot)) := by
  have hid : (t.bridge.pciConfigRead bus slot 0 PCI_VENDOR_ID).1 = space bus slot 0 0 :=
    h.read hbus hslot (by decide) PCI_VENDOR_ID
  have hread := h.bridge (b := (t.bridge.pciConfigRead bus slot 0 PCI_VENDOR_ID).2) h.space_eq
  unfold PciTable.probeSlot
  dsimp only
  rw [hid]
  by_cases hpresent : Present space bus slot 0
  · rw [if_neg (show ¬ (space bus slot 0 0).toUInt16 = 0xFFFF from hpresent)]
    have hfirst := hread.pciAddDevice hbus hslot (by decide) hpresent
    generalize PciTable.pciAddDevice _ bus slot 0 = t₁ at hfirst ⊢
    have hhdr : (t₁.bridge.pciConfigRead bus slot 0 PCI_HEADER_TYPE).1 = space bus slot 0 12 :=
      hfirst.read hbus hslot (by decide) PCI_HEADER_TYPE
    have hnext := hfirst.bridge (b := (t₁.bridge.pciConfigRead bus slot 0 PCI_HEADER_TYPE).2)
      hfirst.space_eq
    rw [hhdr]
    by_cases hmulti : Multifunction space bus slot
    · rw [if_pos (show (space bus slot 0 12 >>> 16).toUInt8 &&& 0x80 ≠ 0 from hmulti)]
      have hfuncs : ∀ func ∈ [1, 2, 3, 4, 5, 6, 7], func < 8 := by decide
      have hrest := hnext.foldl (PciTable.probeFunc bus slot) _ [1, 2, 3, 4, 5, 6, 7]
        fun t devices func hfunc h => h.probeFunc hbus hslot (hfuncs func hfunc)
      rw [flatMap_ite, List.append_assoc] at hrest
      simpa [functions, hpresent, hmulti] using hrest
    · rw [if_neg (show ¬ (space bus slot 0 12 >>> 16).toUInt8 &&& 0x80 ≠ 0 from hmulti)]
      simpa [functions, hpresent, hmulti] using hnext
  · rw [if_pos (show (space bus slot 0 0).toUInt16 = 0xFFFF from not_not.mp hpresent)]
    simpa [functions, hpresent] using hread

theorem Lists.probeBuses {space : ConfigSpace} {t : PciTable} (h : Lists space t [])
    (buses slots : List Nat) (hbuses : ∀ bus ∈ buses, bus < 256)
    (hslots : ∀ slot ∈ slots, slot < 32) :
    Lists space (buses.foldl (fun t bus => slots.foldl (PciTable.probeSlot bus) t) t)
      (buses.flatMap fun bus => slots.flatMap fun slot =>
        (functions space bus slot).map (deviceOf space bus slot)) := by
  have hbus := h.foldl (fun t bus => slots.foldl (PciTable.probeSlot bus) t)
    (fun bus => slots.flatMap fun slot =>
      (functions space bus slot).map (deviceOf space bus slot)) buses
    fun t devices bus hbus h => h.foldl (PciTable.probeSlot bus) _ slots
      fun t devices slot hslot h => h.probeSlot (hbuses bus hbus) (hslots slot hslot)
  rwa [List.nil_append] at hbus

/-- **The table is the first 64 devices there are.** Whatever the functions on the bus show, the
    table holds the devices of the functions that are there, in the order of bus, slot and
    function, with the functions past the first of a slot only where its header announces them,
    and ends after 64. -/
theorem pciInit_finds (bridge : PciBridge) :
    (pciInit bridge).devices = (allDevices bridge.space).take MAX_PCI_DEVICES := by
  have hstart : Lists bridge.space ⟨bridge, []⟩ [] := ⟨rfl, rfl⟩
  have hall := hstart.probeBuses (List.range 256) (List.range 32)
    (fun _ => List.mem_range.mp) (fun _ => List.mem_range.mp)
  unfold pciInit allDevices
  exact hall.devices_eq

end PciTable

end NemoOS
