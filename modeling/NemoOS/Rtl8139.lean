import Mathlib

/-!
# The receive ring of the RTL8139

`rtl8139_poll` of `drivers/rtl8139.cpp`, and the records the card stores in the receive
buffer. A record is a status word, a length word that counts the payload and a checksum
of four bytes, the payload and the checksum; the next record starts at the next multiple
of four.

The driver takes the length of the checksum off the length word before it advances, so
that after a frame it looks four bytes in front of the next record. The first frame is
returned as it was received. What the next call returns depends on the last four bytes
in front of the record it should read (`polls_decode`).

Registers of the card that the driver only writes at initialisation are left out.
-/

namespace NemoOS

/-! ## The driver -/

def RX_BUF_SIZE : Nat := 8192

/-- The receive buffer and `rx_offset`, and the card's registers `0x3A` and `0x38`. -/
structure Nic where
  initialized : Bool
  rxBuffer : Nat → UInt8
  rxOffset : Nat
  cbr : Nat
  capr : Nat

/-- The value, the bytes stored to `buf` and the new `*len`. -/
structure PollResult where
  ret : Int
  bytes : List UInt8
  len : Nat
deriving DecidableEq, Repr

/-- A `uint16_t` in the buffer. -/
def word16 (rx : Nat → UInt8) (offset : Nat) : Nat :=
  (rx offset).toNat + 256 * (rx (offset + 1)).toNat

namespace Nic

def rtl8139Poll (nic : Nic) (len : Nat) : PollResult × Nic :=
  if !nic.initialized then (⟨-1, [], len⟩, nic)
  else if nic.rxOffset ≥ nic.cbr then (⟨0, [], len⟩, nic)
  else
    let rxStatus := word16 nic.rxBuffer nic.rxOffset
    let rxSize := word16 nic.rxBuffer (nic.rxOffset + 2) % 0x4000
    if rxStatus % 2 = 0 then (⟨0, [], len⟩, nic)
    else if rxSize < 4 then (⟨0, [], len⟩, nic)
    else
      let rxSize := if rxSize - 4 > len % 0x10000 then len % 0x10000 else rxSize - 4
      let offset := (nic.rxOffset + rxSize + 4 + 3) / 4 * 4
      (⟨1, (List.range rxSize).map fun j => nic.rxBuffer (nic.rxOffset + 4 + j), rxSize⟩,
        { nic with rxOffset := offset, capr := (offset + 0x10000 - 16) % 0x10000 })

/-- The results of `n` successive calls with a buffer of 1600 bytes. -/
def polls (nic : Nic) : Nat → List PollResult
  | 0 => []
  | n + 1 => (nic.rtl8139Poll 1600).1 :: (nic.rtl8139Poll 1600).2.polls n

end Nic

/-! ## The card -/

/-- A frame as the card stores it. -/
structure RxFrame where
  status : Nat
  payload : List UInt8
  crc : List UInt8
  status_lt : status < 0x10000
  received : status % 2 = 1
  length_le : payload.length ≤ 1600
  crc_length : crc.length = 4

namespace RxFrame

def header (f : RxFrame) : List UInt8 :=
  [UInt8.ofNat f.status, UInt8.ofNat (f.status / 256), UInt8.ofNat (f.payload.length + 4),
    UInt8.ofNat ((f.payload.length + 4) / 256)]

def record (f : RxFrame) : List UInt8 := f.header ++ f.payload ++ f.crc

/-- The position of the record after the one at `offset`. -/
def next (f : RxFrame) (offset : Nat) : Nat := (offset + f.record.length + 3) / 4 * 4

end RxFrame

/-- The records of the frames lie one after the other from `offset` to `last`. -/
def Stored (rx : Nat → UInt8) (offset : Nat) : List RxFrame → Nat → Prop
  | [], last => last = offset
  | f :: fs, last =>
      (∀ j < f.record.length, rx (offset + j) = f.record.getD j 0) ∧ Stored rx (f.next offset) fs last

/-- The frames that the driver has not read yet lie between its offset and the card's,
    without wrapping around. -/
structure Pending (nic : Nic) (frames : List RxFrame) : Prop where
  initialized : nic.initialized = true
  aligned : nic.rxOffset % 4 = 0
  no_wrap : nic.cbr ≤ RX_BUF_SIZE
  stored : Stored nic.rxBuffer nic.rxOffset frames nic.cbr

/-- Successive calls return the payloads in order, and then 0. -/
def Decodes (nic : Nic) (frames : List RxFrame) : Prop :=
  nic.polls (frames.length + 1) =
    frames.map (fun f => ⟨1, f.payload, f.payload.length⟩) ++ [⟨0, [], 1600⟩]

/-- The bytes at the offset would be taken for the header of a record. -/
def looksLikeRecord (rx : Nat → UInt8) (offset : Nat) : Bool :=
  word16 rx offset % 2 == 1 && decide (4 ≤ word16 rx (offset + 2) % 0x4000)

/-- No frame is pending, or one is and the four bytes in front of the end of its record
    are not taken for a header. -/
def AtMostOne (nic : Nic) (frames : List RxFrame) : Prop :=
  frames = [] ∨ ∃ f, frames = [f] ∧ looksLikeRecord nic.rxBuffer (nic.cbr - 4) = false

/-! ## One call -/

namespace Nic

variable {nic : Nic}

theorem rtl8139Poll_empty (hinit : nic.initialized = true) (hend : nic.cbr ≤ nic.rxOffset)
    (len : Nat) : nic.rtl8139Poll len = (⟨0, [], len⟩, nic) := by
  rw [rtl8139Poll, hinit, Bool.not_true, if_neg Bool.false_ne_true, if_pos hend]

theorem rtl8139Poll_noRecord (hinit : nic.initialized = true) (hlt : nic.rxOffset < nic.cbr)
    (hnone : looksLikeRecord nic.rxBuffer nic.rxOffset = false) (len : Nat) :
    nic.rtl8139Poll len = (⟨0, [], len⟩, nic) := by
  rw [rtl8139Poll, hinit, Bool.not_true, if_neg Bool.false_ne_true, if_neg (by omega)]
  dsimp only
  split
  · rfl
  · rename_i hstatus
    rw [looksLikeRecord, Bool.and_eq_false_iff, beq_eq_false_iff_ne, decide_eq_false_iff_not] at hnone
    rw [if_pos (by omega)]

/-- A record is there: its bytes are copied up to the length of the buffer. -/
theorem rtl8139Poll_record (hinit : nic.initialized = true) (hlt : nic.rxOffset < nic.cbr)
    (hrecord : looksLikeRecord nic.rxBuffer nic.rxOffset = true) (len : Nat)
    (hlen : len < 0x10000) {size : Nat}
    (hsize : size = min (word16 nic.rxBuffer (nic.rxOffset + 2) % 0x4000 - 4) len) :
    nic.rtl8139Poll len =
      (⟨1, (List.range size).map fun j => nic.rxBuffer (nic.rxOffset + 4 + j), size⟩,
        { nic with
          rxOffset := (nic.rxOffset + size + 4 + 3) / 4 * 4
          capr := ((nic.rxOffset + size + 4 + 3) / 4 * 4 + 0x10000 - 16) % 0x10000 }) := by
  rw [looksLikeRecord, Bool.and_eq_true, beq_iff_eq, decide_eq_true_eq] at hrecord
  have hcap : (if word16 nic.rxBuffer (nic.rxOffset + 2) % 0x4000 - 4 > len % 0x10000 then
      len % 0x10000 else word16 nic.rxBuffer (nic.rxOffset + 2) % 0x4000 - 4) = size := by
    rw [Nat.mod_eq_of_lt hlen, hsize]
    split <;> omega
  rw [rtl8139Poll, hinit, Bool.not_true, if_neg Bool.false_ne_true, if_neg (by omega)]
  dsimp only
  rw [if_neg (by omega), if_neg (by omega), hcap]

end Nic

/-! ## One record -/

section stored

variable {rx : Nat → UInt8} {offset last : Nat} {f : RxFrame} {fs : List RxFrame}

theorem RxFrame.record_length (f : RxFrame) : f.record.length = f.payload.length + 8 := by
  rw [RxFrame.record, List.length_append, List.length_append, f.crc_length, RxFrame.header]
  simp only [List.length_cons, List.length_nil]
  omega

theorem Stored.offset_le (h : Stored rx offset fs last) : offset ≤ last := by
  induction fs generalizing offset with
  | nil =>
      obtain rfl : last = offset := h
      exact Nat.le_refl _
  | cons f fs ih =>
      have hle := ih h.2
      rw [RxFrame.next, f.record_length] at hle
      omega

theorem Stored.offset_lt (h : Stored rx offset (f :: fs) last) : offset < last := by
  have hle := Stored.offset_le h.2
  rw [RxFrame.next, f.record_length] at hle
  omega

theorem Stored.byte (h : Stored rx offset (f :: fs) last) {j : Nat} (hj : j < f.payload.length + 8) :
    rx (offset + j) = f.record.getD j 0 := by
  apply h.1
  rw [f.record_length]
  exact hj

theorem Stored.status (h : Stored rx offset (f :: fs) last) : word16 rx offset = f.status := by
  have hlow : rx offset = UInt8.ofNat f.status := h.byte (j := 0) (by omega)
  have hhigh : rx (offset + 1) = UInt8.ofNat (f.status / 256) := h.byte (j := 1) (by omega)
  have hlt := f.status_lt
  rw [word16, hlow, hhigh, UInt8.toNat_ofNat', UInt8.toNat_ofNat']
  omega

theorem Stored.length (h : Stored rx offset (f :: fs) last) :
    word16 rx (offset + 2) = f.payload.length + 4 := by
  have hlow : rx (offset + 2) = UInt8.ofNat (f.payload.length + 4) := h.byte (j := 2) (by omega)
  have hhigh : rx (offset + 2 + 1) = UInt8.ofNat ((f.payload.length + 4) / 256) :=
    h.byte (j := 3) (by omega)
  have hle := f.length_le
  rw [word16, hlow, hhigh, UInt8.toNat_ofNat', UInt8.toNat_ofNat']
  omega

theorem Stored.looksLikeRecord (h : Stored rx offset (f :: fs) last) :
    looksLikeRecord rx offset = true := by
  have hle := f.length_le
  rw [NemoOS.looksLikeRecord, h.status, h.length, f.received, Bool.and_eq_true,
    decide_eq_true_eq]
  exact ⟨rfl, by omega⟩

/-- What `n` bytes from the start of the record are, and what the payload is. -/
theorem Stored.map_record (h : Stored rx offset (f :: fs) last) {n : Nat}
    (hn : n ≤ f.payload.length + 8) :
    ((List.range n).map fun j => rx (offset + j)) = f.record.take n := by
  apply List.ext_getElem
  · rw [List.length_map, List.length_range, List.length_take, f.record_length]
    omega
  · intro j hj hj'
    rw [List.length_map, List.length_range] at hj
    rw [List.getElem_map, List.getElem_range, List.getElem_take, h.byte (by omega),
      List.getD_eq_getElem]

theorem Stored.map_payload (h : Stored rx offset (f :: fs) last) :
    ((List.range f.payload.length).map fun j => rx (offset + 4 + j)) = f.payload := by
  apply List.ext_getElem
  · rw [List.length_map, List.length_range]
  · intro j hj hj'
    rw [List.length_map, List.length_range] at hj
    have hget : f.record.getD (4 + j) 0 = f.payload[j] := by
      rw [RxFrame.record, List.append_assoc, List.getD_append_right _ _ _ _ (by simp [RxFrame.header])]
      have hindex : 4 + j - f.header.length = j := by
        simp [RxFrame.header]
      rw [hindex, List.getD_append _ _ _ _ hj, List.getD_eq_getElem _ _ hj]
    rw [List.getElem_map, List.getElem_range, Nat.add_assoc, h.byte (by omega), hget]

end stored

/-! ## Successive calls -/

/-- The first pending frame is returned as it was received. The driver's offset is then
    four bytes in front of the next record. -/
theorem Pending.poll_first {nic : Nic} {f : RxFrame} {fs : List RxFrame}
    (h : Pending nic (f :: fs)) :
    ∃ nic' : Nic, nic.rtl8139Poll 1600 = (⟨1, f.payload, f.payload.length⟩, nic') ∧
      nic'.initialized = true ∧ nic'.rxOffset + 4 = f.next nic.rxOffset ∧
      nic'.rxBuffer = nic.rxBuffer ∧ nic'.cbr = nic.cbr := by
  have haligned := h.aligned
  have hle := f.length_le
  have hsize : f.payload.length = min (word16 nic.rxBuffer (nic.rxOffset + 2) % 0x4000 - 4) 1600 := by
    rw [h.stored.length]
    omega
  have hpoll := Nic.rtl8139Poll_record h.initialized h.stored.offset_lt h.stored.looksLikeRecord
    1600 (by decide) hsize
  rw [h.stored.map_payload] at hpoll
  refine ⟨_, hpoll, h.initialized, ?_, rfl, rfl⟩
  dsimp only
  rw [RxFrame.next, f.record_length]
  omega

theorem decodes_nil {nic : Nic} (h : Pending nic []) : Decodes nic [] := by
  have hend : nic.cbr = nic.rxOffset := h.stored
  rw [Decodes, List.length_nil, Nic.polls,
    Nic.rtl8139Poll_empty h.initialized (Nat.le_of_eq hend)]
  rfl

theorem decodes_single_iff {nic : Nic} {f : RxFrame} (h : Pending nic [f]) :
    Decodes nic [f] ↔ looksLikeRecord nic.rxBuffer (nic.cbr - 4) = false := by
  obtain ⟨nic', hfirst, hinit, hoffset, hbuffer, hcbr⟩ := h.poll_first
  have hlast : nic.cbr = f.next nic.rxOffset := h.stored.2
  have hlt : nic'.rxOffset < nic'.cbr := by omega
  have hposition : nic.cbr - 4 = nic'.rxOffset := by omega
  rw [hposition, ← hbuffer, Decodes, List.length_singleton, Nic.polls, hfirst, Nic.polls]
  constructor
  · intro hdecodes
    by_contra hrecord
    rw [Bool.not_eq_false] at hrecord
    have hpoll := Nic.rtl8139Poll_record hinit hlt hrecord 1600 (by decide) rfl
    rw [hpoll] at hdecodes
    simp at hdecodes
  · intro hnone
    rw [Nic.rtl8139Poll_noRecord hinit hlt hnone]
    rfl

/-- With a second frame pending, the second call returns at best the bytes from the
    header of that frame's record on. -/
theorem Decodes.payload_repeats {nic : Nic} {f g : RxFrame} {fs : List RxFrame}
    (h : Pending nic (f :: g :: fs)) (hdecodes : Decodes nic (f :: g :: fs)) :
    g.payload <+: g.record := by
  obtain ⟨nic', hfirst, hinit, hoffset, hbuffer, hcbr⟩ := h.poll_first
  have hstored : Stored nic'.rxBuffer (nic'.rxOffset + 4) (g :: fs) nic'.cbr := by
    rw [hoffset, hbuffer, hcbr]
    exact h.stored.2
  have hlt : nic'.rxOffset < nic'.cbr := by
    have hoffset_lt := hstored.offset_lt
    omega
  rw [Decodes, List.length_cons, List.length_cons, Nic.polls, hfirst, Nic.polls] at hdecodes
  cases hrecord : looksLikeRecord nic'.rxBuffer nic'.rxOffset with
  | false =>
      rw [Nic.rtl8139Poll_noRecord hinit hlt hrecord] at hdecodes
      simp at hdecodes
  | true =>
      have hpoll := Nic.rtl8139Poll_record hinit hlt hrecord 1600 (by decide) rfl
      rw [hpoll] at hdecodes
      simp only [List.map_cons, List.cons_append, List.cons.injEq, PollResult.mk.injEq,
        true_and] at hdecodes
      obtain ⟨⟨hbytes, hsize⟩, -⟩ := hdecodes
      rw [hsize, hstored.map_record (by omega)] at hbytes
      rw [← hbytes]
      exact List.take_prefix _ _

/-- **What the driver decodes.** If no frame is pending, or a single one whose last four
    bytes in the ring are not taken for a header, successive calls return the payloads in
    order and then 0. Conversely, unless a payload repeats the header of its own record,
    they do so in no other case. -/
theorem polls_decode {nic : Nic} {frames : List RxFrame} (h : Pending nic frames) :
    (AtMostOne nic frames → Decodes nic frames) ∧
      ((∀ f ∈ frames, ¬ f.payload <+: f.record) → Decodes nic frames → AtMostOne nic frames) := by
  constructor
  · rintro (rfl | ⟨f, rfl, hnone⟩)
    · exact decodes_nil h
    · exact (decodes_single_iff h).mpr hnone
  · intro hclean hdecodes
    match frames with
    | [] => exact Or.inl rfl
    | [f] => exact Or.inr ⟨f, rfl, (decodes_single_iff h).mp hdecodes⟩
    | f :: g :: fs =>
        have hrepeats := Decodes.payload_repeats h hdecodes
        exact absurd hrepeats (hclean g (List.mem_cons_of_mem f List.mem_cons_self))

/-- The card after it has received the frames into an empty ring. -/
def nicOf (frames : List RxFrame) : Nic where
  initialized := true
  rxBuffer x := (frames.flatMap fun f =>
    f.record ++ List.replicate ((4 - f.payload.length % 4) % 4) 0).getD x 0
  rxOffset := 0
  cbr := frames.foldl (fun offset f => f.next offset) 0
  capr := 0

/-- A frame of four bytes. -/
def shortFrame : RxFrame :=
  ⟨1, [1, 2, 3, 4], [0, 0, 0, 0], by decide, by decide, by decide, by decide⟩

theorem polls_decode_single :
    Pending (nicOf [shortFrame]) [shortFrame] ∧ Decodes (nicOf [shortFrame]) [shortFrame] := by
  have hpending : Pending (nicOf [shortFrame]) [shortFrame] :=
    ⟨rfl, rfl, by decide, by decide, rfl⟩
  exact ⟨hpending, (polls_decode hpending).1 (Or.inr ⟨shortFrame, rfl, by decide⟩)⟩

/-- With two frames pending the second call returns 0. -/
theorem polls_not_decode_two :
    ¬ ∀ (nic : Nic) (frames : List RxFrame), Pending nic frames → Decodes nic frames := by
  intro h
  have hpending : Pending (nicOf [shortFrame, shortFrame]) [shortFrame, shortFrame] :=
    ⟨rfl, rfl, by decide, by decide, by decide, rfl⟩
  have hdecodes := h _ _ hpending
  revert hdecodes
  rw [Decodes]
  decide

end NemoOS
