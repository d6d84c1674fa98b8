import Mathlib
import NemoOS.Icmp
import NemoOS.PciDevices
import NemoOS.Rtl8139

/-!
# Setting up the network cards

`rtl8139_init_one` and `rtl8139_init_all` of `drivers/rtl8139.cpp`. A card takes six blocks from
the heap: its `rtl_priv`, the ring for what it receives, and four buffers for what it sends. Any
of the six may be refused, and those before it are then given back.

Of the heap there is only what it has given out. A refused block may be given later, and a block
that was given back may be given again; a call of `kfree` for a block that is not given out is
recorded. The results are for heaps that never give out a block twice (`HeapAnswers.Fresh`). The
kernel's own heap is one as long as its `kfree` merges with free blocks only
(`HeapRun.payloads_safe`), which it does not always do: nothing here is about runs of it in which a
live block was merged.
-/

namespace NemoOS

def RTL8139_MAX_DEVICES : Nat := 4
def RTL8139_VENDOR : UInt16 := 0x10EC
def RTL8139_DEVICE : UInt16 := 0x8139

def CR_RST : UInt8 := 0x10
def CR_RE : UInt8 := 0x08
def CR_TE : UInt8 := 0x04

/-- What the heap answers: the number of the call, what is given out, and the size. -/
abbrev HeapAnswers := Nat → List Nat → Nat → Option Nat

/-- A block is given to one owner at a time. -/
def HeapAnswers.Fresh (answers : HeapAnswers) : Prop :=
  ∀ call live size block, answers call live size = some block → block ∉ live

structure Ledger where
  calls : Nat
  live : List Nat
  spoiled : Bool

namespace Ledger

def kmalloc (answers : HeapAnswers) (l : Ledger) (size : Nat) : Option Nat × Ledger :=
  (answers l.calls l.live size,
    { l with calls := l.calls + 1, live := (answers l.calls l.live size).toList ++ l.live })

def kfree (l : Ledger) (block : Nat) : Ledger :=
  if block ∈ l.live then { l with live := l.live.erase block } else { l with spoiled := true }

end Ledger

/-- The registers of a card, and for how many readings it shows that it is being reset. -/
structure NicCard where
  bar : UInt32
  resetReads : Nat
  idr : List UInt8
  cr : UInt8
  rbstart : Nat
  imr : UInt16
  rcr : UInt32
  tcr : UInt32

/-- An `rtl_priv`, at `block`. -/
structure RtlPriv where
  block : Nat
  rxBuffer : Nat
  txBuffer : List Nat
  txCur : Nat
  rxOffset : Nat

/-- An `rtl8139_dev` that is initialized, with its `rtl_priv`. -/
structure RtlDevice where
  ioBase : Nat
  mac : List UInt8
  priv : RtlPriv

/-- The blocks of a card. -/
def RtlDevice.blocks (d : RtlDevice) : List Nat :=
  d.priv.block :: d.priv.rxBuffer :: d.priv.txBuffer

namespace NicSetup

/-- The loop that waits for the reset with `left` rounds to go: those left when it ends. -/
def waitReset : Nat → Nat → Nat
  | 0, _ => 0
  | left + 1, 0 => left + 1
  | left + 1, reads + 1 => waitReset left reads

/-- The loop over the transmit buffers with `left` to go. On failure those before are freed. -/
def txBuffers (answers : HeapAnswers) : Nat → List Nat → Ledger → Option (List Nat) × Ledger
  | 0, got, l => (some got, l)
  | left + 1, got, l =>
      match l.kmalloc answers TX_BUF_SIZE with
      | (none, l) => (none, got.foldl Ledger.kfree l)
      | (some block, l) => txBuffers answers left (got ++ [block]) l

/-- The registers written once there is a ring to receive into. -/
def startCard (card : NicCard) (rxBuffer : Nat) : NicCard :=
  { card with
    rbstart := rxBuffer, imr := 0x0005, rcr := 0x00000F0F, tcr := 0, cr := CR_TE ||| CR_RE }

/-- `rtl8139_init_one`: the device if it returns 0. -/
def rtl8139InitOne (answers : HeapAnswers) (card : NicCard) (l : Ledger) :
    Option RtlDevice × NicCard × Ledger :=
  if card.bar = 0 then (none, card, l)
  else
    let card := { card with cr := CR_RST }
    if waitReset 1000 card.resetReads = 0 then (none, card, l)
    else
      let card := { card with cr := 0 }
      match l.kmalloc answers 28 with
      | (none, l) => (none, card, l)
      | (some block, l) =>
          match l.kmalloc answers (RX_BUF_SIZE + 16) with
          | (none, l) => (none, card, l.kfree block)
          | (some rxBuffer, l) =>
              let card := startCard card rxBuffer
              match txBuffers answers 4 [] l with
              | (none, l) => (none, card, (l.kfree rxBuffer).kfree block)
              | (some txBuffer, l) =>
                  (some ⟨(card.bar &&& 0xFFFC).toNat, card.idr, ⟨block, rxBuffer, txBuffer, 0, 0⟩⟩,
                    card, l)

/-- The cards that are set up, and the heap. -/
structure Setup where
  nics : List RtlDevice
  ledger : Ledger

/-- A round of the loop of `rtl8139_init_all`, which ends when there are four cards. -/
def initNext (answers : HeapAnswers) (cards : PciDevice → NicCard) (s : Setup) (d : PciDevice) :
    Setup :=
  if s.nics.length < RTL8139_MAX_DEVICES ∧ d.vendorId = RTL8139_VENDOR ∧
      d.deviceId = RTL8139_DEVICE then
    let r := rtl8139InitOne answers (cards d) s.ledger
    { nics := s.nics ++ r.1.toList, ledger := r.2.2 }
  else s

def rtl8139InitAll (answers : HeapAnswers) (cards : PciDevice → NicCard)
    (devices : List PciDevice) (l : Ledger) : Setup :=
  devices.foldl (initNext answers cards) ⟨[], l⟩

/-! ## What is given out -/

/-- Since `l₀` the blocks were given out and not given back, and no block was freed that was not
    given out. -/
structure Owes (l₀ l : Ledger) (blocks : List Nat) : Prop where
  live_perm : l.live.Perm (blocks ++ l₀.live)
  spoiled_eq : l.spoiled = l₀.spoiled
  nodup : l.live.Nodup

theorem Owes.refl {l : Ledger} (h : l.live.Nodup) : Owes l l [] := ⟨.refl _, rfl, h⟩

theorem Owes.perm {l₀ l : Ledger} {blocks blocks' : List Nat} (h : Owes l₀ l blocks)
    (hperm : blocks.Perm blocks') : Owes l₀ l blocks' :=
  ⟨h.live_perm.trans (hperm.append_right l₀.live), h.spoiled_eq, h.nodup⟩

section Heap

variable {answers : HeapAnswers} {l₀ l : Ledger} {blocks : List Nat}

theorem Owes.kmalloc_none (h : Owes l₀ l blocks) {size : Nat}
    (hnone : answers l.calls l.live size = none) :
    Owes l₀ (l.kmalloc answers size).2 blocks := by
  simpa [Ledger.kmalloc, hnone] using ⟨h.live_perm, h.spoiled_eq, h.nodup⟩

theorem Owes.kmalloc_some (hfresh : answers.Fresh) (h : Owes l₀ l blocks) {size block : Nat}
    (hsome : answers l.calls l.live size = some block) :
    Owes l₀ (l.kmalloc answers size).2 (block :: blocks) := by
  have hlive : (l.kmalloc answers size).2.live = block :: l.live := by
    simp [Ledger.kmalloc, hsome]
  refine ⟨?_, h.spoiled_eq, ?_⟩
  · rw [hlive]
    exact h.live_perm.cons block
  · rw [hlive]
    exact List.nodup_cons.mpr ⟨hfresh _ _ _ _ hsome, h.nodup⟩

theorem Owes.kfree {block : Nat} (h : Owes l₀ l (block :: blocks)) :
    Owes l₀ (l.kfree block) blocks := by
  have hmem : block ∈ l.live := h.live_perm.mem_iff.mpr (by simp)
  have hperm := h.live_perm.erase block
  rw [List.cons_append, List.erase_cons_head] at hperm
  rw [Ledger.kfree, if_pos hmem]
  exact ⟨hperm, h.spoiled_eq, h.nodup.erase block⟩

/-- Giving back a list of blocks. -/
theorem Owes.foldl_kfree {got : List Nat} (h : Owes l₀ l (got ++ blocks)) :
    Owes l₀ (got.foldl Ledger.kfree l) blocks := by
  induction got generalizing l with
  | nil => exact h
  | cons block got ih => exact ih (Owes.kfree h)

/-- The four buffers are all there, or none is kept. -/
theorem Owes.txBuffers (hfresh : answers.Fresh) (left : Nat) (got : List Nat)
    (h : Owes l₀ l (got ++ blocks)) :
    ((NicSetup.txBuffers answers left got l).1 = none →
      Owes l₀ (NicSetup.txBuffers answers left got l).2 blocks) ∧
    ∀ txs, (NicSetup.txBuffers answers left got l).1 = some txs →
      Owes l₀ (NicSetup.txBuffers answers left got l).2 (txs ++ blocks) ∧
        txs.length = got.length + left := by
  induction left generalizing got l with
  | zero =>
      refine ⟨fun hnone => by simp [NicSetup.txBuffers] at hnone, ?_⟩
      intro txs htxs
      obtain rfl : got = txs := by simpa [NicSetup.txBuffers] using htxs
      exact ⟨h, rfl⟩
  | succ left ih =>
      cases hanswer : answers l.calls l.live TX_BUF_SIZE with
      | none =>
          have hstep : NicSetup.txBuffers answers (left + 1) got l =
              (none, got.foldl Ledger.kfree (l.kmalloc answers TX_BUF_SIZE).2) := by
            simp [NicSetup.txBuffers, Ledger.kmalloc, hanswer]
          rw [hstep]
          exact ⟨fun _ => (h.kmalloc_none hanswer).foldl_kfree, by simp⟩
      | some block =>
          have hstep : NicSetup.txBuffers answers (left + 1) got l =
              NicSetup.txBuffers answers left (got ++ [block])
                (l.kmalloc answers TX_BUF_SIZE).2 := by
            simp [NicSetup.txBuffers, Ledger.kmalloc, hanswer]
          have hperm : (block :: (got ++ blocks)).Perm (got ++ [block] ++ blocks) := by
            rw [List.append_assoc]
            exact List.perm_middle.symm
          obtain ⟨hnone, hsome⟩ := ih (got ++ [block])
            ((h.kmalloc_some hfresh hanswer).perm hperm)
          rw [hstep]
          refine ⟨hnone, fun txs htxs => ⟨(hsome txs htxs).1, ?_⟩⟩
          rw [(hsome txs htxs).2, List.length_append, List.length_singleton]
          omega

end Heap

/-! ## One card -/

theorem waitReset_eq (left reads : Nat) : waitReset left reads = left - reads := by
  induction left generalizing reads with
  | zero => simp [waitReset]
  | succ left ih =>
      cases reads with
      | zero => rfl
      | succ reads => simp [waitReset, ih]

section InitOne

variable {answers : HeapAnswers} {card : NicCard} {l : Ledger}

/-- The heap after the first two calls of `kmalloc`. -/
def twoCalls (answers : HeapAnswers) (l : Ledger) : Ledger :=
  ((l.kmalloc answers 28).2.kmalloc answers (RX_BUF_SIZE + 16)).2

/-- The card is found and reset. -/
def Responds (card : NicCard) : Prop := card.bar ≠ 0 ∧ card.resetReads < 1000

theorem rtl8139InitOne_silent (h : ¬ Responds card) :
    (rtl8139InitOne answers card l).1 = none ∧ (rtl8139InitOne answers card l).2.2 = l := by
  unfold rtl8139InitOne
  split
  · exact ⟨rfl, rfl⟩
  · rename_i hbar
    have hslow : 1000 ≤ card.resetReads := not_lt.mp fun hlt => h ⟨hbar, hlt⟩
    simp [waitReset_eq, Nat.sub_eq_zero_of_le hslow]

theorem rtl8139InitOne_no_priv (h : Responds card)
    (hpriv : answers l.calls l.live 28 = none) :
    (rtl8139InitOne answers card l).1 = none ∧
      (rtl8139InitOne answers card l).2.2 = (l.kmalloc answers 28).2 := by
  have hreset : ¬ waitReset 1000 card.resetReads = 0 := by
    rw [waitReset_eq]
    exact Nat.sub_ne_zero_of_lt h.2
  simp [rtl8139InitOne, h.1, hreset, Ledger.kmalloc, hpriv]

theorem rtl8139InitOne_no_ring (h : Responds card) {block : Nat}
    (hpriv : answers l.calls l.live 28 = some block)
    (hrx : answers (l.calls + 1) (block :: l.live) (RX_BUF_SIZE + 16) = none) :
    (rtl8139InitOne answers card l).1 = none ∧
      (rtl8139InitOne answers card l).2.2 = (twoCalls answers l).kfree block := by
  have hreset : ¬ waitReset 1000 card.resetReads = 0 := by
    rw [waitReset_eq]
    exact Nat.sub_ne_zero_of_lt h.2
  simp [rtl8139InitOne, h.1, hreset, twoCalls, Ledger.kmalloc, hpriv, hrx]

/-- With a ring the card is started, before there are buffers to send from. -/
theorem rtl8139InitOne_ring (h : Responds card) {block rxBuffer : Nat}
    (hpriv : answers l.calls l.live 28 = some block)
    (hrx : answers (l.calls + 1) (block :: l.live) (RX_BUF_SIZE + 16) = some rxBuffer) :
    (rtl8139InitOne answers card l).2.1 = startCard { card with cr := 0 } rxBuffer ∧
      ((txBuffers answers 4 [] (twoCalls answers l)).1 = none →
        (rtl8139InitOne answers card l).1 = none ∧
        (rtl8139InitOne answers card l).2.2 =
          ((txBuffers answers 4 [] (twoCalls answers l)).2.kfree rxBuffer).kfree block) ∧
      ∀ txs, (txBuffers answers 4 [] (twoCalls answers l)).1 = some txs →
        (rtl8139InitOne answers card l).1 =
          some ⟨(card.bar &&& 0xFFFC).toNat, card.idr, ⟨block, rxBuffer, txs, 0, 0⟩⟩ ∧
        (rtl8139InitOne answers card l).2.2 =
          (txBuffers answers 4 [] (twoCalls answers l)).2 := by
  have hreset : ¬ waitReset 1000 card.resetReads = 0 := by
    rw [waitReset_eq]
    exact Nat.sub_ne_zero_of_lt h.2
  have htwo : twoCalls answers l =
      { l with calls := l.calls + 1 + 1, live := rxBuffer :: block :: l.live } := by
    simp [twoCalls, Ledger.kmalloc, hpriv, hrx]
  rw [htwo]
  simp only [rtl8139InitOne, h.1, if_false, hreset, Ledger.kmalloc, hpriv, hrx,
    Option.toList_some, List.singleton_append]
  cases hloop : txBuffers answers 4 []
      { l with calls := l.calls + 1 + 1, live := rxBuffer :: block :: l.live } with
  | mk result rest => cases result <;> simp [startCard]

/-- A card keeps its six blocks, or none. -/
theorem Owes.rtl8139InitOne (hfresh : answers.Fresh) (card : NicCard) {l₀ : Ledger}
    {blocks : List Nat} (h : Owes l₀ l blocks) :
    ((NicSetup.rtl8139InitOne answers card l).1 = none →
      Owes l₀ (NicSetup.rtl8139InitOne answers card l).2.2 blocks) ∧
    ∀ d, (NicSetup.rtl8139InitOne answers card l).1 = some d →
      Owes l₀ (NicSetup.rtl8139InitOne answers card l).2.2 (d.blocks ++ blocks) ∧
        d.priv.txBuffer.length = 4 := by
  by_cases hresponds : Responds card
  case neg =>
    have hsilent : (NicSetup.rtl8139InitOne answers card l).1 = none ∧
        (NicSetup.rtl8139InitOne answers card l).2.2 = l := rtl8139InitOne_silent hresponds
    rw [hsilent.1, hsilent.2]
    exact ⟨fun _ => h, by simp⟩
  cases hpriv : answers l.calls l.live 28 with
  | none =>
      obtain ⟨hnone, hledger⟩ := rtl8139InitOne_no_priv hresponds hpriv
      rw [hnone, hledger]
      exact ⟨fun _ => h.kmalloc_none hpriv, by simp⟩
  | some block =>
      have hone := h.kmalloc_some hfresh hpriv
      have hlive : (l.kmalloc answers 28).2.live = block :: l.live := by
        simp [Ledger.kmalloc, hpriv]
      cases hrx : answers (l.calls + 1) (block :: l.live) (RX_BUF_SIZE + 16) with
      | none =>
          obtain ⟨hnone, hledger⟩ := rtl8139InitOne_no_ring hresponds hpriv hrx
          rw [hnone, hledger]
          exact ⟨fun _ => (hone.kmalloc_none (hlive ▸ hrx)).kfree, by simp⟩
      | some rxBuffer =>
          obtain ⟨-, hfail, hdone⟩ := rtl8139InitOne_ring hresponds hpriv hrx
          have htwo : Owes l₀ (twoCalls answers l) (rxBuffer :: block :: blocks) :=
            hone.kmalloc_some hfresh (hlive ▸ hrx)
          obtain ⟨hnone, hsome⟩ := htwo.txBuffers hfresh 4 []
          cases htxs : (NicSetup.txBuffers answers 4 [] (twoCalls answers l)).1 with
          | none =>
              obtain ⟨hresult, hledger⟩ := hfail htxs
              rw [hresult, hledger]
              exact ⟨fun _ => (hnone htxs).kfree.kfree, by simp⟩
          | some txs =>
              obtain ⟨hresult, hledger⟩ := hdone txs htxs
              obtain ⟨howes, hlen⟩ := hsome txs htxs
              rw [hresult, hledger]
              refine ⟨by simp, ?_⟩
              rintro d hd
              obtain rfl := (Option.some.inj hd).symm
              refine ⟨howes.perm ?_, by simpa using hlen⟩
              have hswap : (txs ++ (rxBuffer :: block :: blocks)).Perm
                  (block :: rxBuffer :: (txs ++ blocks)) :=
                (List.perm_middle.trans (List.perm_middle.cons rxBuffer)).trans (.swap _ _ _)
              exact hswap

end InitOne

/-! ## All cards -/

theorem initNext_owes {answers : HeapAnswers} (hfresh : answers.Fresh)
    (cards : PciDevice → NicCard) {l₀ : Ledger} {s : Setup} (d : PciDevice)
    (h : Owes l₀ s.ledger (s.nics.flatMap RtlDevice.blocks))
    (hlen : s.nics.length ≤ RTL8139_MAX_DEVICES)
    (hfull : ∀ nic ∈ s.nics, nic.priv.txBuffer.length = 4) :
    Owes l₀ (initNext answers cards s d).ledger
        ((initNext answers cards s d).nics.flatMap RtlDevice.blocks) ∧
      (initNext answers cards s d).nics.length ≤ RTL8139_MAX_DEVICES ∧
      ∀ nic ∈ (initNext answers cards s d).nics, nic.priv.txBuffer.length = 4 := by
  unfold initNext
  split
  · rename_i hnext
    obtain ⟨hnone, hsome⟩ := h.rtl8139InitOne hfresh (cards d)
    cases hresult : (NicSetup.rtl8139InitOne answers (cards d) s.ledger).1 with
    | none => simpa [hresult] using ⟨hnone hresult, hlen, hfull⟩
    | some nic =>
        obtain ⟨howes, hbuffers⟩ := hsome nic hresult
        refine ⟨?_, by simpa [hresult] using hnext.1, ?_⟩
        · refine howes.perm ?_
          simpa [hresult] using List.perm_append_comm
        · intro other hother
          obtain hold | rfl : other ∈ s.nics ∨ other = nic := by simpa [hresult] using hother
          · exact hfull other hold
          · exact hbuffers
  · exact ⟨h, hlen, hfull⟩

/-- **No block is lost.** Whichever functions the table has, whichever cards answer and whichever
    calls of `kmalloc` are refused, the blocks given out by `rtl8139_init_all` are in the end
    those of the cards it lists, six for each of at most four, no two of them the same; no block
    is freed twice, and none that others hold. -/
theorem rtl8139InitAll_owes {answers : HeapAnswers} (hfresh : answers.Fresh)
    (cards : PciDevice → NicCard) (devices : List PciDevice) {l : Ledger}
    (hnodup : l.live.Nodup) :
    Owes l (rtl8139InitAll answers cards devices l).ledger
        ((rtl8139InitAll answers cards devices l).nics.flatMap RtlDevice.blocks) ∧
      (rtl8139InitAll answers cards devices l).nics.length ≤ RTL8139_MAX_DEVICES ∧
      ∀ nic ∈ (rtl8139InitAll answers cards devices l).nics, nic.blocks.length = 6 := by
  have hloop : ∀ (devices : List PciDevice) (s : Setup),
      Owes l s.ledger (s.nics.flatMap RtlDevice.blocks) → s.nics.length ≤ RTL8139_MAX_DEVICES →
      (∀ nic ∈ s.nics, nic.priv.txBuffer.length = 4) →
      Owes l (devices.foldl (initNext answers cards) s).ledger
          ((devices.foldl (initNext answers cards) s).nics.flatMap RtlDevice.blocks) ∧
        (devices.foldl (initNext answers cards) s).nics.length ≤ RTL8139_MAX_DEVICES ∧
        ∀ nic ∈ (devices.foldl (initNext answers cards) s).nics,
          nic.priv.txBuffer.length = 4 := by
    intro devices
    induction devices with
    | nil => exact fun s h hlen hfull => ⟨h, hlen, hfull⟩
    | cons d devices ih =>
        intro s h hlen hfull
        obtain ⟨h', hlen', hfull'⟩ := initNext_owes hfresh cards d h hlen hfull
        exact ih _ h' hlen' hfull'
  obtain ⟨howes, hlen, hfull⟩ := hloop devices ⟨[], l⟩ (Owes.refl hnodup) (Nat.zero_le _) (by simp)
  exact ⟨howes, hlen, fun nic hnic => by simp [RtlDevice.blocks, hfull nic hnic]⟩

/-- A heap that gives out one address after the other, and refuses the call numbered `refused`. -/
def countingHeap (refused : Nat) : HeapAnswers := fun call live _ =>
  if call = refused then none else some (live.sum + 1)

theorem countingHeap_fresh (refused : Nat) : (countingHeap refused).Fresh := by
  intro call live size block h hmem
  have hblock : live.sum + 1 = block := by
    unfold countingHeap at h
    split at h
    · simp at h
    · exact Option.some.inj h
  have := List.single_le_sum (fun x _ => Nat.zero_le x) block hmem
  omega

/-- A card that answers at once. -/
def promptCard : NicCard := ⟨0xC001, 0, [1, 2, 3, 4, 5, 6], 0, 0, 0, 0, 0⟩

/-- The function the card is found at. -/
def nicFunction (slot : Nat) : PciDevice :=
  ⟨0, slot, 0, RTL8139_VENDOR, RTL8139_DEVICE, 2, 0, 0, 0⟩

theorem rtl8139InitAll_owes_refused :
    Owes ⟨0, [7], false⟩
        (rtl8139InitAll (countingHeap 4) (fun _ => promptCard) [nicFunction 3, nicFunction 4]
          ⟨0, [7], false⟩).ledger
        ((rtl8139InitAll (countingHeap 4) (fun _ => promptCard) [nicFunction 3, nicFunction 4]
          ⟨0, [7], false⟩).nics.flatMap RtlDevice.blocks) :=
  (rtl8139InitAll_owes (countingHeap_fresh 4) (fun _ => promptCard)
    [nicFunction 3, nicFunction 4] (List.nodup_singleton 7)).1

/-! ## What the card may write to -/

/-- The ring a card receives into, by the bits 11 and 12 of `RCR`, with 16 bytes past its end. -/
def rxRingSize (rcr : UInt32) : Nat := 8192 * 2 ^ ((rcr >>> 11) &&& 3).toNat + 16

/-- Where a card that is enabled to receive stores what it receives: from where on, and how
    much. -/
def receives (card : NicCard) : Option (Nat × Nat) :=
  if card.cr &&& CR_RE = 0 then none else some (card.rbstart, rxRingSize card.rcr)

/-- The heap after `i` more calls of `kmalloc` for a transmit buffer. -/
def afterBuffers (answers : HeapAnswers) (l : Ledger) (i : Nat) : Ledger :=
  (fun l => (l.kmalloc answers TX_BUF_SIZE).2)^[i] l

/-- The loop fails if and only if one of its calls is refused. -/
theorem txBuffers_eq_none_iff {answers : HeapAnswers} (left : Nat) (got : List Nat) (l : Ledger) :
    (txBuffers answers left got l).1 = none ↔
      ∃ i < left, ((afterBuffers answers l i).kmalloc answers TX_BUF_SIZE).1 = none := by
  induction left generalizing got l with
  | zero => simp [txBuffers]
  | succ left ih =>
      rw [Nat.exists_lt_succ_left]
      cases hanswer : answers l.calls l.live TX_BUF_SIZE with
      | none => simp [txBuffers, afterBuffers, Ledger.kmalloc, hanswer]
      | some block =>
          have hstep : (txBuffers answers (left + 1) got l).1 =
              (txBuffers answers left (got ++ [block]) (l.kmalloc answers TX_BUF_SIZE).2).1 := by
            simp [txBuffers, Ledger.kmalloc, hanswer]
          have hfirst : ((afterBuffers answers l 0).kmalloc answers TX_BUF_SIZE).1 ≠ none := by
            simp [afterBuffers, Ledger.kmalloc, hanswer]
          rw [hstep, ih, or_iff_right hfirst]
          rfl

/-- **The card receives into memory that is not its own.** Once there is a ring, of 8208 bytes,
    the card is started and takes it to have 16400. `rtl8139_init_one` fails then if and only if a
    buffer to send from is refused, and the card is not stopped: the ring it has been told is
    given back, and is not among the blocks given out. Otherwise the ring is kept. -/
theorem rtl8139InitOne_receives_outside {answers : HeapAnswers} (hfresh : answers.Fresh)
    {card : NicCard} {l : Ledger} (hnodup : l.live.Nodup) (h : Responds card)
    {block rxBuffer : Nat} (hpriv : answers l.calls l.live 28 = some block)
    (hrx : answers (l.calls + 1) (block :: l.live) 8208 = some rxBuffer) :
    receives (rtl8139InitOne answers card l).2.1 = some (rxBuffer, 16400) ∧
      ((rtl8139InitOne answers card l).1 = none ↔
        ∃ i < 4, ((afterBuffers answers (twoCalls answers l) i).kmalloc answers
          TX_BUF_SIZE).1 = none) ∧
      ((rtl8139InitOne answers card l).1 = none →
        rxBuffer ∉ (rtl8139InitOne answers card l).2.2.live) ∧
      ∀ d, (rtl8139InitOne answers card l).1 = some d →
        d.priv.rxBuffer = rxBuffer ∧ rxBuffer ∈ (rtl8139InitOne answers card l).2.2.live := by
  obtain ⟨hcard, hfail, hdone⟩ := rtl8139InitOne_ring h hpriv hrx
  obtain ⟨hnone, hsome⟩ := (Owes.refl hnodup).rtl8139InitOne hfresh card
  have houtside : rxBuffer ∉ l.live := fun hmem =>
    hfresh _ _ _ _ hrx (List.mem_cons_of_mem block hmem)
  have hfailed : (rtl8139InitOne answers card l).1 = none ↔
      (txBuffers answers 4 [] (twoCalls answers l)).1 = none := by
    refine ⟨fun hresult => ?_, fun hloop => (hfail hloop).1⟩
    cases htxs : (txBuffers answers 4 [] (twoCalls answers l)).1 with
    | none => rfl
    | some txs => exact absurd (hresult.symm.trans (hdone txs htxs).1) (by simp)
  refine ⟨?_, hfailed.trans (txBuffers_eq_none_iff 4 [] _), ?_, ?_⟩
  · rw [hcard]
    have hreceives : receives (startCard { card with cr := 0 } rxBuffer) =
        some (rxBuffer, rxRingSize 0x00000F0F) :=
      if_neg (show ¬ (CR_TE ||| CR_RE) &&& CR_RE = 0 by decide)
    rw [hreceives, show rxRingSize 0x00000F0F = 16400 by decide]
  · intro hresult hmem
    exact houtside (by simpa using (hnone hresult).live_perm.mem_iff.mp hmem)
  · intro d hd
    have hring : d.priv.rxBuffer = rxBuffer := by
      cases htxs : (txBuffers answers 4 [] (twoCalls answers l)).1 with
      | none => exact absurd ((hfail htxs).1.symm.trans hd) (by simp)
      | some txs => rw [← Option.some.inj ((hdone txs htxs).1.symm.trans hd)]
    refine ⟨hring, (hsome d hd).1.live_perm.mem_iff.mpr ?_⟩
    simp [RtlDevice.blocks, hring]

theorem rtl8139InitOne_receives_outside_refused :
    (rtl8139InitOne (countingHeap 4) promptCard ⟨0, [7], false⟩).1 = none ∧
      receives (rtl8139InitOne (countingHeap 4) promptCard ⟨0, [7], false⟩).2.1 =
        some (16, 16400) ∧
      16 ∉ (rtl8139InitOne (countingHeap 4) promptCard ⟨0, [7], false⟩).2.2.live := by
  have hresponds : Responds promptCard := ⟨by decide, by decide⟩
  obtain ⟨hreceives, hfailed, hout, -⟩ := rtl8139InitOne_receives_outside (countingHeap_fresh 4)
    (l := ⟨0, [7], false⟩) (List.nodup_singleton 7) hresponds rfl rfl
  have hresult := hfailed.mpr ⟨2, by decide, by decide⟩
  exact ⟨hresult, hreceives, hout hresult⟩

end NicSetup

end NemoOS
