import Mathlib
import NemoOS.Icmp
import NemoOS.Lib.DescriptorRing
import NemoOS.Lib.Runs

/-!
# Sending frames

`rtl8139_send_packet` of `drivers/rtl8139.cpp` and the card it hands its frames to. The card has
four descriptors, each with the address of a buffer and the length of the frame in it. Writing
the length gives the descriptor to the card; the card takes the descriptors in turn, sends what
the buffer of the next one holds at that time and gives the descriptor back.

The driver goes round the descriptors as well, and never looks whether the card is done with the
one it is about to use. It works in three steps, between which the card may send: the frame is
copied, then the address is written, then the length.
-/

namespace NemoOS

open Descriptors Transition

/-- The four buffers and `tx_cur` of the driver; the registers, the next descriptor and the
    frames sent of the card. `tsad` has the number of the buffer an address is of. -/
structure Transmitter where
  txBuffer : Nat → List UInt8
  txCur : Nat
  tsad : Nat → Nat
  tsd : Nat → Nat
  given : Nat → Bool
  current : Nat
  wire : List (List UInt8)

namespace Transmitter

/-- After `rtl8139_init_one`. -/
def initial : Transmitter where
  txBuffer := fun _ => List.replicate TX_BUF_SIZE 0
  txCur := 0
  tsad := fun _ => 0
  tsd := fun _ => 0
  given := fun _ => false
  current := 0
  wire := []

/-- `memcpy(priv->tx_buffer[priv->tx_cur], data, len)`. -/
def copy (t : Transmitter) (data : List UInt8) : Transmitter :=
  { t with
    txBuffer := Function.update t.txBuffer t.txCur
      (data ++ (t.txBuffer t.txCur).drop data.length) }

/-- `rtl_write32(dev, RTL_TSAD0 + priv->tx_cur * 4, tx_addr)`. -/
def address (t : Transmitter) : Transmitter :=
  { t with tsad := Function.update t.tsad t.txCur t.txCur }

/-- `rtl_write32(dev, RTL_TSD0 + priv->tx_cur * 4, len)`, and the next descriptor. -/
def start (t : Transmitter) (len : Nat) : Transmitter :=
  { t with
    tsd := Function.update t.tsd t.txCur len
    given := Function.update t.given t.txCur true
    txCur := (t.txCur + 1) % 4 }

/-- `rtl8139_send_packet` for a device that is there. -/
def sendPacket (t : Transmitter) (data : List UInt8) : Int × Transmitter :=
  if data.length = 0 ∨ TX_BUF_SIZE < data.length then (-1, t)
  else (data.length, ((t.copy data).address).start data.length)

/-- What the card reads for a descriptor. -/
def frameAt (t : Transmitter) (i : Nat) : List UInt8 := (t.txBuffer (t.tsad i)).take (t.tsd i)

/-- The card sends the frame of its next descriptor, if it was given that. -/
def transmit (t : Transmitter) : Transmitter :=
  if t.given t.current then
    { t with
      wire := t.wire ++ [t.frameAt t.current]
      given := Function.update t.given t.current false
      current := (t.current + 1) % 4 }
  else t

/-! ## As a ring of descriptors -/

/-- The frames that are with the card. -/
def ring (t : Transmitter) : DescriptorRing (List UInt8) where
  slots := fun i => if t.given i then some (t.frameAt i) else none
  producer := t.txCur
  consumer := t.current

theorem ring_transmit (t : Transmitter) :
    (t.transmit.ring, t.transmit.wire) =
      ((t.ring.take 4).2, t.wire ++ (t.ring.take 4).1.toList) := by
  by_cases hgiven : t.given t.current = true
  · have hslot : t.ring.slots t.ring.consumer = some (t.frameAt t.current) := by
      simp [ring, hgiven]
    have hslots : t.transmit.ring.slots =
        Function.update t.ring.slots t.current none := by
      funext i
      by_cases hi : i = t.current
      · simp [ring, transmit, hgiven, hi]
      · simp [ring, transmit, hgiven, hi, frameAt]
    rw [DescriptorRing.take_of_some hslot]
    refine Prod.ext ?_ (by simp [transmit, hgiven])
    have heq : t.transmit.ring = ⟨t.transmit.ring.slots, t.txCur, (t.current + 1) % 4⟩ := by
      simp [ring, transmit, hgiven]
    rw [heq, hslots]
    rfl
  · have hslot : t.ring.slots t.ring.consumer = none := by simp [ring, hgiven]
    rw [DescriptorRing.take_of_none hslot]
    simp [transmit, hgiven]

/-- Every address register of a given descriptor is that of its own buffer. -/
def OwnBuffers (t : Transmitter) : Prop := ∀ i, t.given i = true → t.tsad i = i

/-- The parts of a call whose descriptor the card does not have leave its frames alone. -/
theorem ring_copy {t : Transmitter} (h : t.OwnBuffers) (hfree : t.given t.txCur = false)
    (data : List UInt8) : (t.copy data).ring = t.ring := by
  have hslots : (t.copy data).ring.slots = t.ring.slots := by
    funext i
    by_cases hgiven : t.given i = true
    · have hne : t.tsad i ≠ t.txCur := by
        rw [h i hgiven]
        rintro rfl
        simp [hfree] at hgiven
      simp [ring, copy, frameAt, hgiven, Function.update_of_ne hne]
    · simp [ring, copy, hgiven]
  have heq : (t.copy data).ring = ⟨(t.copy data).ring.slots, t.txCur, t.current⟩ := rfl
  rw [heq, hslots]
  rfl

theorem ring_address {t : Transmitter} (hfree : t.given t.txCur = false) :
    t.address.ring = t.ring := by
  have hslots : t.address.ring.slots = t.ring.slots := by
    funext i
    by_cases hi : i = t.txCur
    · simp [ring, address, hi, hfree]
    · simp [ring, address, frameAt, hi]
  have heq : t.address.ring = ⟨t.address.ring.slots, t.txCur, t.current⟩ := rfl
  rw [heq, hslots]
  rfl

/-- Writing the length puts the frame into the ring. -/
theorem ring_start {t : Transmitter} {data : List UInt8} {len : Nat}
    (hdata : (t.txBuffer (t.tsad t.txCur)).take len = data) :
    (t.start len).ring = t.ring.put 4 data := by
  have hslots : (t.start len).ring.slots =
      Function.update t.ring.slots t.txCur (some data) := by
    funext i
    by_cases hi : i = t.txCur
    · simp [ring, start, frameAt, hi, hdata]
    · simp [ring, start, frameAt, hi]
  have heq : (t.start len).ring =
      ⟨(t.start len).ring.slots, (t.txCur + 1) % 4, t.current⟩ := rfl
  rw [heq, hslots]
  rfl

theorem OwnBuffers.transmit {t : Transmitter} (h : t.OwnBuffers) : t.transmit.OwnBuffers := by
  intro i hi
  unfold Transmitter.transmit at hi ⊢
  split at hi
  · by_cases hcur : i = t.current
    · simp [hcur] at hi
    · simp only [Function.update_of_ne hcur] at hi
      simpa [*] using h i hi
  · simpa [*] using h i hi

/-- A whole call, with no step of the card in between, puts its frame into the ring, whether or
    not the card is done with the descriptor. -/
theorem ring_sendPacket {t : Transmitter} (h : t.OwnBuffers) {data : List UInt8}
    (hdata : data.length ≠ 0 ∧ data.length ≤ TX_BUF_SIZE) :
    (t.sendPacket data).2.ring = t.ring.put 4 data ∧ (t.sendPacket data).2.OwnBuffers ∧
      (t.sendPacket data).2.wire = t.wire := by
  have hvalid : ¬ (data.length = 0 ∨ TX_BUF_SIZE < data.length) := by omega
  rw [sendPacket, if_neg hvalid]
  refine ⟨?_, ?_, rfl⟩
  · have hslots : ((t.copy data).address.start data.length).ring.slots =
        Function.update t.ring.slots t.txCur (some data) := by
      funext i
      by_cases hi : i = t.txCur
      · simp [ring, start, address, copy, frameAt, hi]
      · by_cases hgiven : t.given i = true
        · have hne : t.tsad i ≠ t.txCur := by rwa [h i hgiven]
          simp [ring, start, address, copy, frameAt, hi, hgiven, Function.update_of_ne hne]
        · simp [ring, start, address, copy, hi, hgiven]
    have heq : ((t.copy data).address.start data.length).ring =
        ⟨((t.copy data).address.start data.length).ring.slots, (t.txCur + 1) % 4, t.current⟩ :=
      rfl
    rw [heq, hslots]
    rfl
  · intro i hi
    by_cases hcur : i = t.txCur
    · simp [start, address, copy, hcur]
    · have hgiven : t.given i = true := by simpa [start, address, copy, hcur] using hi
      simpa [start, address, copy, hcur] using h i hgiven

/-! ## The card left to itself -/

theorem wire_transmit (t : Transmitter) :
    t.transmit.wire = t.wire ++ (t.ring.take 4).1.toList :=
  congrArg Prod.snd (ring_transmit t)

theorem ring_transmit_eq (t : Transmitter) : t.transmit.ring = (t.ring.take 4).2 :=
  congrArg Prod.fst (ring_transmit t)

/-- The card sends the queue, whatever the lag of the driver, and then waits. -/
theorem drain {lag : Nat} {queue : List (List UInt8)} (k : Nat) (t : Transmitter)
    (hk : queue.length ≤ k) (h : t.ring.Holds 4 lag queue) :
    (transmit^[k] t).wire = t.wire ++ queue ∧ (transmit^[k] t).ring.Holds 4 lag [] := by
  induction k generalizing t queue with
  | zero =>
      obtain rfl := List.length_eq_zero_iff.mp (Nat.le_zero.mp hk)
      simpa using h
  | succ k ih =>
      rw [Function.iterate_succ_apply]
      cases queue with
      | nil =>
          have hring : t.transmit.ring.Holds 4 lag [] := by
            rw [ring_transmit_eq, h.take_nil]
            exact h
          have hwire : t.transmit.wire = t.wire := by simp [wire_transmit, h.take_nil]
          rw [← hwire]
          exact ih t.transmit (Nat.zero_le k) hring
      | cons frame queue =>
          obtain ⟨hfirst, hrest⟩ := h.take_cons
          have hwire : t.transmit.wire = t.wire ++ [frame] := by simp [wire_transmit, hfirst]
          obtain ⟨hwire', hring'⟩ := ih t.transmit (Nat.le_of_succ_le_succ hk)
            (ring_transmit_eq t ▸ hrest)
          exact ⟨by rw [hwire', hwire, List.append_assoc, List.singleton_append], hring'⟩

theorem OwnBuffers.iterate {t : Transmitter} (h : t.OwnBuffers) (k : Nat) :
    (Transmitter.transmit^[k] t).OwnBuffers := by
  induction k generalizing t with
  | zero => exact h
  | succ k ih => exact ih h.transmit

/-- A card that waits goes on waiting. -/
theorem Waiting.iterate {t : Transmitter} {later : List (List UInt8)}
    (h : t.ring.Waiting 4 later) (k : Nat) :
    (transmit^[k] t).ring.Waiting 4 later ∧ (transmit^[k] t).wire = t.wire := by
  induction k generalizing t with
  | zero => exact ⟨h, rfl⟩
  | succ k ih =>
      have hring : t.transmit.ring.Waiting 4 later := by
        rw [ring_transmit_eq, h.take]
        exact h
      have hwire : t.transmit.wire = t.wire := by simp [wire_transmit, h.take]
      rw [Function.iterate_succ_apply, ← hwire]
      exact ih hring

end Transmitter

/-! ## Calls and the card, interleaved -/

/-- Where the driver is in `rtl8139_send_packet`. -/
inductive SendPhase where
  | outside
  | copied (data : List UInt8)
  | addressed (data : List UInt8)

/-- The frame of the call that is going on. -/
def SendPhase.frames : SendPhase → List (List UInt8)
  | .outside => []
  | .copied data => [data]
  | .addressed data => [data]

/-- Driver and card, with the frames of all calls that were not refused. -/
structure Sending where
  tx : Transmitter
  phase : SendPhase
  sent : List (List UInt8)

inductive SendEvent where
  | call (data : List UInt8)
  | writeAddress
  | writeLength
  | transmit

namespace Sending

def initial : Sending := ⟨Transmitter.initial, .outside, []⟩

def exec (s : Sending) : SendEvent → Sending
  | .call data =>
      match s.phase with
      | .outside =>
          if data.length = 0 ∨ TX_BUF_SIZE < data.length then s
          else ⟨s.tx.copy data, .copied data, s.sent ++ [data]⟩
      | _ => s
  | .writeAddress =>
      match s.phase with
      | .copied data => { s with tx := s.tx.address, phase := .addressed data }
      | _ => s
  | .writeLength =>
      match s.phase with
      | .addressed data => { s with tx := s.tx.start data.length, phase := .outside }
      | _ => s
  | .transmit => { s with tx := s.tx.transmit }

/-- A call finds that the card is done with the descriptor. -/
def Ok (s : Sending) : SendEvent → Prop
  | .call _ => s.tx.given s.tx.txCur = false
  | _ => True

/-- What is copied so far. -/
def Prepared (t : Transmitter) : SendPhase → Prop
  | .outside => True
  | .copied data =>
      t.given t.txCur = false ∧ (t.txBuffer t.txCur).take data.length = data
  | .addressed data =>
      t.given t.txCur = false ∧ (t.txBuffer t.txCur).take data.length = data ∧
        t.tsad t.txCur = t.txCur

/-- The frames of all calls are, in their order, those sent, those with the card and that of the
    call going on. -/
structure InOrder (s : Sending) (queue : List (List UInt8)) : Prop where
  holds : s.tx.ring.Holds 4 0 queue
  own : s.tx.OwnBuffers
  sent_eq : s.sent = s.tx.wire ++ queue ++ s.phase.frames
  prepared : Prepared s.tx s.phase

theorem inOrder_initial : InOrder initial [] where
  holds :=
    { consumer_lt := by decide
      length_le := by decide
      producer_eq := rfl
      slots_eq := fun i _ => by simp [Sending.initial, Transmitter.initial, Transmitter.ring] }
  own := fun i hi => by simp [Sending.initial, Transmitter.initial] at hi
  sent_eq := rfl
  prepared := trivial

theorem InOrder.call {s : Sending} {queue : List (List UInt8)} (h : InOrder s queue)
    (data : List UInt8) (hfree : s.tx.given s.tx.txCur = false) :
    InOrder (s.exec (.call data)) queue := by
  obtain ⟨t, phase, sent⟩ := s
  cases phase with
  | copied other => exact h
  | addressed other => exact h
  | outside =>
      by_cases hvalid : data.length = 0 ∨ TX_BUF_SIZE < data.length
      · have hexec : exec ⟨t, .outside, sent⟩ (.call data) = ⟨t, .outside, sent⟩ := if_pos hvalid
        rw [hexec]
        exact h
      · have hsent : sent = t.wire ++ queue := by simpa [SendPhase.frames] using h.sent_eq
        have hexec : exec ⟨t, .outside, sent⟩ (.call data) =
            ⟨t.copy data, .copied data, sent ++ [data]⟩ := if_neg hvalid
        rw [hexec]
        refine ⟨?_, h.own, ?_, hfree, ?_⟩
        · exact (Transmitter.ring_copy h.own hfree data).symm ▸ h.holds
        · simp [hsent, SendPhase.frames, Transmitter.copy]
        · simp [Transmitter.copy]

theorem InOrder.writeAddress {s : Sending} {queue : List (List UInt8)} (h : InOrder s queue) :
    InOrder (s.exec .writeAddress) queue := by
  obtain ⟨t, phase, sent⟩ := s
  cases phase with
  | outside => exact h
  | addressed data => exact h
  | copied data =>
      obtain ⟨hfree, hdata⟩ : t.given t.txCur = false ∧
        (t.txBuffer t.txCur).take data.length = data := h.prepared
      refine ⟨?_, ?_, h.sent_eq, hfree, hdata, ?_⟩
      · exact (Transmitter.ring_address hfree).symm ▸ h.holds
      · intro i hi
        by_cases hcur : i = t.txCur
        · simp [exec, Transmitter.address, hcur]
        · simpa [exec, Transmitter.address, hcur] using h.own i hi
      · simp [exec, Transmitter.address]

theorem InOrder.writeLength {s : Sending} {queue : List (List UInt8)} (h : InOrder s queue) :
    ∃ queue', InOrder (s.exec .writeLength) queue' := by
  obtain ⟨t, phase, sent⟩ := s
  cases phase with
  | outside => exact ⟨queue, h⟩
  | copied data => exact ⟨queue, h⟩
  | addressed data =>
      obtain ⟨hfree, hdata, haddress⟩ : t.given t.txCur = false ∧
        (t.txBuffer t.txCur).take data.length = data ∧ t.tsad t.txCur = t.txCur := h.prepared
      have hslot : t.ring.slots t.ring.producer = none := by simp [Transmitter.ring, hfree]
      have hring : (t.start data.length).ring = t.ring.put 4 data :=
        Transmitter.ring_start (haddress.symm ▸ hdata)
      refine ⟨queue ++ [data], ?_, ?_, ?_, trivial⟩
      · exact hring.symm ▸ h.holds.put (h.holds.length_lt hslot) data
      · intro i hi
        by_cases hcur : i = t.txCur
        · simpa [exec, Transmitter.start, hcur] using haddress
        · have hgiven : t.given i = true := by simpa [exec, Transmitter.start, hcur] using hi
          simpa [exec, Transmitter.start] using h.own i hgiven
      · simpa [exec, SendPhase.frames, Transmitter.start] using h.sent_eq

theorem Prepared.transmit {t : Transmitter} {phase : SendPhase} (h : Prepared t phase) :
    Prepared t.transmit phase := by
  have hgiven : t.given t.txCur = false → t.transmit.given t.transmit.txCur = false := by
    intro hfree
    unfold Transmitter.transmit
    split
    · by_cases hcur : t.txCur = t.current
      · simp [hcur]
      · simpa [hcur] using hfree
    · exact hfree
  have hkept : t.transmit.txBuffer = t.txBuffer ∧ t.transmit.txCur = t.txCur ∧
      t.transmit.tsad = t.tsad := by
    unfold Transmitter.transmit
    split <;> exact ⟨rfl, rfl, rfl⟩
  cases phase with
  | outside => trivial
  | copied data =>
      refine ⟨hgiven h.1, ?_⟩
      rw [hkept.1, hkept.2.1]
      exact h.2
  | addressed data =>
      refine ⟨hgiven h.1, ?_⟩
      rw [hkept.1, hkept.2.1, hkept.2.2]
      exact h.2

theorem InOrder.transmit {s : Sending} {queue : List (List UInt8)} (h : InOrder s queue) :
    ∃ queue', InOrder (s.exec .transmit) queue' := by
  have hring := Transmitter.ring_transmit_eq s.tx
  have hwire := Transmitter.wire_transmit s.tx
  cases queue with
  | nil =>
      rw [h.holds.take_nil] at hring hwire
      refine ⟨[], hring ▸ h.holds, h.own.transmit, ?_, h.prepared.transmit⟩
      simpa [exec, hwire] using h.sent_eq
  | cons frame queue =>
      obtain ⟨hfirst, hrest⟩ := h.holds.take_cons
      rw [hfirst] at hwire
      refine ⟨queue, hring ▸ hrest, h.own.transmit, ?_, h.prepared.transmit⟩
      simpa [exec, hwire] using h.sent_eq

theorem InOrder.step {s : Sending} {queue : List (List UInt8)} (h : InOrder s queue)
    (event : SendEvent) (hok : Ok s event) : ∃ queue', InOrder (s.exec event) queue' := by
  cases event with
  | call data => exact ⟨queue, h.call data hok⟩
  | writeAddress => exact ⟨queue, h.writeAddress⟩
  | writeLength => exact h.writeLength
  | transmit => exact h.transmit

/-- The runs in which every call finds the card done with its descriptor. -/
abbrev InTime (events : List SendEvent) (s : Sending) : Prop :=
  Run (Guarded Ok (Deterministic exec)) initial events s

theorem inOrder_of_inTime {events : List SendEvent} {s : Sending} (h : InTime events s) :
    ∃ queue, InOrder s queue := by
  refine h.invariant (fun s => ∃ queue, InOrder s queue) ⟨[], inOrder_initial⟩ ?_
  rintro a event b ⟨queue, hinv⟩ ⟨hok, rfl⟩
  exact hinv.step event hok

/-- **Frames go out in order.** Whatever the card does between the steps of a call, if every call
    finds it done with its descriptor, then the frames sent are the first of those of the calls,
    none changed, and after at most four more the card has sent them all. -/
theorem wire_in_order {events : List SendEvent} {s : Sending} (h : InTime events s) :
    (∃ rest, s.tx.wire ++ rest = s.sent ∧ rest.length ≤ 5) ∧
      (s.phase = .outside → (Transmitter.transmit^[4] s.tx).wire = s.sent) := by
  obtain ⟨queue, hinv⟩ := inOrder_of_inTime h
  have hlen := hinv.holds.length_le
  refine ⟨⟨queue ++ s.phase.frames, by rw [hinv.sent_eq, List.append_assoc], ?_⟩, ?_⟩
  · have hcall : s.phase.frames.length ≤ 1 := by cases s.phase <;> simp [SendPhase.frames]
    rw [List.length_append]
    omega
  · intro houtside
    have hsent := hinv.sent_eq
    rw [houtside, SendPhase.frames, List.append_nil] at hsent
    rw [(Transmitter.drain 4 s.tx hlen hinv.holds).1, hsent]

/-- Every event of the list is in time. -/
def AllOk : Sending → List SendEvent → Prop
  | _, [] => True
  | s, event :: events => Ok s event ∧ AllOk (s.exec event) events

theorem run_of_allOk {s : Sending} {events : List SendEvent} (h : AllOk s events) :
    Run (Guarded Ok (Deterministic exec)) s events (events.foldl exec s) := by
  induction events generalizing s with
  | nil => exact .nil
  | cons event events ih => exact Run.cons ⟨h.1, rfl⟩ (ih h.2)

/-- Two calls, with the card sending in the middle of the second. -/
def twoCalls : List SendEvent :=
  [.call [1], .writeAddress, .writeLength, .call [2, 3], .transmit, .writeAddress, .writeLength]

theorem wire_in_order_two :
    InTime twoCalls (twoCalls.foldl exec initial) ∧
      (Transmitter.transmit^[4] (twoCalls.foldl exec initial).tx).wire = [[1], [2, 3]] := by
  have hrun : InTime twoCalls (twoCalls.foldl exec initial) :=
    run_of_allOk ⟨rfl, trivial, trivial, rfl, trivial, trivial, trivial, trivial⟩
  exact ⟨hrun, (wire_in_order hrun).2 rfl⟩

/-! ## One frame too many -/

/-- A call, and then `k` turns of the card. -/
def sendAndWait (t : Transmitter) (data : List UInt8) (k : Nat) : Transmitter :=
  Transmitter.transmit^[k] (t.sendPacket data).2

/-- A frame `rtl8139_send_packet` takes. -/
def Valid (data : List UInt8) : Prop := data.length ≠ 0 ∧ data.length ≤ TX_BUF_SIZE

/-- While the card waits for a descriptor, the frames of the next ones wait with it. -/
theorem sendAndWait_waiting {t : Transmitter} {later : List (List UInt8)} {data : List UInt8}
    (hown : t.OwnBuffers) (h : t.ring.Waiting 4 later) (hroom : later.length + 1 < 4)
    (hvalid : Valid data) (k : Nat) :
    (sendAndWait t data k).ring.Waiting 4 (later ++ [data]) ∧
      (sendAndWait t data k).OwnBuffers ∧ (sendAndWait t data k).wire = t.wire := by
  obtain ⟨hring, hown', hwire⟩ := Transmitter.ring_sendPacket hown hvalid
  obtain ⟨hwaiting, hkept⟩ := Transmitter.Waiting.iterate (hring ▸ h.put hroom data) k
  exact ⟨hwaiting, hown'.iterate k, hkept.trans hwire⟩

/-- Four frames, with the turns of the card after each. -/
structure FourFrames where
  first : List UInt8
  second : List UInt8
  third : List UInt8
  fourth : List UInt8
  turns : Nat × Nat × Nat × Nat

namespace FourFrames

structure Valid (x : FourFrames) : Prop where
  first : Sending.Valid x.first
  second : Sending.Valid x.second
  third : Sending.Valid x.third
  fourth : Sending.Valid x.fourth
  -- the card has caught up in the end
  turns : 4 ≤ x.turns.2.2.2

/-- The calls for the first three. -/
def sendThree (t : Transmitter) (x : FourFrames) : Transmitter :=
  sendAndWait (sendAndWait (sendAndWait t x.first x.turns.1) x.second x.turns.2.1) x.third
    x.turns.2.2.1

def send (t : Transmitter) (x : FourFrames) : Transmitter :=
  sendAndWait (sendThree t x) x.fourth x.turns.2.2.2

/-- The last one first. -/
def reordered (x : FourFrames) : List (List UInt8) := [x.fourth, x.first, x.second, x.third]

/-- One round with the driver a descriptor ahead: nothing is sent before the fourth frame, which
    goes out first, and the driver is a descriptor ahead again. -/
theorem Valid.send {t : Transmitter} {x : FourFrames} (hx : x.Valid) (hown : t.OwnBuffers)
    (h : t.ring.Holds 4 1 []) :
    (sendThree t x).wire = t.wire ∧ (FourFrames.send t x).wire = t.wire ++ x.reordered ∧
      (FourFrames.send t x).OwnBuffers ∧ (FourFrames.send t x).ring.Holds 4 1 [] := by
  obtain ⟨hwait₁, hown₁, hwire₁⟩ :=
    sendAndWait_waiting hown h.waiting (by simp) hx.first x.turns.1
  obtain ⟨hwait₂, hown₂, hwire₂⟩ :=
    sendAndWait_waiting hown₁ hwait₁ (by simp) hx.second x.turns.2.1
  obtain ⟨hwait₃, hown₃, hwire₃⟩ :=
    sendAndWait_waiting hown₂ hwait₂ (by simp) hx.third x.turns.2.2.1
  have hstill : (sendThree t x).wire = t.wire := hwire₃.trans (hwire₂.trans hwire₁)
  obtain ⟨hring, hown₄, hwire₄⟩ := Transmitter.ring_sendPacket hown₃ hx.fourth
  have hholds : ((sendThree t x).sendPacket x.fourth).2.ring.Holds 4 1 x.reordered :=
    hring ▸ hwait₃.put_last rfl x.fourth
  obtain ⟨hsent, hempty⟩ := Transmitter.drain x.turns.2.2.2 _
    (show x.reordered.length ≤ x.turns.2.2.2 from hx.turns) hholds
  exact ⟨hstill, hsent.trans (congrArg (· ++ _) (hwire₄.trans hstill)), hown₄.iterate _, hempty⟩

/-- Any number of rounds. -/
theorem send_rounds {rounds : List FourFrames} (hrounds : ∀ x ∈ rounds, x.Valid)
    {t : Transmitter} (hown : t.OwnBuffers) (h : t.ring.Holds 4 1 []) :
    (rounds.foldl FourFrames.send t).wire = t.wire ++ rounds.flatMap reordered ∧
      (rounds.foldl FourFrames.send t).OwnBuffers ∧
      (rounds.foldl FourFrames.send t).ring.Holds 4 1 [] := by
  induction rounds generalizing t with
  | nil => simpa using ⟨hown, h⟩
  | cons x rounds ih =>
      obtain ⟨-, hwire, hown', hempty⟩ := (hrounds x List.mem_cons_self).send hown h
      obtain ⟨hrest, hlast⟩ := ih (fun y hy => hrounds y (List.mem_cons_of_mem _ hy)) hown' hempty
      refine ⟨?_, hlast⟩
      rw [List.foldl_cons, hrest, hwire, List.flatMap_cons, List.append_assoc]

end FourFrames

/-- **One frame too many.** A call that finds all four descriptors with the card replaces the
    oldest frame. When the card has caught up, the driver is one descriptor ahead of it: of every
    four frames that follow, for as many rounds of four as there are in which the card catches
    up, the first three are not sent, however long it is given, and the fourth goes out before
    them. -/
theorem overrun_reorders {events : List SendEvent} {s : Sending} (hrun : InTime events s)
    (houtside : s.phase = .outside) (hfull : s.tx.given s.tx.txCur = true)
    {e : List UInt8} (he : Valid e) {rounds : List FourFrames} (hrounds : ∀ x ∈ rounds, x.Valid)
    {x : FourFrames} (hx : x.Valid) :
    ∃ a b c d, s.sent = s.tx.wire ++ [a, b, c, d] ∧
      (rounds.foldl FourFrames.send (sendAndWait s.tx e 4)).wire =
        s.tx.wire ++ [e, b, c, d] ++ rounds.flatMap FourFrames.reordered ∧
      (FourFrames.sendThree (rounds.foldl FourFrames.send (sendAndWait s.tx e 4)) x).wire =
        (rounds.foldl FourFrames.send (sendAndWait s.tx e 4)).wire := by
  obtain ⟨queue, hinv⟩ := inOrder_of_inTime hrun
  have hlen : queue.length = 4 := by
    refine le_antisymm hinv.holds.length_le (not_lt.mp fun hlt => ?_)
    have hat := hinv.holds.slots_eq queue.length hlt
    have hproducer : s.tx.ring.producer = (s.tx.ring.consumer + queue.length) % 4 :=
      hinv.holds.producer_eq
    rw [← hproducer, List.getElem?_eq_none le_rfl] at hat
    simp [Transmitter.ring, hfull] at hat
  obtain ⟨a, b, c, d, rfl⟩ : ∃ a b c d, queue = [a, b, c, d] := List.length_eq_four.mp hlen
  have hsent := hinv.sent_eq
  rw [houtside, SendPhase.frames, List.append_nil] at hsent
  -- the fifth frame takes the place of the first
  obtain ⟨hring, hown, hwire⟩ := Transmitter.ring_sendPacket hinv.own he
  obtain ⟨hdrained, hempty⟩ := Transmitter.drain 4 (s.tx.sendPacket e).2 le_rfl
    (hring ▸ hinv.holds.put_full rfl e)
  have hcaught : (sendAndWait s.tx e 4).wire = s.tx.wire ++ [e, b, c, d] := by
    rw [sendAndWait, hdrained, hwire]
  -- from here on the card stands one descriptor behind the driver
  obtain ⟨hwire', hown', hempty'⟩ :=
    FourFrames.send_rounds hrounds (t := sendAndWait s.tx e 4) (hown.iterate 4) hempty
  exact ⟨a, b, c, d, hsent, by rw [hwire', hcaught], (hx.send hown' hempty').1⟩

/-- Four calls, before the card has sent anything. -/
def fourCalls : List SendEvent :=
  [[1], [2], [3], [4]].flatMap fun data => [.call data, .writeAddress, .writeLength]

/-- The frames 6 to 9, with no turn of the card before the last. -/
def fourMore : FourFrames := ⟨[6], [7], [8], [9], 0, 0, 0, 4⟩

theorem overrun_reorders_four :
    ∃ a b c d, (fourCalls.foldl exec initial).sent =
        (fourCalls.foldl exec initial).tx.wire ++ [a, b, c, d] ∧
      ([fourMore].foldl FourFrames.send
          (sendAndWait (fourCalls.foldl exec initial).tx [5] 4)).wire =
        (fourCalls.foldl exec initial).tx.wire ++ [[5], b, c, d] ++ [[9], [6], [7], [8]] := by
  have hrun : InTime fourCalls (fourCalls.foldl exec initial) :=
    run_of_allOk ⟨rfl, trivial, trivial, rfl, trivial, trivial, rfl, trivial, trivial, rfl,
      trivial, trivial, trivial⟩
  have hvalid (x : UInt8) : Valid [x] := ⟨by simp, by simp [TX_BUF_SIZE]⟩
  have hmore : fourMore.Valid := ⟨hvalid 6, hvalid 7, hvalid 8, hvalid 9, le_rfl⟩
  obtain ⟨a, b, c, d, hsent, hwire, -⟩ := overrun_reorders hrun rfl rfl (hvalid 5)
    (List.forall_mem_singleton.mpr hmore) hmore
  exact ⟨a, b, c, d, hsent, hwire⟩

end Sending

end NemoOS
