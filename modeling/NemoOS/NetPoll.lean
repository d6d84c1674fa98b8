import NemoOS.Rtl8139

/-!
# Polling the network

`net_poll` of `net/net.cpp`. The loop has one variable for the length of its buffer and
for the length of the frame it got, and does not set it again between two frames, so
that a frame is cut to the length of the shortest one before it. `netPoll_frames_iff`
compares what the handlers get with what calls with the whole buffer return.

The handlers themselves are named by their calls. The buffer keeps the bytes of earlier
frames behind the end of a shorter one; the dispatcher reads the type of a frame there
if the frame is too short to have one.
-/

namespace NemoOS

/-! ## The dispatcher -/

/-- `while(sum >> 16) sum = (sum & 0xFFFF) + (sum >> 16)`. -/
def foldCarries (sum : Nat) : Nat :=
  if sum < 0x10000 then sum else foldCarries (sum % 0x10000 + sum / 0x10000)
termination_by sum
decreasing_by omega

/-- The sum over the ten words of the header at `offset`. -/
def ipChecksumOk (buf : Nat → UInt8) (offset : Nat) : Bool :=
  foldCarries ((List.range 10).map fun i => word16 buf (offset + 2 * i)).sum == 0xFFFF

def ETH_HDR_SIZE : Nat := 14
def ARP_PKT_SIZE : Nat := 28
def IP_HDR_SIZE : Nat := 20
def IP_PROTO_ICMP : Nat := 1

/-- A call of a handler with the packet at the offset in the buffer and its length. -/
inductive HandlerCall where
  | arpHandlePacket (buf : Nat → UInt8) (packet : Nat) (len : Int)
  | icmpHandlePacket (buf : Nat → UInt8) (ip packet : Nat) (len : Int)

def dispatch (buf : Nat → UInt8) (len : Nat) : Option HandlerCall :=
  if word16 buf 12 = 0x0608 then
    if len ≥ ETH_HDR_SIZE + ARP_PKT_SIZE then
      some (.arpHandlePacket buf ETH_HDR_SIZE (len - ETH_HDR_SIZE))
    else none
  else if word16 buf 12 = 0x0008 then
    let ipLen : Int := len - ETH_HDR_SIZE
    if ipLen ≥ IP_HDR_SIZE ∧ ipChecksumOk buf ETH_HDR_SIZE = true then
      if (buf (ETH_HDR_SIZE + 9)).toNat = IP_PROTO_ICMP then
        if ipLen - IP_HDR_SIZE ≥ 4 then
          some (.icmpHandlePacket buf ETH_HDR_SIZE (ETH_HDR_SIZE + IP_HDR_SIZE)
            (ipLen - IP_HDR_SIZE))
        else none
      else none
    else none
  else none

/-! ## The loop -/

/-- The buffer and the length with which a frame is handed on. -/
structure Delivery where
  buf : Nat → UInt8
  len : Nat

def Delivery.frame (d : Delivery) : List UInt8 := (List.range d.len).map d.buf

/-- The bytes of the buffer after a frame has been stored to it. -/
def storeFrame (buf : Nat → UInt8) (bytes : List UInt8) : Nat → UInt8 := fun x =>
  if x < bytes.length then bytes.getD x 0 else buf x

/-- The loop, for at most `fuel` rounds: what each round hands on, and the driver's state
    at the end. -/
def netPollLoop (nic : Nic) (buf : Nat → UInt8) (len : Nat) : Nat → List Delivery × Nic
  | 0 => ([], nic)
  | fuel + 1 =>
      let (r, nic') := nic.rtl8139Poll len
      if r.ret > 0 then
        let buf' := storeFrame buf r.bytes
        let (deliveries, last) := netPollLoop nic' buf' r.len fuel
        (⟨buf', r.len⟩ :: deliveries, last)
      else ([], nic')

/-- Every round moves the driver's offset, so that the loop ends within `cbr` rounds. -/
def netPoll (nic : Nic) (buf : Nat → UInt8) : List Delivery × Nic :=
  netPollLoop nic buf 1600 (nic.cbr + 1)

/-- The frames that successive calls with the whole buffer return. -/
def framesFrom (nic : Nic) : Nat → List (List UInt8)
  | 0 => []
  | fuel + 1 =>
      let (r, nic') := nic.rtl8139Poll 1600
      if r.ret > 0 then r.bytes :: framesFrom nic' fuel else []

def pendingFrames (nic : Nic) : List (List UInt8) := framesFrom nic (nic.cbr + 1)

/-! ## Two calls compared -/

/-- **What a call can do.** It finds no record and changes nothing, or it returns the
    bytes of one, cut to the length given, and moves on by the length it returns. -/
theorem Nic.rtl8139Poll_cases (nic : Nic) :
    (∀ len, (nic.rtl8139Poll len).1.ret ≤ 0 ∧ (nic.rtl8139Poll len).2 = nic) ∨
    ∃ (full : List UInt8) (move : Nat → Nic), nic.rxOffset < nic.cbr ∧
      (∀ n, (move n).cbr = nic.cbr ∧ nic.rxOffset < (move n).rxOffset) ∧
      ∀ len < 0x10000, nic.rtl8139Poll len =
        (⟨1, full.take len, (full.take len).length⟩, move (full.take len).length) := by
  cases hinit : nic.initialized with
  | false =>
      left
      intro len
      rw [rtl8139Poll, hinit, Bool.not_false, if_pos rfl]
      exact ⟨(by decide : (-1 : Int) ≤ 0), rfl⟩
  | true =>
      by_cases hlt : nic.rxOffset < nic.cbr
      · cases hrecord : looksLikeRecord nic.rxBuffer nic.rxOffset with
        | false =>
            left
            intro len
            rw [rtl8139Poll_noRecord hinit hlt hrecord]
            exact ⟨Int.le_refl 0, rfl⟩
        | true =>
            right
            refine ⟨(List.range (word16 nic.rxBuffer (nic.rxOffset + 2) % 0x4000 - 4)).map
              fun j => nic.rxBuffer (nic.rxOffset + 4 + j),
              fun n => { nic with
                rxOffset := (nic.rxOffset + n + 4 + 3) / 4 * 4
                capr := ((nic.rxOffset + n + 4 + 3) / 4 * 4 + 0x10000 - 16) % 0x10000 },
              hlt, fun n => ⟨rfl, ?_⟩, fun len hlen => ?_⟩
            · dsimp only
              omega
            · rw [← List.map_take, List.take_range, Nat.min_comm, List.length_map,
                List.length_range]
              exact rtl8139Poll_record hinit hlt hrecord len hlen rfl
      · left
        intro len
        rw [rtl8139Poll_empty hinit (by omega)]
        exact ⟨Int.le_refl 0, rfl⟩

theorem Delivery.frame_storeFrame (buf : Nat → UInt8) (bytes : List UInt8) :
    Delivery.frame ⟨storeFrame buf bytes, bytes.length⟩ = bytes := by
  apply List.ext_getElem
  · rw [Delivery.frame, List.length_map, List.length_range]
  · intro j hj hj'
    simp only [Delivery.frame, List.getElem_map, List.getElem_range]
    rw [storeFrame, if_pos hj', List.getD_eq_getElem _ _ hj']

/-! ## The loop ends -/

/-! ## Lengths -/

/-- The lengths never grow. -/
def NonIncreasing (frames : List (List UInt8)) : Prop :=
  frames.Pairwise fun earlier later => later.length ≤ earlier.length

theorem take_eq_take_iff {full : List UInt8} {len capacity : Nat} (hle : len ≤ capacity) :
    full.take len = full.take capacity ↔ (full.take capacity).length ≤ len := by
  constructor
  · intro heq
    rw [← heq, List.length_take]
    omega
  · intro hlength
    have hcut : (full.take capacity).take len = full.take capacity := List.take_of_length_le hlength
    rw [List.take_take, Nat.min_eq_left hle] at hcut
    exact hcut

/-- The loop with a given length for its first call, against calls with the whole
    buffer. -/
theorem netPollLoop_frames_iff (fuel : Nat) (nic : Nic) (buf : Nat → UInt8) {len : Nat}
    (hlen : len ≤ 1600) :
    (netPollLoop nic buf len fuel).1.map Delivery.frame = framesFrom nic fuel ↔
      (∀ f ∈ framesFrom nic fuel, f.length ≤ len) ∧ NonIncreasing (framesFrom nic fuel) := by
  induction fuel generalizing nic buf len with
  | zero => simp [netPollLoop, framesFrom, NonIncreasing]
  | succ fuel ih =>
      rw [netPollLoop, framesFrom]
      rcases nic.rtl8139Poll_cases with hnone | ⟨full, move, -, -, hpoll⟩
      · have hret := (hnone len).1
        have hret' := (hnone 1600).1
        dsimp only
        rw [if_neg (by omega), if_neg (by omega)]
        simp [NonIncreasing]
      · have hcapacity : (full.take 1600).length ≤ 1600 := by
          rw [List.length_take]
          omega
        rw [hpoll len (by omega), hpoll 1600 (by decide)]
        dsimp only
        rw [if_pos (by decide), if_pos (by decide), List.map_cons, Delivery.frame_storeFrame,
          NonIncreasing, List.pairwise_cons, ← NonIncreasing, List.cons.injEq]
        constructor
        · rintro ⟨heq, hrest⟩
          rw [heq] at hrest
          obtain ⟨hbelow, hsorted⟩ := (ih _ _ hcapacity).mp hrest
          have hfirst := (take_eq_take_iff hlen).mp heq
          refine ⟨fun f hf => ?_, hbelow, hsorted⟩
          rcases List.mem_cons.mp hf with rfl | hf
          · exact hfirst
          · exact Nat.le_trans (hbelow f hf) hfirst
        · rintro ⟨hbelow, hfirst, hsorted⟩
          have heq := (take_eq_take_iff hlen).mpr (hbelow _ List.mem_cons_self)
          rw [heq]
          exact ⟨rfl, (ih _ _ hcapacity).mpr ⟨hfirst, hsorted⟩⟩

theorem framesFrom_length_le (fuel : Nat) (nic : Nic) :
    ∀ f ∈ framesFrom nic fuel, f.length ≤ 1600 := by
  induction fuel generalizing nic with
  | zero => exact fun f hf => absurd hf List.not_mem_nil
  | succ fuel ih =>
      intro f hf
      rw [framesFrom] at hf
      rcases nic.rtl8139Poll_cases with hnone | ⟨full, move, -, -, hpoll⟩
      · have hret := (hnone 1600).1
        dsimp only at hf
        rw [if_neg (by omega)] at hf
        exact absurd hf List.not_mem_nil
      · rw [hpoll 1600 (by decide)] at hf
        rcases List.mem_cons.mp hf with rfl | hf
        · rw [List.length_take]
          omega
        · exact ih _ f hf

/-- **Lengths handed on.** For every content of the ring, `net_poll` hands every pending
    frame on with its own length, up to the 1600 bytes of the buffer, exactly when no
    frame is longer than one before it. -/
theorem netPoll_frames_iff (nic : Nic) (buf : Nat → UInt8) :
    (netPoll nic buf).1.map Delivery.frame = pendingFrames nic ↔
      NonIncreasing (pendingFrames nic) := by
  rw [netPoll, pendingFrames, netPollLoop_frames_iff _ _ _ (Nat.le_refl 1600)]
  exact and_iff_right (framesFrom_length_le _ nic)

/-- A frame of one byte and then one of two. -/
def growingNic : Nic where
  initialized := true
  rxBuffer x := [1, 0, 5, 0, 0xAA, 0, 0, 0, 1, 0, 6, 0, 0xBB, 0xCC, 0, 0].getD x 0
  rxOffset := 0
  cbr := 16
  capr := 0

/-- The second frame is cut to the length of the first. -/
theorem netPoll_cuts_longer_frame :
    ∃ (nic : Nic) (buf : Nat → UInt8), pendingFrames nic = [[0xAA], [0xBB, 0xCC]] ∧
      (netPoll nic buf).1.map Delivery.frame = [[0xAA], [0xBB]] :=
  ⟨growingNic, fun _ => 0, by decide, by decide⟩

end NemoOS
