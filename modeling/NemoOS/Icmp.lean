import NemoOS.Arp
import NemoOS.Checksum

/-!
# ICMP over IP

`ip_send` of `net/ip.cpp`, `icmp_send_echo` and `icmp_handle_packet` of `net/icmp.cpp`, and
`net_poll` with what its handlers do: the frames they send, the bytes they change in the
buffer, and the state of the host. An echo request is answered in its own buffer.

The length of a message is what `net_poll` passes on, the length of the frame without the two
headers; the length field of the IP header is written but never read. `rtl8139_send_packet`
is what it accepts; its registers and its four transmit buffers are left out.
-/

namespace NemoOS

def TX_BUF_SIZE : Nat := 1536

def ICMP_TYPE_ECHO_REPLY : UInt8 := 0
def ICMP_TYPE_ECHO_REQUEST : UInt8 := 8

/-- A host with its counter `ip_id`. -/
structure Station extends Host where
  ipId : UInt16

/-- A frame that is sent. -/
inductive Sent where
  | arp (frame : ArpFrame)
  | ip (frame : Delivery)

/-- The result of `rtl8139_send_packet` and the frames it sends. -/
def rtl8139SendPacket (frame : Delivery) : Int × List Sent :=
  if frame.len = 0 ∨ frame.len > TX_BUF_SIZE then (-1, []) else (frame.len, [.ip frame])

/-! ## Frames -/

/-- The bytes of `htons(v)` in memory. -/
def htons (v : Nat) : List UInt8 := [UInt8.ofNat (v / 256), UInt8.ofNat v]

def ethHdr (dst src : Mac) : List UInt8 := List.ofFn dst ++ List.ofFn src ++ htons 0x0800

/-- The header of a packet with `len` bytes of data, before its checksum is set. -/
def ipHdr (len : Nat) (id : UInt16) (proto : UInt8) (src dst : Ip) : List UInt8 :=
  [0x45, 0] ++ htons (IP_HDR_SIZE + len) ++ htons id.toNat ++ [0, 0, 64, proto, 0, 0] ++
    List.ofFn src ++ List.ofFn dst

namespace Station

/-- The frame that `ip_send` builds. -/
def ipFrame (st : Station) (mac : Mac) (dst : Ip) (proto : UInt8) (data : Nat → UInt8)
    (len : Nat) : Delivery where
  buf :=
    storeChecksum
      (fun x =>
        if x < ETH_HDR_SIZE + IP_HDR_SIZE then
          (ethHdr mac st.ourMac ++ ipHdr len st.ipId proto st.ourIp dst).getD x 0
        else data (x - (ETH_HDR_SIZE + IP_HDR_SIZE)))
      ETH_HDR_SIZE IP_HDR_SIZE (ETH_HDR_SIZE + 10)
  len := ETH_HDR_SIZE + IP_HDR_SIZE + len

def ipSend (st : Station) (dst : Ip) (proto : UInt8) (data : Nat → UInt8) (len : Nat) :
    Int × List Sent × Station :=
  if !st.nic then (-1, [], st)
  else
    match st.cache.arpCacheLookup dst with
    | none => (-2, (st.arpSendRequest dst).map .arp, st)
    | some mac =>
        if ETH_HDR_SIZE + IP_HDR_SIZE + len > 1600 then (-1, [], st)
        else
          let (ret, sent) := rtl8139SendPacket (st.ipFrame mac dst proto data len)
          (ret, sent, { st with ipId := st.ipId + 1 })

/-- `icmp_send_echo`. -/
def icmpSendEcho (st : Station) (dst : Ip) (id seq : UInt16) : Int × List Sent × Station :=
  let icmp : List UInt8 := [ICMP_TYPE_ECHO_REQUEST, 0, 0, 0] ++ htons id.toNat ++ htons seq.toNat ++
    (List.range 24).map UInt8.ofNat
  st.ipSend dst (UInt8.ofNat IP_PROTO_ICMP) (storeChecksum (fun x => icmp.getD x 0) 0 32 2) 32

/-- `icmp_handle_packet`: the frames, the buffer and the state afterwards. -/
def icmpHandlePacket (st : Station) (buf : Nat → UInt8) (ip packet len : Nat) :
    List Sent × (Nat → UInt8) × Station :=
  if buf packet = ICMP_TYPE_ECHO_REQUEST then
    let replyIp : Ip := fun i => buf (ip + 12 + i)
    let buf := storeChecksum (Function.update buf packet ICMP_TYPE_ECHO_REPLY) packet len
      (packet + 2)
    let (_, sent, st) :=
      st.ipSend replyIp (UInt8.ofNat IP_PROTO_ICMP) (fun i => buf (packet + i)) len
    (sent, buf, st)
  else ([], buf, st)

/-! ## Polling -/

/-- What is done with one frame. -/
def handle (st : Station) (buf : Nat → UInt8) (len : Nat) :
    List Sent × (Nat → UInt8) × Station :=
  match dispatch buf len with
  | some (.arpHandlePacket buf packet _) =>
      let (_, frames, host) := st.toHost.arpHandlePacket (arpPktAt buf packet)
      (frames.map .arp, buf, { st with toHost := host })
  | some (.icmpHandlePacket buf ip packet len) => st.icmpHandlePacket buf ip packet len.toNat
  | none => ([], buf, st)

end Station

/-- A round of the loop: the state before it, the frame and what was sent. -/
structure Round where
  station : Station
  frame : Delivery
  sent : List Sent

namespace Station

/-- The loop of `net_poll`, for at most `fuel` rounds. -/
def netPollRounds (st : Station) (nic : Nic) (buf : Nat → UInt8) (len : Nat) :
    Nat → List Round × Station × Nic
  | 0 => ([], st, nic)
  | fuel + 1 =>
      let (r, nic') := nic.rtl8139Poll len
      if r.ret > 0 then
        let buf' := storeFrame buf r.bytes
        let (sent, buf'', st') := st.handle buf' r.len
        let (rounds, last) := st'.netPollRounds nic' buf'' r.len fuel
        (⟨st, ⟨buf', r.len⟩, sent⟩ :: rounds, last)
      else ([], st, nic')

/-- `net_poll`; as in `NemoOS.netPoll` the loop ends within `cbr` rounds. -/
def netPoll (st : Station) (nic : Nic) (buf : Nat → UInt8) : List Round × Station × Nic :=
  if st.nic then st.netPollRounds nic buf 1600 (nic.cbr + 1) else ([], st, nic)

end Station

/-! ## The fields of a frame -/

/-- A word in network order. -/
def ntohs (buf : Nat → UInt8) (x : Nat) : Nat := 256 * (buf x).toNat + (buf (x + 1)).toNat

namespace Station

variable (st : Station) (mac : Mac) (dst : Ip) (proto : UInt8) (data : Nat → UInt8) (len : Nat)

/-- The headers, apart from the checksum. -/
theorem ipFrame_header {x : Nat} (hx : x < 34) (hne : x ≠ 24) (hne' : x ≠ 25) :
    (st.ipFrame mac dst proto data len).buf x =
      (ethHdr mac st.ourMac ++ ipHdr len st.ipId proto st.ourIp dst).getD x 0 := by
  calc
    _ = _ := storeChecksum_of_ne _ _ _ hne hne'
    _ = _ := if_pos hx

theorem ipFrame_data (i : Nat) :
    (st.ipFrame mac dst proto data len).buf (ETH_HDR_SIZE + IP_HDR_SIZE + i) = data i := by
  have hne : ETH_HDR_SIZE + IP_HDR_SIZE + i ≠ ETH_HDR_SIZE + 10 := by
    simp only [ETH_HDR_SIZE, IP_HDR_SIZE]
    omega
  have hne' : ETH_HDR_SIZE + IP_HDR_SIZE + i ≠ ETH_HDR_SIZE + 10 + 1 := by
    simp only [ETH_HDR_SIZE, IP_HDR_SIZE]
    omega
  calc
    _ = _ := storeChecksum_of_ne _ _ _ hne hne'
    _ = _ := if_neg (by omega)
    _ = data i := by rw [Nat.add_sub_cancel_left]

theorem ipFrame_etherType : word16 (st.ipFrame mac dst proto data len).buf 12 = 0x0008 := by
  rw [word16, ipFrame_header _ _ _ _ _ _ (by decide) (by decide) (by decide),
    ipFrame_header _ _ _ _ _ _ (by decide) (by decide) (by decide)]
  rfl

theorem ipFrame_proto : (st.ipFrame mac dst proto data len).buf (ETH_HDR_SIZE + 9) = proto := by
  rw [ipFrame_header _ _ _ _ _ _ (by decide) (by decide) (by decide)]
  rfl

theorem ipFrame_totalLen (hlen : IP_HDR_SIZE + len < 0x10000) :
    ntohs (st.ipFrame mac dst proto data len).buf 16 = IP_HDR_SIZE + len := by
  have hhigh : (st.ipFrame mac dst proto data len).buf 16 =
      UInt8.ofNat ((IP_HDR_SIZE + len) / 256) := by
    rw [ipFrame_header _ _ _ _ _ _ (by decide) (by decide) (by decide)]
    rfl
  have hlow : (st.ipFrame mac dst proto data len).buf (16 + 1) =
      UInt8.ofNat (IP_HDR_SIZE + len) := by
    rw [ipFrame_header _ _ _ _ _ _ (by decide) (by decide) (by decide)]
    rfl
  rw [ntohs, hhigh, hlow, UInt8.toNat_ofNat', UInt8.toNat_ofNat']
  omega

theorem rtl8139SendPacket_ipFrame :
    (rtl8139SendPacket (st.ipFrame mac dst proto data len)).2 =
      if ETH_HDR_SIZE + IP_HDR_SIZE + len ≤ TX_BUF_SIZE then
        [.ip (st.ipFrame mac dst proto data len)]
      else [] := by
  have hlen : (st.ipFrame mac dst proto data len).len = ETH_HDR_SIZE + IP_HDR_SIZE + len := rfl
  rw [rtl8139SendPacket, hlen]
  by_cases hfits : ETH_HDR_SIZE + IP_HDR_SIZE + len ≤ TX_BUF_SIZE
  · have hpos : ETH_HDR_SIZE + IP_HDR_SIZE + len ≠ 0 := by
      simp [ETH_HDR_SIZE]
    rw [if_neg (by omega), if_pos hfits]
  · rw [if_pos (by omega), if_neg hfits]

theorem ipSend_sent_of_not_nic (hnic : st.nic = false) :
    (st.ipSend dst proto data len).2.1 = [] := by
  rw [ipSend, hnic, Bool.not_false, if_pos rfl]

/-- The frames of `ip_send`. -/
theorem ipSend_sent (hnic : st.nic = true) :
    (st.ipSend dst proto data len).2.1 =
      match st.cache.arpCacheLookup dst with
      | none => (st.arpSendRequest dst).map .arp
      | some mac =>
          if ETH_HDR_SIZE + IP_HDR_SIZE + len ≤ TX_BUF_SIZE then
            [.ip (st.ipFrame mac dst proto data len)]
          else [] := by
  rw [ipSend, hnic, Bool.not_true, if_neg Bool.false_ne_true]
  rcases st.cache.arpCacheLookup dst with _ | mac
  · rfl
  · by_cases hbig : ETH_HDR_SIZE + IP_HDR_SIZE + len > 1600
    · have hlarge : ¬ ETH_HDR_SIZE + IP_HDR_SIZE + len ≤ TX_BUF_SIZE := by
        rw [TX_BUF_SIZE]
        omega
      dsimp only
      rw [if_pos hbig, if_neg hlarge]
    · dsimp only
      rw [if_neg hbig, ← rtl8139SendPacket_ipFrame]

end Station

/-! ## The rounds and the frames -/

end NemoOS
