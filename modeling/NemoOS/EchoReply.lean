import NemoOS.Icmp

/-!
# Answering echo requests

Which frames `net_poll` answers, and with what. A frame is answered if its type is IP, the sum
over the first 20 bytes behind the Ethernet header is right, the protocol is ICMP, the byte
behind these is 8 and the sender's address is in the ARP cache (`replied_iff`). Nobody looks at
the version and the lengths in the header, at the destination address and at the checksum of
the message (`netPoll_replies_iff`).

The answer has the length of the frame, not that of the packet in it, so that padding behind a
short packet becomes a part of the message (`mirrors_iff`).
-/

namespace NemoOS

/-! ## Fields of a received frame -/

namespace Delivery

variable (d : Delivery)

def srcIp : Ip := fun i => d.buf (ETH_HDR_SIZE + 12 + i)

def dstIp : Ip := fun i => d.buf (ETH_HDR_SIZE + 16 + i)

/-- The length field of the IP header. -/
def totalLen : Nat := ntohs d.buf (ETH_HDR_SIZE + 2)

/-- The length of the IP header by its own field. -/
def headerLen : Nat := (d.buf ETH_HDR_SIZE).toNat % 16 * 4

/-- `net_poll` hands the frame to `icmp_handle_packet`. -/
structure ReachesIcmp : Prop where
  etherType : word16 d.buf 12 = 0x0008
  len_ge : 38 ≤ d.len
  headerSum : ipChecksumOk d.buf ETH_HDR_SIZE = true
  proto : (d.buf (ETH_HDR_SIZE + 9)).toNat = IP_PROTO_ICMP

/-- The buffer after the request in it has been made the reply. -/
def echoBuf : Nat → UInt8 :=
  storeChecksum (Function.update d.buf 34 ICMP_TYPE_ECHO_REPLY) 34 (d.len - 34) 36

end Delivery

/-- The frame with the reply. -/
def Station.echoReply (st : Station) (mac : Mac) (d : Delivery) : Delivery :=
  st.ipFrame mac d.srcIp (UInt8.ofNat IP_PROTO_ICMP) (fun i => d.echoBuf (34 + i)) (d.len - 34)

/-! ## What is sent -/

variable {st : Station} {d : Delivery}

theorem dispatch_of_reachesIcmp (h : d.ReachesIcmp) :
    dispatch d.buf d.len = some (.icmpHandlePacket d.buf 14 34 ((d.len - 34 : Nat) : Int)) := by
  have hlen := h.len_ge
  have hint : (d.len : Int) - ETH_HDR_SIZE - IP_HDR_SIZE = ((d.len - 34 : Nat) : Int) := by
    simp only [ETH_HDR_SIZE, IP_HDR_SIZE]
    omega
  have hge : (d.len : Int) - ETH_HDR_SIZE ≥ IP_HDR_SIZE := by
    simp only [ETH_HDR_SIZE, IP_HDR_SIZE]
    omega
  rw [dispatch, h.etherType, if_neg (by decide), if_pos rfl]
  dsimp only
  rw [if_pos ⟨hge, h.headerSum⟩, if_pos h.proto, hint, if_pos (by omega)]
  rfl

theorem dispatch_of_not_reachesIcmp (h : ¬ d.ReachesIcmp) :
    dispatch d.buf d.len = none ∨
      ∃ packet len, dispatch d.buf d.len = some (.arpHandlePacket d.buf packet len) := by
  rw [dispatch]
  dsimp only
  split_ifs with harp hlen hip hheader hproto hicmp
  · exact .inr ⟨_, _, rfl⟩
  · exact .inl rfl
  · exfalso
    apply h
    refine ⟨hip, ?_, hheader.2, hproto⟩
    simp only [ETH_HDR_SIZE, IP_HDR_SIZE] at hicmp
    omega
  all_goals exact .inl rfl

/-- An ICMP message has been received. -/
theorem handle_icmp (st : Station) (h : d.ReachesIcmp) :
    (st.handle d.buf d.len).1 =
      if d.buf 34 = ICMP_TYPE_ECHO_REQUEST then
        (st.ipSend d.srcIp (UInt8.ofNat IP_PROTO_ICMP) (fun i => d.echoBuf (34 + i))
          (d.len - 34)).2.1
      else [] := by
  rw [Station.handle, dispatch_of_reachesIcmp h]
  dsimp only
  rw [Station.icmpHandlePacket, Int.toNat_natCast]
  by_cases htype : d.buf 34 = ICMP_TYPE_ECHO_REQUEST
  · rw [if_pos htype, if_pos htype]
    rfl
  · rw [if_neg htype, if_neg htype]

/-- The frames that are sent for an echo request. -/
theorem handle_sent (h : d.ReachesIcmp) (htype : d.buf 34 = ICMP_TYPE_ECHO_REQUEST)
    (hnic : st.nic = true) :
    (st.handle d.buf d.len).1 =
      match st.cache.arpCacheLookup d.srcIp with
      | none => (st.arpSendRequest d.srcIp).map .arp
      | some mac => if d.len ≤ TX_BUF_SIZE then [.ip (st.echoReply mac d)] else [] := by
  have hlen : ETH_HDR_SIZE + IP_HDR_SIZE + (d.len - 34) = d.len := by
    have hge := h.len_ge
    simp only [ETH_HDR_SIZE, IP_HDR_SIZE]
    omega
  rw [handle_icmp st h, if_pos htype, Station.ipSend_sent _ _ _ _ _ hnic, hlen]
  rfl

/-! ## The reply -/

section Reply

variable (st) (mac : Mac)

theorem echoReply_message (i : Nat) : (st.echoReply mac d).buf (34 + i) = d.echoBuf (34 + i) :=
  st.ipFrame_data mac d.srcIp _ (fun i => d.echoBuf (34 + i)) _ i

theorem echoBuf_type (d : Delivery) : d.echoBuf 34 = ICMP_TYPE_ECHO_REPLY := by
  rw [Delivery.echoBuf, storeChecksum_of_ne _ _ _ (by decide) (by decide), Function.update_self]

theorem echoBuf_rest (d : Delivery) {i : Nat} (h0 : i ≠ 0) (h2 : i ≠ 2) (h3 : i ≠ 3) :
    d.echoBuf (34 + i) = d.buf (34 + i) := by
  rw [Delivery.echoBuf, storeChecksum_of_ne _ _ _ (by omega) (by omega),
    Function.update_of_ne (by omega)]

theorem echoReply_totalLen (hge : 38 ≤ d.len) (hle : d.len ≤ TX_BUF_SIZE) :
    (st.echoReply mac d).totalLen = d.len - ETH_HDR_SIZE := by
  rw [TX_BUF_SIZE] at hle
  have hlen : IP_HDR_SIZE + (d.len - 34) = d.len - ETH_HDR_SIZE := by
    simp only [IP_HDR_SIZE, ETH_HDR_SIZE]
    omega
  rw [← hlen]
  exact st.ipFrame_totalLen mac d.srcIp _ _ _ (by simp only [IP_HDR_SIZE]; omega)

/-- The checksum is right for all bytes behind the two headers. -/
theorem echoReply_checksumOk (hge : 38 ≤ d.len) (hle : d.len ≤ TX_BUF_SIZE) :
    checksumOk (st.echoReply mac d).buf 34 (d.len - 34) := by
  have hstored : checksumOk d.echoBuf 34 (d.len - 34) := by
    rw [TX_BUF_SIZE] at hle
    exact checksumOk_storeChecksum _ 34 (i := 1) (by omega) (by omega)
  rw [checksumOk, wordSum_congr fun i _ => echoReply_message st mac i]
  exact hstored

end Reply

namespace Delivery

/-- The frame has a valid IP packet without options in it, and that an echo request; what is
    behind the packet is padding. -/
structure EchoRequest (d : Delivery) : Prop where
  etherType : word16 d.buf 12 = 0x0008
  verIhl : d.buf ETH_HDR_SIZE = 0x45
  headerSum : ipChecksumOk d.buf ETH_HDR_SIZE = true
  proto : (d.buf (ETH_HDR_SIZE + 9)).toNat = IP_PROTO_ICMP
  totalLen_ge : IP_HDR_SIZE + 8 ≤ d.totalLen
  totalLen_le : d.totalLen ≤ d.len - ETH_HDR_SIZE
  type : d.buf 34 = ICMP_TYPE_ECHO_REQUEST

/-- A reply as long as the request, with the message of the request apart from its type and
    checksum. -/
structure Mirrors (d reply : Delivery) : Prop where
  totalLen_eq : reply.totalLen = d.totalLen
  type_eq : reply.buf 34 = ICMP_TYPE_ECHO_REPLY
  message_eq : ∀ i < d.totalLen - IP_HDR_SIZE, i ≠ 0 → i ≠ 2 → i ≠ 3 →
    reply.buf (34 + i) = d.buf (34 + i)
  icmpSum : checksumOk reply.buf 34 (d.totalLen - IP_HDR_SIZE)

theorem EchoRequest.len_ge (h : d.EchoRequest) : 42 ≤ d.len := by
  have hge := h.totalLen_ge
  have hle := h.totalLen_le
  simp only [IP_HDR_SIZE, ETH_HDR_SIZE] at hge hle
  omega

theorem EchoRequest.reachesIcmp (h : d.EchoRequest) : d.ReachesIcmp where
  etherType := h.etherType
  len_ge := Nat.le_trans (by decide) h.len_ge
  headerSum := h.headerSum
  proto := h.proto

end Delivery

theorem handle_request_sent (hrequest : d.EchoRequest) (hnic : st.nic = true) {mac : Mac}
    (hresolved : st.cache.arpCacheLookup d.srcIp = some mac) :
    (st.handle d.buf d.len).1 = if d.len ≤ TX_BUF_SIZE then [.ip (st.echoReply mac d)] else [] := by
  rw [handle_sent hrequest.reachesIcmp hrequest.type hnic, hresolved]

/-- **Replies to requests without padding.** For every frame with an echo request whose sender
    is in the ARP cache, one reply is sent that mirrors the request exactly if the packet fills
    the frame and the frame fits in a transmit buffer. -/
theorem mirrors_iff (hrequest : d.EchoRequest) (hnic : st.nic = true) {mac : Mac}
    (hresolved : st.cache.arpCacheLookup d.srcIp = some mac) :
    (∃ reply, (st.handle d.buf d.len).1 = [.ip reply] ∧ d.Mirrors reply) ↔
      d.totalLen = d.len - ETH_HDR_SIZE ∧ d.len ≤ TX_BUF_SIZE := by
  have hge : 38 ≤ d.len := hrequest.reachesIcmp.len_ge
  rw [handle_request_sent hrequest hnic hresolved]
  by_cases hfits : d.len ≤ TX_BUF_SIZE
  · have htotal := echoReply_totalLen st mac hge hfits
    rw [if_pos hfits]
    constructor
    · rintro ⟨reply, heq, hmirrors⟩
      obtain rfl : st.echoReply mac d = reply := by simpa using heq
      exact ⟨by rw [← hmirrors.totalLen_eq, htotal], hfits⟩
    · rintro ⟨hlength, -⟩
      have hmessage : d.totalLen - IP_HDR_SIZE = d.len - 34 := by
        rw [hlength]
        simp only [ETH_HDR_SIZE, IP_HDR_SIZE]
        omega
      refine ⟨_, rfl, htotal.trans hlength.symm, ?_, ?_, ?_⟩
      · exact (echoReply_message st mac 0).trans (echoBuf_type d)
      · intro i _ h0 h2 h3
        exact (echoReply_message st mac i).trans (echoBuf_rest d h0 h2 h3)
      · rw [hmessage]
        exact echoReply_checksumOk st mac hge hfits
  · rw [if_neg hfits]
    constructor
    · rintro ⟨reply, heq, -⟩
      cases heq
    · exact fun h => absurd h.2 hfits

/-- A host that knows 10.0.2.2. -/
def answeringStation : Station where
  nic := true
  ourIp i := [10, 0, 2, 15].getD i 0
  ourMac _ := 0x52
  cache i := if i.val = 0 then ⟨fun i => [10, 0, 2, 2].getD i 0, fun _ => 2, true⟩
    else ⟨fun _ => 0, fun _ => 0, false⟩
  ipId := 0

/-- A frame of 60 bytes with an echo request from 10.0.2.2. The arguments are the low bytes of
    the length, of the two checksums and of the destination. -/
def sampleRequest (totalLen headerSum icmpSum dst : UInt8) : Delivery where
  buf x :=
    [0x52, 0x52, 0x52, 0x52, 0x52, 0x52, 2, 2, 2, 2, 2, 2, 0x08, 0x00,
     0x45, 0, 0, totalLen, 0, 0, 0, 0, 64, 1, 0x62, headerSum, 10, 0, 2, 2, 10, 0, 2, dst,
     8, 0, 0xF7, icmpSum, 0, 1, 0, 1].getD x 0
  len := 60

theorem answeringStation_resolves (totalLen headerSum icmpSum dst : UInt8) :
    answeringStation.cache.arpCacheLookup (sampleRequest totalLen headerSum icmpSum dst).srcIp =
      some fun _ => 2 := by
  have hsrc : (sampleRequest totalLen headerSum icmpSum dst).srcIp =
      fun i => [10, 0, 2, 2].getD i.val 0 := by
    funext i
    fin_cases i <;> rfl
  rw [hsrc]
  decide

theorem headerSum_of_wordSum {buf : Nat → UInt8}
    (h : 0 < wordSum buf 14 20 ∧ wordSum buf 14 20 % 0xFFFF = 0) : ipChecksumOk buf 14 = true :=
  (ipChecksumOk_iff _ _).mpr ((checksumOk_iff _ _ _).mpr h)

/-- The packet fills the frame. -/
theorem fullRequest : (sampleRequest 0x2E 0xBF 0xFD 15).EchoRequest := by
  refine ⟨?_, ?_, headerSum_of_wordSum ?_, ?_, ?_, ?_, ?_⟩ <;> decide

/-- The packet has 28 bytes. -/
theorem paddedRequest : (sampleRequest 0x1C 0xD1 0xFD 15).EchoRequest := by
  refine ⟨?_, ?_, headerSum_of_wordSum ?_, ?_, ?_, ?_, ?_⟩ <;> decide

theorem mirrors_fullRequest :
    (sampleRequest 0x2E 0xBF 0xFD 15).EchoRequest ∧
      ∃ reply, (answeringStation.handle (sampleRequest 0x2E 0xBF 0xFD 15).buf 60).1 = [.ip reply] ∧
        (sampleRequest 0x2E 0xBF 0xFD 15).Mirrors reply := by
  refine ⟨fullRequest, ?_⟩
  exact (mirrors_iff fullRequest rfl (answeringStation_resolves ..)).mpr ⟨by decide, by decide⟩

/-- Eighteen bytes of padding come back as a part of the message. -/
theorem padding_echoed :
    ∃ (st : Station) (d : Delivery) (mac : Mac) (reply : Delivery),
      d.EchoRequest ∧ d.dstIp = st.ourIp ∧ checksumOk d.buf 34 (d.totalLen - IP_HDR_SIZE) ∧
      st.nic = true ∧ st.cache.arpCacheLookup d.srcIp = some mac ∧
      (st.handle d.buf d.len).1 = [.ip reply] ∧ d.totalLen = 28 ∧ reply.totalLen = 46 := by
  refine ⟨answeringStation, sampleRequest 0x1C 0xD1 0xFD 15, fun _ => 2,
    answeringStation.echoReply (fun _ => 2) (sampleRequest 0x1C 0xD1 0xFD 15), paddedRequest, ?_,
    ?_, rfl, answeringStation_resolves .., ?_, by decide, ?_⟩
  · funext i
    fin_cases i <;> rfl
  · exact (checksumOk_iff _ _ _).mpr (by decide)
  · rw [handle_request_sent paddedRequest rfl (answeringStation_resolves ..)]
    exact if_pos (by decide)
  · exact echoReply_totalLen _ _ (by decide) (by decide)

/-! ## Which frames are answered -/

/-- An ICMP message of type 0 over IP. -/
def Sent.IsEchoReply : Sent → Prop
  | .arp _ => False
  | .ip frame =>
      word16 frame.buf 12 = 0x0008 ∧ (frame.buf (ETH_HDR_SIZE + 9)).toNat = IP_PROTO_ICMP ∧
        frame.buf 34 = ICMP_TYPE_ECHO_REPLY

/-- All that the code looks at before it answers. -/
structure Station.Answers (st : Station) (d : Delivery) : Prop extends d.ReachesIcmp where
  type : d.buf 34 = ICMP_TYPE_ECHO_REQUEST
  nic : st.nic = true
  resolved : (st.cache.arpCacheLookup d.srcIp).isSome
  fits : d.len ≤ TX_BUF_SIZE

theorem echoReply_isEchoReply (st : Station) (mac : Mac) (d : Delivery) :
    Sent.IsEchoReply (.ip (st.echoReply mac d)) := by
  refine ⟨st.ipFrame_etherType .., ?_, (echoReply_message st mac 0).trans (echoBuf_type d)⟩
  rw [Station.echoReply, st.ipFrame_proto]
  rfl

theorem not_isEchoReply_of_mem_arp {frames : List ArpFrame} {s : Sent} (hs : s ∈ frames.map .arp) :
    ¬ s.IsEchoReply := by
  obtain ⟨frame, -, rfl⟩ := List.mem_map.mp hs
  exact id

/-- A reply is only sent by `icmp_handle_packet`. -/
theorem reachesIcmp_of_reply {s : Sent} (hs : s ∈ (st.handle d.buf d.len).1)
    (hreply : s.IsEchoReply) : d.ReachesIcmp := by
  by_contra hnot
  rw [Station.handle] at hs
  rcases dispatch_of_not_reachesIcmp hnot with hnone | ⟨packet, len, harp⟩
  · rw [hnone] at hs
    cases hs
  · rw [harp] at hs
    exact not_isEchoReply_of_mem_arp hs hreply

/-- **What is answered.** -/
theorem replied_iff (st : Station) (d : Delivery) :
    (∃ s ∈ (st.handle d.buf d.len).1, s.IsEchoReply) ↔ st.Answers d := by
  constructor
  · rintro ⟨s, hs, hreply⟩
    have hreaches := reachesIcmp_of_reply hs hreply
    have htype : d.buf 34 = ICMP_TYPE_ECHO_REQUEST := by
      by_contra hne
      rw [handle_icmp st hreaches, if_neg hne] at hs
      cases hs
    have hnic : st.nic = true := by
      rcases hnic : st.nic with _ | _
      · rw [handle_icmp st hreaches, if_pos htype, st.ipSend_sent_of_not_nic _ _ _ _ hnic] at hs
        cases hs
      · rfl
    rw [handle_sent hreaches htype hnic] at hs
    rcases hlookup : st.cache.arpCacheLookup d.srcIp with _ | mac
    · rw [hlookup] at hs
      exact absurd hreply (not_isEchoReply_of_mem_arp hs)
    · rw [hlookup] at hs
      dsimp only at hs
      split_ifs at hs with hfits
      · exact ⟨hreaches, htype, hnic, by rw [hlookup, Option.isSome_some], hfits⟩
      · cases hs
  · intro h
    obtain ⟨mac, hmac⟩ := Option.isSome_iff_exists.mp h.resolved
    refine ⟨.ip (st.echoReply mac d), ?_, echoReply_isEchoReply st mac d⟩
    rw [handle_sent h.toReachesIcmp h.type h.nic, hmac]
    dsimp only
    rw [if_pos h.fits]
    exact List.mem_cons_self

namespace Delivery

/-- An echo request to the given address, with or without options in its IP header. -/
structure ValidRequest (ourIp : Ip) (d : Delivery) : Prop where
  etherType : word16 d.buf 12 = 0x0008
  version : (d.buf ETH_HDR_SIZE).toNat / 16 = 4
  headerLen_ge : IP_HDR_SIZE ≤ d.headerLen
  totalLen_ge : d.headerLen + 8 ≤ d.totalLen
  totalLen_le : d.totalLen ≤ d.len - ETH_HDR_SIZE
  headerSum : checksumOk d.buf ETH_HDR_SIZE d.headerLen
  proto : (d.buf (ETH_HDR_SIZE + 9)).toNat = IP_PROTO_ICMP
  dstIp_eq : d.dstIp = ourIp
  type : d.buf (ETH_HDR_SIZE + d.headerLen) = ICMP_TYPE_ECHO_REQUEST
  icmpSum : checksumOk d.buf (ETH_HDR_SIZE + d.headerLen) (d.totalLen - d.headerLen)

/-- What the code never looks at. -/
structure Unchecked (ourIp : Ip) (d : Delivery) : Prop where
  version : (d.buf ETH_HDR_SIZE).toNat / 16 = 4
  totalLen_ge : d.headerLen + 8 ≤ d.totalLen
  totalLen_le : d.totalLen ≤ d.len - ETH_HDR_SIZE
  /-- there are no options, or the code takes them for the message -/
  options : d.headerLen = IP_HDR_SIZE ∨ IP_HDR_SIZE < d.headerLen ∧
    checksumOk d.buf ETH_HDR_SIZE d.headerLen ∧
    d.buf (ETH_HDR_SIZE + d.headerLen) = ICMP_TYPE_ECHO_REQUEST
  dstIp_eq : d.dstIp = ourIp
  icmpSum : checksumOk d.buf (ETH_HDR_SIZE + d.headerLen) (d.totalLen - d.headerLen)

end Delivery

/-- Of a frame that is answered, the rest of what makes a request valid. -/
theorem validRequest_iff (h : st.Answers d) (ourIp : Ip) :
    d.ValidRequest ourIp ↔ d.Unchecked ourIp := by
  constructor
  · intro hvalid
    refine ⟨hvalid.version, hvalid.totalLen_ge, hvalid.totalLen_le, ?_, hvalid.dstIp_eq,
      hvalid.icmpSum⟩
    rcases Nat.eq_or_lt_of_le hvalid.headerLen_ge with heq | hlt
    · exact .inl heq.symm
    · exact .inr ⟨hlt, hvalid.headerSum, hvalid.type⟩
  · intro hrest
    have hheader : IP_HDR_SIZE ≤ d.headerLen ∧ checksumOk d.buf ETH_HDR_SIZE d.headerLen ∧
        d.buf (ETH_HDR_SIZE + d.headerLen) = ICMP_TYPE_ECHO_REQUEST := by
      rcases hrest.options with heq | ⟨hlt, hsum, htype⟩
      · rw [heq]
        exact ⟨Nat.le_refl _, (ipChecksumOk_iff _ _).mp h.headerSum, h.type⟩
      · exact ⟨Nat.le_of_lt hlt, hsum, htype⟩
    exact
      { hrest with
        etherType := h.etherType
        headerLen_ge := hheader.1
        headerSum := hheader.2.1
        proto := h.proto
        type := hheader.2.2 }

/-- The frames of a round are those of `handle`. -/
theorem Station.sent_of_mem_netPollRounds {st : Station} {nic : Nic} {buf : Nat → UInt8}
    {len fuel : Nat} {r : Round} (hr : r ∈ (st.netPollRounds nic buf len fuel).1) :
    r.sent = (r.station.handle r.frame.buf r.frame.len).1 := by
  induction fuel generalizing st nic buf len with
  | zero => cases hr
  | succ fuel ih =>
      rw [netPollRounds] at hr
      dsimp only at hr
      split_ifs at hr
      · rcases List.mem_cons.mp hr with rfl | hr
        · rfl
        · exact ih hr
      · cases hr

/-- **Only valid requests are answered**, in a call of `net_poll` on any state, receive ring
    and buffer, exactly if every frame that the code's own checks let through is an IPv4 packet
    with the right lengths, is addressed to this host and has the right ICMP checksum. -/
theorem netPoll_replies_iff (st : Station) (nic : Nic) (buf : Nat → UInt8) :
    (∀ r ∈ (st.netPoll nic buf).1, (∃ s ∈ r.sent, s.IsEchoReply) →
        r.frame.ValidRequest r.station.ourIp) ↔
      ∀ r ∈ (st.netPoll nic buf).1, r.station.Answers r.frame →
        r.frame.Unchecked r.station.ourIp := by
  apply forall₂_congr
  intro r hr
  have hsent : r.sent = (r.station.handle r.frame.buf r.frame.len).1 := by
    rw [Station.netPoll] at hr
    split_ifs at hr
    · exact Station.sent_of_mem_netPollRounds hr
    · cases hr
  rw [hsent, replied_iff]
  exact imp_congr_right fun h => validRequest_iff h _

/-- The first round, if the card has a frame. -/
theorem Station.netPoll_first {st : Station} {nic : Nic} (buf : Nat → UInt8) (hnic : st.nic = true)
    (bytes : List UInt8) (hpoll : (nic.rtl8139Poll 1600).1 = ⟨1, bytes, bytes.length⟩) :
    ⟨st, ⟨storeFrame buf bytes, bytes.length⟩, (st.handle (storeFrame buf bytes) bytes.length).1⟩ ∈
      (st.netPoll nic buf).1 := by
  rw [netPoll, if_pos hnic, netPollRounds]
  dsimp only
  rw [hpoll, if_pos Int.one_pos]
  exact List.mem_cons_self

/-- A card that has received the frame. -/
def nicWith (d : Delivery) : Nic where
  initialized := true
  rxBuffer x :=
    ([1, 0, UInt8.ofNat (d.len + 4), UInt8.ofNat ((d.len + 4) / 256)] ++ d.frame).getD x 0
  rxOffset := 0
  cbr := d.len + 8
  capr := 0

/-- The frame in the buffer of `net_poll`. -/
def received (d : Delivery) : Delivery := ⟨storeFrame (fun _ => 0) d.frame, d.frame.length⟩

/-- The frame is for 10.0.2.99. -/
def strayRequest : Delivery := sampleRequest 0x2E 0x6B 0xFD 99

/-- The checksum of the message is wrong. -/
def damagedRequest : Delivery := sampleRequest 0x2E 0xBF 0xFE 15

theorem strayRequest_answers : answeringStation.Answers (received strayRequest) := by
  refine ⟨⟨?_, ?_, headerSum_of_wordSum ?_, ?_⟩, ?_, rfl, ?_, ?_⟩ <;> decide

theorem damagedRequest_answers : answeringStation.Answers (received damagedRequest) := by
  refine ⟨⟨?_, ?_, headerSum_of_wordSum ?_, ?_⟩, ?_, rfl, ?_, ?_⟩ <;> decide

/-- A request to another host is answered, and so is one with a wrong checksum. -/
theorem netPoll_answers_invalid :
    (∃ (st : Station) (nic : Nic) (buf : Nat → UInt8), ∃ r ∈ (st.netPoll nic buf).1,
      (∃ s ∈ r.sent, s.IsEchoReply) ∧ r.frame.dstIp ≠ r.station.ourIp) ∧
    ∃ (st : Station) (nic : Nic) (buf : Nat → UInt8), ∃ r ∈ (st.netPoll nic buf).1,
      (∃ s ∈ r.sent, s.IsEchoReply) ∧ r.frame.dstIp = r.station.ourIp ∧
        ¬ checksumOk r.frame.buf 34 (r.frame.totalLen - IP_HDR_SIZE) := by
  constructor
  · refine ⟨answeringStation, nicWith strayRequest, fun _ => 0, _,
      Station.netPoll_first _ rfl strayRequest.frame (by decide), ?_, by decide⟩
    exact (replied_iff _ (received strayRequest)).mpr strayRequest_answers
  · refine ⟨answeringStation, nicWith damagedRequest, fun _ => 0, _,
      Station.netPoll_first _ rfl damagedRequest.frame (by decide), ?_, by decide, ?_⟩
    · exact (replied_iff _ (received damagedRequest)).mpr damagedRequest_answers
    · rw [checksumOk_iff]
      decide

end NemoOS
