import Mathlib
import NemoOS.NetPoll
import NemoOS.Lib.Runs

/-!
# Address resolution

`net/arp.cpp` on one host, and any number of hosts that run it on one network. A frame
that has been sent can be delivered to any host, at any later time and any number of
times, or never. `arp_agreement` says that over every run the caches of all hosts agree
with the hosts' own addresses and hold at most one entry for an address.

Words of a packet are compared in the byte order of the machine, so that a request has
the operation `0x0100`.
-/

namespace NemoOS

open Transition

abbrev Ip := Fin 4 → UInt8
abbrev Mac := Fin 6 → UInt8

/-! ## The cache -/

structure ArpEntry where
  ip : Ip
  mac : Mac
  valid : Bool
deriving DecidableEq

def ARP_CACHE_SIZE : Nat := 8

abbrev ArpCache := Fin ARP_CACHE_SIZE → ArpEntry

namespace ArpCache

/-- The index the search loops stop at. -/
def indexOf (cache : ArpCache) (ip : Ip) : Option (Fin ARP_CACHE_SIZE) :=
  (List.finRange ARP_CACHE_SIZE).find? fun i => (cache i).valid && decide ((cache i).ip = ip)

def firstInvalid (cache : ArpCache) : Option (Fin ARP_CACHE_SIZE) :=
  (List.finRange ARP_CACHE_SIZE).find? fun i => !(cache i).valid

def arpCacheAdd (cache : ArpCache) (ip : Ip) (mac : Mac) : Int × ArpCache :=
  match cache.indexOf ip with
  | some i => (0, Function.update cache i { cache i with mac := mac })
  | none =>
      match cache.firstInvalid with
      | some i => (0, Function.update cache i ⟨ip, mac, true⟩)
      | none => (-1, cache)

/-- The address that `arp_resolve` stores; `none` if it returns -1. -/
def arpCacheLookup (cache : ArpCache) (ip : Ip) : Option Mac :=
  (cache.indexOf ip).map fun i => (cache i).mac

end ArpCache

/-! ## Packets -/

@[ext]
structure ArpPkt where
  htype : UInt16
  ptype : UInt16
  hlen : UInt8
  plen : UInt8
  oper : UInt16
  sha : Mac
  spa : Ip
  tha : Mac
  tpa : Ip
deriving DecidableEq

/-- The packet at an offset of a buffer. -/
def arpPktAt (buf : Nat → UInt8) (offset : Nat) : ArpPkt where
  htype := UInt16.ofNat (word16 buf offset)
  ptype := UInt16.ofNat (word16 buf (offset + 2))
  hlen := buf (offset + 4)
  plen := buf (offset + 5)
  oper := UInt16.ofNat (word16 buf (offset + 6))
  sha i := buf (offset + 8 + i)
  spa i := buf (offset + 14 + i)
  tha i := buf (offset + 18 + i)
  tpa i := buf (offset + 24 + i)

def wordBytes (w : UInt16) : List UInt8 := [UInt8.ofNat w.toNat, UInt8.ofNat (w.toNat / 256)]

/-- A frame with an ARP packet. -/
structure ArpFrame where
  dst : Mac
  src : Mac
  arp : ArpPkt
deriving DecidableEq

def ArpFrame.bytes (f : ArpFrame) : List UInt8 :=
  List.ofFn f.dst ++ List.ofFn f.src ++ wordBytes 0x0608 ++ wordBytes f.arp.htype ++
    wordBytes f.arp.ptype ++ [f.arp.hlen, f.arp.plen] ++ wordBytes f.arp.oper ++
    List.ofFn f.arp.sha ++ List.ofFn f.arp.spa ++ List.ofFn f.arp.tha ++ List.ofFn f.arp.tpa

/-- The buffer of `net_poll` with the frame at its start. -/
def ArpFrame.buf (f : ArpFrame) (rest : Nat → UInt8) : Nat → UInt8 := storeFrame rest f.bytes

/-! ## One host -/

structure Host where
  nic : Bool
  ourIp : Ip
  ourMac : Mac
  cache : ArpCache

namespace Host

def arpSendRequest (h : Host) (ip : Ip) : List ArpFrame :=
  if h.nic then
    [{ dst := fun _ => 0xFF
       src := h.ourMac
       arp :=
        { htype := 0x0100, ptype := 0x0008, hlen := 6, plen := 4, oper := 0x0100, sha := h.ourMac,
          spa := h.ourIp, tha := fun _ => 0, tpa := ip } }]
  else []

/-- The answer to a request. -/
def reply (h : Host) (arp : ArpPkt) : ArpFrame where
  dst := arp.sha
  src := h.ourMac
  arp :=
    { htype := 0x0100, ptype := 0x0008, hlen := 6, plen := 4, oper := 0x0200, sha := h.ourMac,
      spa := h.ourIp, tha := arp.sha, tpa := arp.spa }

def learn (h : Host) (arp : ArpPkt) : Host :=
  { h with cache := (h.cache.arpCacheAdd arp.spa arp.sha).2 }

/-- The frames that are sent and the host afterwards. -/
def arpHandlePacket (h : Host) (arp : ArpPkt) : Int × List ArpFrame × Host :=
  if arp.htype ≠ 0x0100 ∨ arp.ptype ≠ 0x0008 then (-1, [], h)
  else if arp.oper = 0x0100 then
    if arp.tpa = h.ourIp then
      if h.nic then (0, [h.reply arp], h.learn arp) else (-1, [], h)
    else (0, [], h)
  else if arp.oper = 0x0200 then (0, [], h.learn arp)
  else (0, [], h)

/-- A frame that `net_poll` has got, as far as it concerns the cache. -/
def receive (h : Host) (buf : Nat → UInt8) (len : Nat) : List ArpFrame × Host :=
  match dispatch buf len with
  | some (.arpHandlePacket buf packet _) => (h.arpHandlePacket (arpPktAt buf packet)).2
  | _ => ([], h)

end Host

/-! ## The network -/

/-- All hosts and every frame that was ever sent. -/
structure Network (ι : Type*) where
  hosts : ι → Host
  sent : List ArpFrame

/-- `deliver` has the host, the frame, the rest of the host's buffer and the number of
    bytes that follow the frame. -/
inductive NetOp (ι : Type*) where
  | request (h : ι) (ip : Ip)
  | deliver (h : ι) (f : ArpFrame) (rest : Nat → UInt8) (padding : Nat)

namespace Network

variable {ι : Type*} [DecidableEq ι]

def request (w : Network ι) (h : ι) (ip : Ip) : Network ι :=
  { w with sent := (w.hosts h).arpSendRequest ip ++ w.sent }

def deliver (w : Network ι) (h : ι) (f : ArpFrame) (rest : Nat → UInt8) (padding : Nat) :
    Network ι :=
  let (replies, host) := (w.hosts h).receive (f.buf rest) (f.bytes.length + padding)
  { hosts := Function.update w.hosts h host, sent := replies ++ w.sent }

/-- Only frames that were sent are delivered; nothing says when, how often or to whom. -/
inductive Step (w : Network ι) : NetOp ι → Network ι → Prop where
  | request (h : ι) (ip : Ip) : Step w (.request h ip) (w.request h ip)
  | deliver (h : ι) (f : ArpFrame) (rest : Nat → UInt8) (padding : Nat) (hsent : f ∈ w.sent) :
      Step w (.deliver h f rest padding) (w.deliver h f rest padding)

/-- No host knows an address and nothing is on its way. -/
def Initial (w : Network ι) : Prop := (∀ h i, ((w.hosts h).cache i).valid = false) ∧ w.sent = []

end Network

/-! ## Frames as the receiver sees them -/

theorem ofNat_word16_wordBytes (w : UInt16) {buf : Nat → UInt8} {offset : Nat}
    (hlow : buf offset = UInt8.ofNat w.toNat)
    (hhigh : buf (offset + 1) = UInt8.ofNat (w.toNat / 256)) :
    UInt16.ofNat (word16 buf offset) = w := by
  have hbound := w.toNat_lt
  apply UInt16.toNat_inj.mp
  rw [word16, hlow, hhigh, UInt16.toNat_ofNat', UInt8.toNat_ofNat', UInt8.toNat_ofNat']
  omega

theorem ArpFrame.length_bytes (f : ArpFrame) : f.bytes.length = ETH_HDR_SIZE + ARP_PKT_SIZE := by
  simp [ArpFrame.bytes, wordBytes, ETH_HDR_SIZE, ARP_PKT_SIZE]

theorem ArpFrame.buf_eq (f : ArpFrame) (rest : Nat → UInt8) {x : Nat} (hx : x < 42) :
    f.buf rest x = f.bytes.getD x 0 := by
  rw [ArpFrame.buf, storeFrame, if_pos (by rw [f.length_bytes]; exact hx)]

/-- The 42 bytes in order: the header, the five words and pairs, and the addresses. -/
theorem ArpFrame.bytes_eq (f : ArpFrame) : f.bytes =
    [f.dst 0, f.dst 1, f.dst 2, f.dst 3, f.dst 4, f.dst 5,
     f.src 0, f.src 1, f.src 2, f.src 3, f.src 4, f.src 5, 0x08, 0x06,
     UInt8.ofNat f.arp.htype.toNat, UInt8.ofNat (f.arp.htype.toNat / 256),
     UInt8.ofNat f.arp.ptype.toNat, UInt8.ofNat (f.arp.ptype.toNat / 256),
     f.arp.hlen, f.arp.plen,
     UInt8.ofNat f.arp.oper.toNat, UInt8.ofNat (f.arp.oper.toNat / 256),
     f.arp.sha 0, f.arp.sha 1, f.arp.sha 2, f.arp.sha 3, f.arp.sha 4, f.arp.sha 5,
     f.arp.spa 0, f.arp.spa 1, f.arp.spa 2, f.arp.spa 3,
     f.arp.tha 0, f.arp.tha 1, f.arp.tha 2, f.arp.tha 3, f.arp.tha 4, f.arp.tha 5,
     f.arp.tpa 0, f.arp.tpa 1, f.arp.tpa 2, f.arp.tpa 3] := by
  rfl

theorem ArpFrame.word_buf (f : ArpFrame) (rest : Nat → UInt8) {w : UInt16} {x : Nat}
    (hx : x + 1 < 42) (hlow : f.bytes.getD x 0 = UInt8.ofNat w.toNat)
    (hhigh : f.bytes.getD (x + 1) 0 = UInt8.ofNat (w.toNat / 256)) :
    UInt16.ofNat (word16 (f.buf rest) x) = w := by
  apply ofNat_word16_wordBytes
  · rw [f.buf_eq rest (by omega), hlow]
  · rw [f.buf_eq rest hx, hhigh]

theorem ArpFrame.address_buf (f : ArpFrame) (rest : Nat → UInt8) {n : Nat} {g : Fin n → UInt8}
    {x : Nat} (hx : x + n ≤ 42) (hbytes : ∀ i : Fin n, f.bytes.getD (x + i) 0 = g i) :
    (fun i : Fin n => f.buf rest (x + i)) = g := by
  funext i
  rw [f.buf_eq rest (by omega), hbytes]

/-- The receiver reads the packet that was sent. -/
theorem ArpFrame.arpPktAt_buf (f : ArpFrame) (rest : Nat → UInt8) :
    arpPktAt (f.buf rest) ETH_HDR_SIZE = f.arp := by
  have hword : ∀ {w : UInt16} {x : Nat}, x + 1 < 42 → f.bytes.getD x 0 = UInt8.ofNat w.toNat →
      f.bytes.getD (x + 1) 0 = UInt8.ofNat (w.toNat / 256) →
      UInt16.ofNat (word16 (f.buf rest) x) = w := f.word_buf rest
  have haddress : ∀ {n : Nat} {g : Fin n → UInt8} {x : Nat}, x + n ≤ 42 →
      (∀ i : Fin n, f.bytes.getD (x + i) 0 = g i) →
      (fun i : Fin n => f.buf rest (x + i)) = g := f.address_buf rest
  rw [f.bytes_eq] at hword haddress
  rw [arpPktAt, ETH_HDR_SIZE, hword (w := f.arp.htype) (by decide) rfl rfl,
    hword (w := f.arp.ptype) (by decide) rfl rfl, hword (w := f.arp.oper) (by decide) rfl rfl,
    f.buf_eq rest (by decide), f.buf_eq rest (by decide),
    haddress (g := f.arp.sha) (by decide) (fun i => by fin_cases i <;> rfl),
    haddress (g := f.arp.spa) (by decide) (fun i => by fin_cases i <;> rfl),
    haddress (g := f.arp.tha) (by decide) (fun i => by fin_cases i <;> rfl),
    haddress (g := f.arp.tpa) (by decide) (fun i => by fin_cases i <;> rfl), f.bytes_eq]
  rfl

/-- `net_poll` hands every frame that was sent to `arp_handle_packet`. -/
theorem Host.receive_buf (h : Host) (f : ArpFrame) (rest : Nat → UInt8) (padding : Nat) :
    h.receive (f.buf rest) (f.bytes.length + padding) = (h.arpHandlePacket f.arp).2 := by
  have htype : word16 (f.buf rest) 12 = 0x0608 := by
    rw [word16, f.buf_eq rest (by decide), f.buf_eq rest (by decide), f.bytes_eq]
    rfl
  rw [Host.receive, dispatch, if_pos htype, if_pos (by rw [f.length_bytes]; omega)]
  dsimp only
  rw [f.arpPktAt_buf]

/-! ## What the cache keeps -/

namespace ArpCache

/-- Every valid entry is one of the given bindings and no address has two of them. -/
structure Sound (bound : Ip → Mac → Prop) (cache : ArpCache) : Prop where
  entry_bound : ∀ i, (cache i).valid = true → bound (cache i).ip (cache i).mac
  index_unique : ∀ i j, (cache i).valid = true → (cache j).valid = true →
    (cache i).ip = (cache j).ip → i = j

variable {bound : Ip → Mac → Prop} {cache : ArpCache} {ip : Ip} {mac : Mac}
  {i : Fin ARP_CACHE_SIZE}

theorem indexOf_some (h : cache.indexOf ip = some i) :
    (cache i).valid = true ∧ (cache i).ip = ip := by
  have hfound := List.find?_some h
  rw [Bool.and_eq_true, decide_eq_true_eq] at hfound
  exact hfound

theorem indexOf_none (h : cache.indexOf ip = none) (j : Fin ARP_CACHE_SIZE)
    (hvalid : (cache j).valid = true) : (cache j).ip ≠ ip := by
  intro hip
  have hmissed := List.find?_eq_none.mp h j (List.mem_finRange j)
  exact hmissed (by rw [hvalid, Bool.true_and, decide_eq_true hip])

theorem Sound.empty (h : ∀ i, (cache i).valid = false) : Sound bound cache where
  entry_bound i hi := by rw [h i] at hi; cases hi
  index_unique i _ hi := by rw [h i] at hi; cases hi

/-- Writing a binding to the only index that may have its address. -/
theorem Sound.update (h : Sound bound cache) (hbound : bound ip mac)
    (halone : ∀ j, (cache j).valid = true → (cache j).ip = ip → j = i) :
    Sound bound (Function.update cache i ⟨ip, mac, true⟩) := by
  constructor
  · intro j hj
    by_cases hji : j = i
    · rw [hji, Function.update_self]
      exact hbound
    · rw [Function.update_of_ne hji] at hj ⊢
      exact h.entry_bound j hj
  · intro j k hj hk hjk
    by_cases hji : j = i <;> by_cases hki : k = i
    · rw [hji, hki]
    · rw [hji, Function.update_self, Function.update_of_ne hki] at hjk
      rw [Function.update_of_ne hki] at hk
      rw [hji, halone k hk hjk.symm]
    · rw [hki, Function.update_self, Function.update_of_ne hji] at hjk
      rw [Function.update_of_ne hji] at hj
      rw [hki, halone j hj hjk]
    · rw [Function.update_of_ne hji] at hj hjk
      rw [Function.update_of_ne hki] at hk hjk
      exact h.index_unique j k hj hk hjk

theorem Sound.arpCacheAdd (h : Sound bound cache) (hbound : bound ip mac) :
    Sound bound (cache.arpCacheAdd ip mac).2 := by
  rw [ArpCache.arpCacheAdd]
  rcases hfound : cache.indexOf ip with _ | i
  · rcases hfree : cache.firstInvalid with _ | i
    · exact h
    · apply h.update hbound
      intro j hvalid hip
      exact absurd hip (indexOf_none hfound j hvalid)
  · obtain ⟨hvalid, hip⟩ := indexOf_some hfound
    have hentry : { cache i with mac := mac } = (⟨ip, mac, true⟩ : ArpEntry) := by
      rw [← hvalid, ← hip]
    dsimp only at hentry ⊢
    rw [hentry]
    apply h.update hbound
    intro j hj hjp
    exact h.index_unique j i hj hvalid (hjp.trans hip.symm)

end ArpCache

/-! ## Agreement -/

/-- Where `arp_handle_packet` ends. -/
theorem Host.arpHandlePacket_cases (h : Host) (arp : ArpPkt) :
    (h.arpHandlePacket arp).2 = ([], h) ∨ (h.arpHandlePacket arp).2 = ([], h.learn arp) ∨
      (h.arpHandlePacket arp).2 = ([h.reply arp], h.learn arp) := by
  rw [Host.arpHandlePacket]
  split_ifs
  · exact .inl rfl
  · exact .inr (.inr rfl)
  · exact .inl rfl
  · exact .inl rfl
  · exact .inr (.inl rfl)
  · exact .inl rfl

namespace Network

variable {ι : Type*} [DecidableEq ι] {w w' : Network ι} {hosts : ι → Host}

/-- The bindings of the hosts' own addresses. -/
def Owns (hosts : ι → Host) (ip : Ip) (mac : Mac) : Prop :=
  ∃ k, ip = (hosts k).ourIp ∧ mac = (hosts k).ourMac

/-- The hosts keep their addresses, and no frame and no cache has a foreign binding. -/
structure Agrees (hosts : ι → Host) (w : Network ι) : Prop where
  ourIp_eq : ∀ h, (w.hosts h).ourIp = (hosts h).ourIp
  ourMac_eq : ∀ h, (w.hosts h).ourMac = (hosts h).ourMac
  sent_owns : ∀ f ∈ w.sent, Owns hosts f.arp.spa f.arp.sha
  cache_sound : ∀ h, (w.hosts h).cache.Sound (Owns hosts)

omit [DecidableEq ι] in
theorem Agrees.initial (h : w.Initial) : Agrees w.hosts w where
  ourIp_eq _ := rfl
  ourMac_eq _ := rfl
  sent_owns f hf := by rw [h.2] at hf; cases hf
  cache_sound k := ArpCache.Sound.empty (h.1 k)

omit [DecidableEq ι] in
theorem Agrees.owns (h : Agrees hosts w) (k : ι) :
    Owns hosts (w.hosts k).ourIp (w.hosts k).ourMac :=
  ⟨k, h.ourIp_eq k, h.ourMac_eq k⟩

omit [DecidableEq ι] in
theorem Agrees.request (h : Agrees hosts w) (k : ι) (ip : Ip) :
    Agrees hosts (w.request k ip) := by
  refine ⟨h.ourIp_eq, h.ourMac_eq, ?_, h.cache_sound⟩
  intro f hf
  rcases List.mem_append.mp hf with hnew | hold
  · rw [Host.arpSendRequest] at hnew
    split_ifs at hnew
    · rw [List.mem_singleton.mp hnew]
      exact h.owns k
    · cases hnew
  · exact h.sent_owns f hold

/-- One host learns a binding that some host owns. -/
theorem Agrees.learn (h : Agrees hosts w) (k : ι) {arp : ArpPkt}
    (howns : Owns hosts arp.spa arp.sha) :
    Agrees hosts { w with hosts := Function.update w.hosts k ((w.hosts k).learn arp) } := by
  constructor
  · apply (Function.forall_update_iff w.hosts fun j host => host.ourIp = (hosts j).ourIp).mpr
    exact ⟨h.ourIp_eq k, fun j _ => h.ourIp_eq j⟩
  · apply (Function.forall_update_iff w.hosts fun j host => host.ourMac = (hosts j).ourMac).mpr
    exact ⟨h.ourMac_eq k, fun j _ => h.ourMac_eq j⟩
  · exact h.sent_owns
  · apply (Function.forall_update_iff w.hosts fun _ host => host.cache.Sound (Owns hosts)).mpr
    exact ⟨(h.cache_sound k).arpCacheAdd howns, fun j _ => h.cache_sound j⟩

omit [DecidableEq ι] in
theorem Agrees.reply (h : Agrees hosts w) (k : ι) (arp : ArpPkt) :
    Agrees hosts { w with sent := (w.hosts k).reply arp :: w.sent } := by
  refine ⟨h.ourIp_eq, h.ourMac_eq, ?_, h.cache_sound⟩
  intro f hf
  rcases List.mem_cons.mp hf with rfl | hold
  · exact h.owns k
  · exact h.sent_owns f hold

theorem Agrees.step (h : Agrees hosts w) {op : NetOp ι} (hstep : w.Step op w') :
    Agrees hosts w' := by
  cases hstep with
  | request k ip => exact h.request k ip
  | deliver k f rest padding hsent =>
      rw [deliver, Host.receive_buf]
      rcases (w.hosts k).arpHandlePacket_cases f.arp with heq | heq | heq
      · rw [heq]
        dsimp only
        rw [Function.update_eq_self]
        exact h
      · rw [heq]
        exact h.learn k (h.sent_owns f hsent)
      · rw [heq]
        exact (h.reply k f.arp).learn k (h.sent_owns f hsent)

/-- **The caches agree with the network.** However many hosts there are, and in whatever
    order, how often and how late their frames arrive, every valid entry of every cache has
    the address of a host with that host's own hardware address, and no cache has two valid
    entries for one address. -/
theorem arp_agreement {ops : List (NetOp ι)} (hinit : w.Initial)
    (hrun : Run Step w ops w') (h : ι) :
    (∀ i, ((w'.hosts h).cache i).valid = true →
      ∃ k, ((w'.hosts h).cache i).ip = (w.hosts k).ourIp ∧
        ((w'.hosts h).cache i).mac = (w.hosts k).ourMac) ∧
    ∀ i j, ((w'.hosts h).cache i).valid = true → ((w'.hosts h).cache j).valid = true →
      ((w'.hosts h).cache i).ip = ((w'.hosts h).cache j).ip → i = j := by
  have hagrees : Agrees w.hosts w' := by
    apply hrun.invariant (Agrees w.hosts) (Agrees.initial hinit)
    intro a op b ha hstep
    exact ha.step hstep
  exact ⟨(hagrees.cache_sound h).entry_bound, (hagrees.cache_sound h).index_unique⟩

/-- Two hosts that know nothing. -/
def pairNetwork : Network Bool where
  hosts b :=
    { nic := true
      ourIp := fun _ => if b then 1 else 2
      ourMac := fun _ => if b then 3 else 4
      cache := fun _ => ⟨fun _ => 0, fun _ => 0, false⟩ }
  sent := []

theorem pairNetwork_initial : pairNetwork.Initial := ⟨fun _ _ => rfl, rfl⟩

/-- The first host asks for the second one's address. -/
def pairRequest : ArpFrame where
  dst _ := 0xFF
  src _ := 4
  arp :=
    { htype := 0x0100, ptype := 0x0008, hlen := 6, plen := 4, oper := 0x0100, sha := fun _ => 4,
      spa := fun _ => 2, tha := fun _ => 0, tpa := fun _ => 1 }

/-- The second host gets the request twice and has one entry for the first host's address. -/
theorem arp_agreement_pair : ∃ w' : Network Bool,
    pairNetwork.Initial ∧
      Run Step pairNetwork [.request false fun _ => 1, .deliver true pairRequest (fun _ => 0) 18,
        .deliver true pairRequest (fun _ => 0) 18] w' ∧
      ((w'.hosts true).cache ⟨0, by decide⟩).valid = true ∧
      ∃ k, ((w'.hosts true).cache ⟨0, by decide⟩).ip = (pairNetwork.hosts k).ourIp ∧
        ((w'.hosts true).cache ⟨0, by decide⟩).mac = (pairNetwork.hosts k).ourMac := by
  have hmem : pairRequest ∈ (pairNetwork.request false fun _ => 1).sent :=
    List.mem_append_left _ List.mem_cons_self
  have hrun := ((Run.nil.snoc (Step.request (w := pairNetwork) false fun _ => 1)).snoc
    (Step.deliver true pairRequest (fun _ => 0) 18 hmem)).snoc
    (Step.deliver true pairRequest (fun _ => 0) 18 (List.mem_append_right _ hmem))
  refine ⟨_, pairNetwork_initial, hrun, by decide, ?_⟩
  exact (arp_agreement pairNetwork_initial hrun true).1 _ (by decide)

end Network

end NemoOS
