/-
A network of hosts that run the stack (`net/mod.rs`), poll by poll: each is
idle, or in the loop of `arp_resolve` or of `ping`. What was sent may arrive
anywhere, at any time, any number of times and with bytes behind it, or never.
What is learned and what is received is true all the same; but a host in a
loop answers nobody, and no `ping` is ever answered.
-/
import ChodOs.Lib.Run
import ChodOs.Net.Checksum
import ChodOs.Net.Frame

namespace ChodOs.Net

open StepSys

/-! ## A host -/

/-- What an address is resolved for. -/
inductive Job
  | resolve
  | udp (dstPort srcPort : UInt16) (data : List UInt8)
  | ping

inductive Doing
  | idle
  /-- In the loop of `arp_resolve`. -/
  | resolving (target : Ip) (job : Job)
  /-- In the loop of `ping`. -/
  | awaiting (seq : UInt16)

structure Host where
  stack : NetworkStack
  icmpSeq : UInt16
  doing : Doing

inductive HostOp
  /-- `arp_resolve`, `udp_send` or `ping`. -/
  | call (dstIp : Ip) (job : Job)
  /-- `try_recv`, in a loop or in `poll`. -/
  | poll (frame : Option (List UInt8))
  | deadline

inductive HostEvent
  | resolved (ip : Ip) (mac : Mac)
  | sentUdp (dstIp : Ip) (dstPort srcPort : UInt16) (data : List UInt8)
  | gotUdp (src : Ip) (srcPort dstPort : UInt16) (data : List UInt8)
  | pinged (seq : UInt16)
  /-- The deadline has passed. -/
  | gaveUp

/-- `b"MuKernel!"`. -/
def pingText : List UInt8 := [0x4D, 0x75, 0x4B, 0x65, 0x72, 0x6E, 0x65, 0x6C, 0x21]

def icmpId : UInt16 := 0x4D55

namespace Host

def new (mac : Mac) (ip : Ip) : Host := ⟨⟨mac, ip, .new, 1, []⟩, 0, .idle⟩

/-- What the caller does with the address. `none`: panic. -/
def resolved (checks : Bool) (h : Host) (dstIp : Ip) (dstMac : Mac) : Job → Option (List HostEvent × Host)
  | .resolve => some ([.resolved dstIp dstMac], { h with doing := .idle })
  | .udp dstPort srcPort data => do
    let udpSeg := build srcPort dstPort data
    let totalLen ← addU16 checks 20 (UInt16.ofNat udpSeg.length)
    let ipHdr := buildHeader protoUdp h.stack.ip dstIp totalLen h.stack.ipId
    let s := { h.stack with ipId := h.stack.ipId + 1 }.sendFrame dstMac ethertypeIpv4 (ipHdr ++ udpSeg)
    some ([.sentUdp dstIp dstPort srcPort data], { h with stack := s, doing := .idle })
  | .ping => do
    let seq := h.icmpSeq
    let icmpMsg := buildEchoRequest icmpId seq pingText
    let totalLen ← addU16 checks 20 (UInt16.ofNat icmpMsg.length)
    let ipHdr := buildHeader protoIcmp h.stack.ip dstIp totalLen h.stack.ipId
    let s := { h.stack with ipId := h.stack.ipId + 1 }.sendFrame dstMac ethertypeIpv4 (ipHdr ++ icmpMsg)
    some ([], { stack := s, icmpSeq := seq + 1, doing := .awaiting seq })

/-- A turn of the loop of `arp_resolve`. -/
def pollResolving (checks : Bool) (h : Host) (target : Ip) (job : Job) (frame : List UInt8) :
    Option (List HostEvent × Host) :=
  match parseArp frame with
  | none => some ([], h)
  | some pkt =>
    if pkt.op = 2 then
      let h := { h with stack := { h.stack with arpCache := h.stack.arpCache.insert pkt.senderIp pkt.senderMac } }
      if pkt.senderIp = target then h.resolved checks target pkt.senderMac job else some ([], h)
    else some ([], h)

/-- A turn of the loop of `ping`. -/
def pollAwaiting (h : Host) (seq : UInt16) (frame : List UInt8) : Option (List HostEvent × Host) := do
  let (pkt, s) ← h.stack.parseFrame frame
  let h := { h with stack := s }
  match pkt with
  | some (.icmpEchoReply _ id replySeq) =>
    if id = icmpId ∧ replySeq = seq then some ([.pinged seq], { h with doing := .idle }) else some ([], h)
  | _ => some ([], h)

/-- `poll`. -/
def pollIdle (h : Host) (frame : List UInt8) : Option (List HostEvent × Host) := do
  let (pkt, s) ← h.stack.parseFrame frame
  let h := { h with stack := s }
  match pkt with
  | some (.udp src srcPort dstPort data) => some ([.gotUdp src srcPort dstPort data], h)
  | _ => some ([], h)

def step (checks : Bool) (h : Host) : HostOp → Option (List HostEvent × Host)
  | .call dstIp job =>
    match h.doing with
    | .idle =>
      match h.stack.arpCache.lookup dstIp with
      | some mac => h.resolved checks dstIp mac job
      | none => some ([], { h with
          stack := h.stack.nicSend (buildRequest h.stack.mac h.stack.ip dstIp), doing := .resolving dstIp job })
    | _ => none
  | .poll none => some ([], h)
  | .poll (some frame) =>
    match h.doing with
    | .idle => h.pollIdle frame
    | .resolving target job => h.pollResolving checks target job frame
    | .awaiting seq => h.pollAwaiting seq frame
  | .deadline =>
    match h.doing with
    | .idle => none
    | _ => some ([.gaveUp], { h with doing := .idle })

end Host

/-! ## The network -/

variable {ι : Type} [DecidableEq ι]

/-- A step of one of the hosts. -/
def netStep (checks : Bool) (net : ι → Host) (a : ι × HostOp) : Option (List (ι × HostEvent) × (ι → Host)) :=
  ((net a.1).step checks a.2).map fun (es, h) => (es.map (a.1, ·), Function.update net a.1 h)

/-- A frame arrives that some host has sent, perhaps with more behind it. -/
def OnWire (_ : List (ι × HostEvent)) (net : ι → Host) (a : ι × HostOp) : Prop :=
  ∀ frame, a.2 = .poll (some frame) → ∃ i, ∃ f ∈ (net i).stack.sent, ∃ pad, frame = f ++ pad

def netBoot (mac : ι → Mac) (ip : ι → Ip) (i : ι) : Host := .new (mac i) (ip i)

/-- There is a host of this address. -/
def Real (net : ι → Host) (ip : Ip) (mac : Mac) : Prop := ∃ k, (net k).stack.ip = ip ∧ (net k).stack.mac = mac

/-- What may be learned, received and answered. -/
structure NetSafe (net : ι → Host) (h : List (ι × HostEvent)) : Prop where
  cached : ∀ i ip mac, (net i).stack.arpCache.lookup ip = some mac → Real net ip mac
  resolved : ∀ i ip mac, (i, .resolved ip mac) ∈ h → Real net ip mac
  received : ∀ past i src srcPort dstPort data rest, h = past ++ (i, .gotUdp src srcPort dstPort data) :: rest →
    ∃ j dst sent, (j, .sentUdp dst dstPort srcPort sent) ∈ past ∧ (net j).stack.ip = src ∧ data <+: sent ∧
      (sent.length ≤ 65527 → data = sent)
  unanswered : ∀ i seq, (i, .pinged seq) ∉ h

/-! ## What is sent -/

/-- The Ethernet header of a frame. -/
def etherHeader (dstMac srcMac : Mac) (ethertype : UInt16) : List UInt8 :=
  dstMac.toList ++ srcMac.toList ++ [hiByte ethertype, ethertype.toUInt8]

/-- What a host sends. -/
inductive Emission
  | request (target : Ip)
  | reply (dstMac : Mac) (dstIp : Ip)
  | datagram (dstMac : Mac) (dstIp : Ip) (totalLen id dstPort srcPort : UInt16) (data : List UInt8)
  | echo (dstMac : Mac) (dstIp : Ip) (totalLen id seq : UInt16)

namespace Emission

/-- Its frame, from a host of these addresses. -/
def frame (mac : Mac) (ip : Ip) : Emission → List UInt8
  | request target => buildRequest mac ip target
  | reply dstMac dstIp => buildReply mac ip dstMac dstIp
  | datagram dstMac dstIp totalLen id dstPort srcPort data =>
    etherHeader dstMac mac ethertypeIpv4 ++
      (buildHeader protoUdp ip dstIp totalLen id ++ build srcPort dstPort data)
  | echo dstMac dstIp totalLen id seq =>
    etherHeader dstMac mac ethertypeIpv4 ++
      (buildHeader protoIcmp ip dstIp totalLen id ++ buildEchoRequest icmpId seq pingText)

/-- What it says of an address. -/
def arp (mac : Mac) (ip : Ip) : Emission → Option ArpPacket
  | request target => some ⟨1, mac, ip, .replicate 6 0, target⟩
  | reply dstMac dstIp => some ⟨2, mac, ip, dstMac, dstIp⟩
  | _ => none

end Emission

/-- The payload of a datagram when it has come, its length modulo 2^16. -/
def arrived (data : List UInt8) : Option (List UInt8) :=
  let len := (UInt16.ofNat (8 + data.length)).toNat
  if len < 8 then none else some (data.take (len - 8))

variable {checks : Bool} {s : NetworkStack} {mac : Mac} {ip : Ip} {pad data : List UInt8} {e : Emission}

theorem Mac.eta (v : Mac) : v = #v[v[0], v[1], v[2], v[3], v[4], v[5]] := by
  ext i hi
  rcases i with _ | _ | _ | _ | _ | _ | i
  · rfl
  · rfl
  · rfl
  · rfl
  · rfl
  · rfl
  · omega

theorem Mac.toList_eta (v : Mac) : v.toList = [v[0], v[1], v[2], v[3], v[4], v[5]] := by
  conv_lhs => rw [Mac.eta v]
  rfl

theorem parseArp_buildFrame (dstMac srcMac : Mac) (op : UInt16) (senderMac : Mac) (senderIp : Ip) (targetMac : Mac)
    (targetIp : Ip) (pad : List UInt8) :
    parseArp (buildFrame dstMac srcMac op senderMac senderIp targetMac targetIp ++ pad) =
      some ⟨op, senderMac, senderIp, targetMac, targetIp⟩ := by
  rw [buildFrame, Mac.toList_eta dstMac, Mac.toList_eta srcMac, Mac.toList_eta senderMac, Mac.toList_eta targetMac,
    Ip.toList_eta senderIp, Ip.toList_eta targetIp]
  simp only [parseArp, List.cons_append, List.nil_append, List.length_cons]
  have hether : word 0x08 0x06 = 0x0806 := by decide
  have hop : word (hiByte op) op.toUInt8 = op := word_bytes op
  rw [if_neg (by omega), if_neg fun h => h hether]
  refine congrArg some ?_
  rw [ArpPacket.mk.injEq]
  refine ⟨hop, ?_, ?_, ?_, ?_⟩
  · ext i hi
    rw [Vector.getElem_ofFn]
    rcases i with _ | _ | _ | _ | _ | _ | i <;> first | rfl | omega
  · ext i hi
    rw [Vector.getElem_ofFn]
    rcases i with _ | _ | _ | _ | i <;> first | rfl | omega
  · ext i hi
    rw [Vector.getElem_ofFn]
    rcases i with _ | _ | _ | _ | _ | _ | i <;> first | rfl | omega
  · ext i hi
    rw [Vector.getElem_ofFn]
    rcases i with _ | _ | _ | _ | i <;> first | rfl | omega

theorem length_etherHeader (dstMac srcMac : Mac) (w : UInt16) : (etherHeader dstMac srcMac w).length = 14 := by
  simp [etherHeader]

theorem word_etherHeader (dstMac srcMac : Mac) (w : UInt16) (payload : List UInt8) :
    word ((etherHeader dstMac srcMac w ++ payload).getD 12 0) ((etherHeader dstMac srcMac w ++ payload).getD 13 0) = w := by
  rw [etherHeader, Mac.toList_eta dstMac, Mac.toList_eta srcMac]
  exact word_bytes w

/-- An IP packet is not taken for one of ARP. -/
theorem parseArp_ip (dstMac srcMac : Mac) (payload : List UInt8) :
    parseArp (etherHeader dstMac srcMac ethertypeIpv4 ++ payload) = none := by
  have hword := word_etherHeader dstMac srcMac ethertypeIpv4 payload
  generalize etherHeader dstMac srcMac ethertypeIpv4 ++ payload = frame at *
  rw [parseArp, hword]
  split
  · rfl
  · exact if_pos (by decide)

theorem frame_datagram (mac : Mac) (ip : Ip) (dstMac : Mac) (dstIp : Ip) (totalLen id dstPort srcPort : UInt16)
    (data pad : List UInt8) : (Emission.datagram dstMac dstIp totalLen id dstPort srcPort data).frame mac ip ++ pad =
      etherHeader dstMac mac ethertypeIpv4 ++ (buildHeader protoUdp ip dstIp totalLen id ++ (build srcPort dstPort data ++ pad)) := by
  simp only [Emission.frame, List.append_assoc]

theorem frame_echo (mac : Mac) (ip : Ip) (dstMac : Mac) (dstIp : Ip) (totalLen id seq : UInt16) (pad : List UInt8) :
    (Emission.echo dstMac dstIp totalLen id seq).frame mac ip ++ pad =
      etherHeader dstMac mac ethertypeIpv4 ++
        (buildHeader protoIcmp ip dstIp totalLen id ++ (buildEchoRequest icmpId seq pingText ++ pad)) := by
  simp only [Emission.frame, List.append_assoc]

variable (mac ip e) in
theorem parseArp_frame (pad : List UInt8) : parseArp (e.frame mac ip ++ pad) = e.arp mac ip := by
  cases e with
  | request target =>
    rw [Emission.frame, buildRequest_eq, parseArp_buildFrame]
    rfl
  | reply dstMac dstIp =>
    rw [Emission.frame, buildReply, parseArp_buildFrame]
    rfl
  | datagram dstMac dstIp totalLen id dstPort srcPort data =>
    rw [frame_datagram]
    exact parseArp_ip dstMac mac _
  | echo dstMac dstIp totalLen id seq =>
    rw [frame_echo]
    exact parseArp_ip dstMac mac _

theorem parse_build (srcPort dstPort : UInt16) (data pad : List UInt8) :
    parse (build srcPort dstPort data ++ pad) = (arrived data).map (srcPort, dstPort, ·) := by
  have hle : (UInt16.ofNat (8 + data.length)).toNat ≤ 8 + data.length := by
    rw [UInt16.toNat_ofNat']
    exact Nat.mod_le _ _
  simp only [parse, build, arrived, List.cons_append, List.nil_append, word_bytes]
  split
  · rfl
  · rw [if_neg (by rw [List.length_append]; omega), Option.map_some, List.take_append_of_le_length (by omega)]

/-- `parse_frame` of an IP packet, up to its payload. -/
theorem parseFrame_ip (s : NetworkStack) (dstMac srcMac : Mac) (proto : UInt8) (src dst : Ip) (totalLen id : UInt16)
    (payload : List UInt8) :
    s.parseFrame (etherHeader dstMac srcMac ethertypeIpv4 ++ (buildHeader proto src dst totalLen id ++ payload)) =
      if proto = protoIcmp then (parseEchoReplyAt payload).map fun r => (r.map fun (id, seq) => .icmpEchoReply src id seq, s)
      else if proto = protoUdp then some ((parse payload).map fun (srcPort, dstPort, data) => .udp src srcPort dstPort data, s)
      else some (none, s) := by
  have hword := word_etherHeader dstMac srcMac ethertypeIpv4 (buildHeader proto src dst totalLen id ++ payload)
  have hdrop : (etherHeader dstMac srcMac ethertypeIpv4 ++ (buildHeader proto src dst totalLen id ++ payload)).drop 14 =
      buildHeader proto src dst totalLen id ++ payload := List.drop_left' (length_etherHeader ..)
  have hlen : 14 ≤ (etherHeader dstMac srcMac ethertypeIpv4 ++ (buildHeader proto src dst totalLen id ++ payload)).length := by
    rw [List.length_append, length_etherHeader]
    exact Nat.le_add_right _ _
  generalize etherHeader dstMac srcMac ethertypeIpv4 ++ (buildHeader proto src dst totalLen id ++ payload) = frame at *
  have hpayload : (buildHeader proto src dst totalLen id ++ payload).drop 20 = payload :=
    List.drop_left' (length_buildHeader ..)
  have hether : wordAt frame 12 = some ethertypeIpv4 := by
    rw [wordAt_eq frame 12 (by omega)]
    exact congrArg some hword
  rw [NetworkStack.parseFrame, if_neg (by omega)]
  simp only [hether, Option.bind_eq_bind, Option.bind_some]
  rw [if_neg (by decide), if_pos trivial, rangeFrom_eq hlen, hdrop]
  simp only [Option.bind_some, parseHeaderAt_eq_parseHeader, parseHeader_buildHeader]
  rw [rangeFrom_eq (by rw [List.length_append, length_buildHeader]; omega), hpayload, Option.bind_some]
  split
  · cases parseEchoReplyAt payload with
    | none => rfl
    | some r => cases r <;> rfl
  · split
    · rw [parseAt_eq_parse, Option.bind_some]
      cases parse payload <;> rfl
    · rfl


/-- An echo request is not taken for a reply. -/
theorem parseEchoReplyAt_request (id seq : UInt16) (payload pad : List UInt8) :
    parseEchoReplyAt (buildEchoRequest id seq payload ++ pad) = some none := by
  have htype : (buildEchoRequest id seq payload ++ pad).getD 0 0 = typeEchoRequest := rfl
  rw [parseEchoReplyAt_eq, htype, if_neg fun h => absurd h.2 (by decide)]

theorem ethertype_buildFrame (dstMac srcMac : Mac) (op : UInt16) (senderMac : Mac) (senderIp : Ip) (targetMac : Mac)
    (targetIp : Ip) (pad : List UInt8) :
    wordAt (buildFrame dstMac srcMac op senderMac senderIp targetMac targetIp ++ pad) 12 = some ethertypeArp ∧
      14 ≤ (buildFrame dstMac srcMac op senderMac senderIp targetMac targetIp ++ pad).length := by
  rw [buildFrame, Mac.toList_eta dstMac, Mac.toList_eta srcMac]
  refine ⟨rfl, ?_⟩
  simp only [List.length_append, List.length_cons, List.length_nil]
  omega

/-- What a stack makes of a frame, and of itself. -/
def Emission.meaning (mac : Mac) (ip : Ip) (s : NetworkStack) : Emission → Option Packet × NetworkStack
  | .request target => (none, if target = s.ip then s.nicSend (buildReply s.mac s.ip mac ip) else s)
  | .reply _ _ => (none, { s with arpCache := s.arpCache.insert ip mac })
  | .datagram _ _ _ _ dstPort srcPort data => ((arrived data).map (.udp ip srcPort dstPort ·), s)
  | .echo .. => (none, s)

variable (mac ip e) in
theorem parseFrame_frame (s : NetworkStack) (pad : List UInt8) :
    s.parseFrame (e.frame mac ip ++ pad) = some (e.meaning mac ip s) := by
  cases e with
  | request target =>
    obtain ⟨hether, hlen⟩ := ethertype_buildFrame (.replicate 6 0xFF) mac 1 mac ip (.replicate 6 0) target pad
    rw [Emission.frame, buildRequest_eq, NetworkStack.parseFrame, if_neg (by omega), hether]
    simp only [Option.bind_eq_bind, Option.bind_some, if_true, parseArpAt_eq, parseArp_buildFrame, true_and]
    rw [Emission.meaning]
    split
    · rfl
    · exact if_neg (by decide)
  | reply dstMac dstIp =>
    obtain ⟨hether, hlen⟩ := ethertype_buildFrame dstMac mac 2 mac ip dstMac dstIp pad
    rw [Emission.frame, buildReply, NetworkStack.parseFrame, if_neg (by omega), hether]
    simp only [Option.bind_eq_bind, Option.bind_some, if_true, parseArpAt_eq, parseArp_buildFrame]
    rw [if_neg fun h => absurd h.1 (by decide)]
    rfl
  | datagram dstMac dstIp totalLen id dstPort srcPort data =>
    rw [frame_datagram, parseFrame_ip, if_neg (by decide), if_pos rfl, parse_build, Option.map_map]
    rfl
  | echo dstMac dstIp totalLen id seq =>
    rw [frame_echo, parseFrame_ip, if_pos rfl, parseEchoReplyAt_request]
    rfl

/-! ## A step of a host -/

namespace ArpTable

variable {t : ArpTable} {x : Ip × Mac}

theorem mem_of_lookup (h : t.lookup ip = some mac) : (ip, mac) ∈ t.entries := by
  obtain ⟨x, hfind, rfl⟩ := Option.map_eq_some_iff.mp h
  have hip := List.find?_some hfind
  rw [beq_iff_eq] at hip
  subst hip
  exact List.mem_of_find?_eq_some hfind

theorem mem_insert (h : x ∈ (t.insert ip mac).entries) : x = (ip, mac) ∨ x ∈ t.entries := by
  rw [insert] at h
  split_ifs at h
  · exact (List.mem_or_eq_of_mem_set h).symm
  · exact (List.mem_append.mp h).elim .inr fun h => .inl (List.mem_singleton.mp h)
  · exact (List.mem_append.mp h).elim (fun h => .inr (List.mem_of_mem_tail h)) fun h => .inl (List.mem_singleton.mp h)

end ArpTable

/-- A datagram is told of. -/
def Emission.Told (es : List HostEvent) : Emission → Prop
  | .datagram _ dstIp _ _ dstPort srcPort data => .sentUdp dstIp dstPort srcPort data ∈ es
  | _ => True

variable {R : Ip → Mac → Prop} {h h' : Host} {es : List HostEvent} {came : Option (Ip × Emission)}

/-- What a step changes, the addresses that are known being right, and what came being of a host. -/
structure Host.Goes (R : Ip → Mac → Prop) (came : Option (Ip × Emission)) (h : Host) (es : List HostEvent) (h' : Host) : Prop where
  mac : h'.stack.mac = h.stack.mac
  ip : h'.stack.ip = h.stack.ip
  cache : ∀ x ∈ h'.stack.arpCache.entries, R x.1 x.2
  sent : ∃ new, h'.stack.sent = h.stack.sent ++ new ∧ ∀ f ∈ new, ∃ e : Emission, f = e.frame h.stack.mac h.stack.ip ∧ e.Told es
  resolved : ∀ ip mac, .resolved ip mac ∈ es → R ip mac
  got : ∀ src srcPort dstPort data, .gotUdp src srcPort dstPort data ∈ es →
    ∃ dstMac dstIp totalLen id sent, came = some (src, .datagram dstMac dstIp totalLen id dstPort srcPort sent) ∧
      arrived sent = some data
  pinged : ∀ seq, .pinged seq ∉ es

theorem nicSend_sent (s : NetworkStack) {f : List UInt8} (hf : f ≠ []) : (s.nicSend f).sent = s.sent ++ [f] := by
  rw [NetworkStack.nicSend, if_neg hf]

namespace Host

/-- Nothing is heard of. -/
theorem Goes.quiet (hcache : ∀ x ∈ h.stack.arpCache.entries, R x.1 x.2) {doing : Doing} {icmpSeq : UInt16} :
    Goes R came h [] { stack := h.stack, icmpSeq, doing } where
  mac := rfl
  ip := rfl
  cache := hcache
  sent := ⟨[], (List.append_nil _).symm, nofun⟩
  resolved := nofun
  got := nofun
  pinged := nofun

theorem frame_ne_nil (mac : Mac) (ip : Ip) (e : Emission) : e.frame mac ip ≠ [] := by
  intro h
  have hlen := congrArg List.length h
  cases e <;> simp [Emission.frame, buildRequest, buildReply, buildFrame, etherHeader] at hlen

/-- A frame is sent. -/
theorem Goes.send (hcache : ∀ x ∈ h.stack.arpCache.entries, R x.1 x.2) (ipId : UInt16) (e : Emission)
    (htold : e.Told es) (hes : ∀ ev ∈ es, ∃ dst dp sp data, ev = .sentUdp dst dp sp data)
    {icmpSeq : UInt16} {doing : Doing} : Goes R came h es
      ⟨{ h.stack with ipId }.nicSend (e.frame h.stack.mac h.stack.ip), icmpSeq, doing⟩ := by
  rw [NetworkStack.nicSend, if_neg (frame_ne_nil _ _ e)]
  refine ⟨rfl, rfl, hcache, ⟨[e.frame h.stack.mac h.stack.ip], rfl, fun f hf => ⟨e, List.mem_singleton.mp hf, htold⟩⟩, ?_, ?_, ?_⟩
  · intro ip mac hmem
    obtain ⟨_, _, _, _, hev⟩ := hes _ hmem
    cases hev
  · intro src sp dp data hmem
    obtain ⟨_, _, _, _, hev⟩ := hes _ hmem
    cases hev
  · intro seq hmem
    obtain ⟨_, _, _, _, hev⟩ := hes _ hmem
    cases hev

theorem goes_resolved {dstIp : Ip} {dstMac : Mac} {job : Job} (hcache : ∀ x ∈ h.stack.arpCache.entries, R x.1 x.2)
    (haddr : R dstIp dstMac) (hs : h.resolved checks dstIp dstMac job = some (es, h')) : Goes R came h es h' := by
  cases job with
  | resolve =>
    cases hs
    refine ⟨rfl, rfl, hcache, ⟨[], (List.append_nil _).symm, nofun⟩, fun ip mac hmem => ?_, ?_, ?_⟩
    · cases List.mem_singleton.mp hmem
      exact haddr
    · exact fun _ _ _ _ hmem => nomatch List.mem_singleton.mp hmem
    · exact fun _ hmem => nomatch List.mem_singleton.mp hmem
  | udp dstPort srcPort data =>
    obtain ⟨totalLen, -, hs⟩ := Option.bind_eq_some_iff.mp hs
    cases hs
    refine Goes.send hcache (h.stack.ipId + 1) (.datagram dstMac dstIp totalLen h.stack.ipId dstPort srcPort data)
      (List.mem_singleton_self _) fun ev hev => ?_
    exact ⟨_, _, _, _, List.mem_singleton.mp hev⟩
  | ping =>
    rw [resolved] at hs
    dsimp only at hs
    obtain ⟨totalLen, -, hs⟩ := Option.bind_eq_some_iff.mp hs
    cases hs
    exact Goes.send hcache (h.stack.ipId + 1) (.echo dstMac dstIp totalLen h.stack.ipId h.icmpSeq) trivial fun _ hev =>
      absurd hev List.not_mem_nil

/-- A frame is taken in, whatever it is. -/
theorem goes_parseFrame (hcache : ∀ x ∈ h.stack.arpCache.entries, R x.1 x.2) (haddr : R ip mac) {icmpSeq : UInt16}
    {doing : Doing} : Goes R came h [] ⟨(e.meaning mac ip h.stack).2, icmpSeq, doing⟩ := by
  cases e with
  | request target =>
    rw [Emission.meaning]
    dsimp only
    split
    · exact Goes.send hcache h.stack.ipId (.reply mac ip) trivial fun _ hev => absurd hev List.not_mem_nil
    · exact .quiet hcache
  | reply dstMac dstIp =>
    refine ⟨rfl, rfl, fun x hx => ?_, ⟨[], (List.append_nil _).symm, nofun⟩, nofun, nofun, nofun⟩
    rcases ArpTable.mem_insert hx with rfl | hx
    · exact haddr
    · exact hcache x hx
  | datagram dstMac dstIp totalLen id dstPort srcPort data => exact .quiet hcache
  | echo dstMac dstIp totalLen id seq => exact .quiet hcache

theorem goes_pollIdle (hcache : ∀ x ∈ h.stack.arpCache.entries, R x.1 x.2) (haddr : R ip mac)
    (hs : h.pollIdle (e.frame mac ip ++ pad) = some (es, h')) : Goes R (some (ip, e)) h es h' := by
  have hquiet : Goes R (some (ip, e)) h [] { h with stack := (e.meaning mac ip h.stack).2 } :=
    goes_parseFrame hcache haddr
  rw [pollIdle, parseFrame_frame, Option.bind_eq_bind, Option.bind_some] at hs
  cases e with
  | datagram dstMac dstIp totalLen id dstPort srcPort data =>
    rw [Emission.meaning] at hs hquiet
    cases harrived : arrived data with
    | none =>
      rw [harrived] at hs
      cases hs
      exact hquiet
    | some got =>
      rw [harrived] at hs
      cases hs
      refine ⟨rfl, rfl, hcache, ⟨[], (List.append_nil _).symm, nofun⟩, ?_, fun src sp dp data' hmem => ?_, ?_⟩
      · exact fun _ _ hmem => nomatch List.mem_singleton.mp hmem
      · cases List.mem_singleton.mp hmem
        exact ⟨dstMac, dstIp, totalLen, id, data, rfl, harrived⟩
      · exact fun _ hmem => nomatch List.mem_singleton.mp hmem
  | _ =>
    cases hs
    exact hquiet

theorem goes_pollAwaiting {seq : UInt16} (hcache : ∀ x ∈ h.stack.arpCache.entries, R x.1 x.2) (haddr : R ip mac)
    (hs : h.pollAwaiting seq (e.frame mac ip ++ pad) = some (es, h')) : Goes R (some (ip, e)) h es h' := by
  have hquiet : Goes R (some (ip, e)) h [] { h with stack := (e.meaning mac ip h.stack).2 } :=
    goes_parseFrame hcache haddr
  rw [pollAwaiting, parseFrame_frame, Option.bind_eq_bind, Option.bind_some] at hs
  cases e with
  | datagram dstMac dstIp totalLen id dstPort srcPort data =>
    rw [Emission.meaning] at hs hquiet
    cases harrived : arrived data <;>
    · rw [harrived] at hs
      cases hs
      exact hquiet
  | _ =>
    cases hs
    exact hquiet

theorem goes_pollResolving {target : Ip} {job : Job} (hcache : ∀ x ∈ h.stack.arpCache.entries, R x.1 x.2)
    (haddr : R ip mac) (hs : h.pollResolving checks target job (e.frame mac ip ++ pad) = some (es, h')) :
    Goes R (some (ip, e)) h es h' := by
  have hquiet : Goes R (some (ip, e)) h [] { h with stack := (e.meaning mac ip h.stack).2 } :=
    goes_parseFrame hcache haddr
  rw [pollResolving, parseArp_frame] at hs
  cases e with
  | reply dstMac dstIp =>
    rw [Emission.arp] at hs
    dsimp only at hs
    rw [if_pos rfl] at hs
    split at hs
    · next htarget =>
      subst htarget
      have hgoes : Goes R (some (ip, .reply dstMac dstIp)) _ es h' := goes_resolved hquiet.cache haddr hs
      exact ⟨hgoes.mac, hgoes.ip, hgoes.cache, hgoes.sent, hgoes.resolved, hgoes.got, hgoes.pinged⟩
    · cases hs
      exact hquiet
  | _ =>
    cases hs
    exact .quiet hcache

/-- What comes is from a host of a known address. -/
def Came (R : Ip → Mac → Prop) : HostOp → Option (Ip × Emission) → Prop
  | .poll (some frame), came => ∃ mac ip pad, ∃ e : Emission, R ip mac ∧ frame = e.frame mac ip ++ pad ∧ came = some (ip, e)
  | _, _ => True

/-- Every step of a host goes so, when what comes is from a host of a known address. -/
theorem goes {op : HostOp} (hcache : ∀ x ∈ h.stack.arpCache.entries, R x.1 x.2) (hcame : Came R op came)
    (hs : h.step checks op = some (es, h')) : Goes R came h es h' := by
  cases op with
  | call dstIp job =>
    rw [step] at hs
    split at hs
    · split at hs
      · next hlookup => exact goes_resolved hcache (hcache _ (ArpTable.mem_of_lookup hlookup)) hs
      · cases hs
        exact Goes.send hcache h.stack.ipId (.request dstIp) trivial fun _ hev => absurd hev List.not_mem_nil
    · cases hs
  | poll frame =>
    cases frame with
    | none =>
      cases hs
      exact .quiet hcache
    | some frame =>
      obtain ⟨mac, ip, pad, e, haddr, rfl, rfl⟩ := hcame
      rw [step] at hs
      split at hs
      · exact goes_pollIdle hcache haddr hs
      · exact goes_pollResolving hcache haddr hs
      · exact goes_pollAwaiting hcache haddr hs
  | deadline =>
    rw [step] at hs
    split at hs
    · cases hs
    · cases hs
      refine ⟨rfl, rfl, hcache, ⟨[], (List.append_nil _).symm, nofun⟩, ?_, ?_, ?_⟩
      · exact fun _ _ hmem => nomatch List.mem_singleton.mp hmem
      · exact fun _ _ _ _ hmem => nomatch List.mem_singleton.mp hmem
      · exact fun _ hmem => nomatch List.mem_singleton.mp hmem

end Host

/-- `arp_resolve` goes by these turns: with its polls, each of them a turn, it
finds the address that the last of them does, or none. -/
theorem Host.runs_awaitReply {h₀ : Host} {target : Ip} (polls : List (Option (List UInt8)))
    (hr : Runs (Host.step checks) free h₀ [] h) (hdoing : h.doing = .resolving target .resolve) :
    match NetworkStack.awaitReply target polls h.stack with
    | (some mac, s) => Runs (Host.step checks) free h₀ [.resolved target mac] { h with stack := s, doing := .idle }
    | (none, s) => Runs (Host.step checks) free h₀ [] { h with stack := s } := by
  induction polls generalizing h with
  | nil => exact hr
  | cons poll polls ih =>
    have hturn : ∀ es h', h.step checks (.poll poll) = some (es, h') → Runs (Host.step checks) free h₀ es h' :=
      fun es h' hs => hr.next (a := .poll poll) trivial hs
    rw [NetworkStack.awaitReply]
    cases poll with
    | none => exact ih hr hdoing
    | some frame =>
      rw [Option.bind_some]
      cases hparse : parseArp frame with
      | none => exact ih hr hdoing
      | some pkt =>
        dsimp only
        by_cases hop : pkt.op = 2
        · rw [if_pos hop]
          by_cases htarget : pkt.senderIp = target
          · rw [if_pos htarget]
            refine hturn _ _ ?_
            simp only [Host.step, hdoing, Host.pollResolving, hparse, if_pos hop, if_pos htarget]
            rfl
          · rw [if_neg htarget]
            refine ih (h := { h with stack := { h.stack with
              arpCache := h.stack.arpCache.insert pkt.senderIp pkt.senderMac } }) (hturn _ _ ?_) hdoing
            simp only [Host.step, hdoing, Host.pollResolving, hparse, if_pos hop, if_neg htarget]
        · rw [if_neg hop]
          exact ih hr hdoing

/-! ## Runs of the network -/

variable {net net' : ι → Host} {hist : List (ι × HostEvent)} {macs : ι → Mac} {ips : ι → Ip}

/-- The events of a host. -/
def eventsOf (i : ι) (hist : List (ι × HostEvent)) : List HostEvent := (hist.filter (·.1 = i)).map (·.2)

theorem mem_eventsOf {i : ι} {ev : HostEvent} : ev ∈ eventsOf i hist ↔ (i, ev) ∈ hist := by
  simp [eventsOf]

/-- What a network of hosts with these addresses keeps. -/
structure NetKept (macs : ι → Mac) (ips : ι → Ip) (net : ι → Host) (hist : List (ι × HostEvent)) : Prop where
  mac : ∀ i, (net i).stack.mac = macs i
  ip : ∀ i, (net i).stack.ip = ips i
  cache : ∀ i, ∀ x ∈ (net i).stack.arpCache.entries, ∃ k, ips k = x.1 ∧ macs k = x.2
  sent : ∀ i, ∀ f ∈ (net i).stack.sent, ∃ e : Emission, f = e.frame (macs i) (ips i) ∧ e.Told (eventsOf i hist)
  resolved : ∀ i ip mac, (i, .resolved ip mac) ∈ hist → ∃ k, ips k = ip ∧ macs k = mac
  received : ∀ past i src srcPort dstPort data rest, hist = past ++ (i, .gotUdp src srcPort dstPort data) :: rest →
    ∃ j dst sent, (j, .sentUdp dst dstPort srcPort sent) ∈ past ∧ ips j = src ∧ arrived sent = some data
  unanswered : ∀ i seq, (i, .pinged seq) ∉ hist

theorem netKept_boot (macs : ι → Mac) (ips : ι → Ip) : NetKept macs ips (netBoot macs ips) [] where
  mac _ := rfl
  ip _ := rfl
  cache _ := nofun
  sent _ := nofun
  resolved _ _ _ := nofun
  received past i src srcPort dstPort data rest h := absurd h (by simp)
  unanswered _ _ := nofun

theorem Emission.Told.mono {es es' : List HostEvent} (h : e.Told es) (hsub : ∀ ev ∈ es, ev ∈ es') : e.Told es' := by
  cases e with
  | datagram => exact hsub _ h
  | _ => trivial

/-- What comes from the wire is from a host, and a datagram was told of when it was sent. -/
theorem came_of_onWire (hk : NetKept macs ips net hist) {i : ι} {op : HostOp} (hok : OnWire hist net (i, op)) :
    ∃ came, Host.Came (fun ip mac => ∃ k, ips k = ip ∧ macs k = mac) op came ∧
      ∀ src e, came = some (src, e) → ∃ j, ips j = src ∧ e.Told (eventsOf j hist) := by
  cases op with
  | poll frame =>
    cases frame with
    | none => exact ⟨none, trivial, nofun⟩
    | some frame =>
      obtain ⟨j, f, hf, pad, rfl⟩ := hok frame rfl
      obtain ⟨e, rfl, htold⟩ := hk.sent j f hf
      refine ⟨some (ips j, e), ⟨macs j, ips j, pad, e, ⟨j, rfl, rfl⟩, rfl, rfl⟩, fun src e' h => ?_⟩
      cases h
      exact ⟨j, rfl, htold⟩
  | call dstIp job => exact ⟨none, trivial, nofun⟩
  | deadline => exact ⟨none, trivial, nofun⟩

theorem split_append {α : Type} {l l' past rest : List α} {x : α} (h : l ++ l' = past ++ x :: rest) :
    (∃ rest', l = past ++ x :: rest') ∨ ∃ pre, past = l ++ pre ∧ l' = pre ++ x :: rest := by
  rcases List.append_eq_append_iff.mp h with ⟨pre, hpast, hl'⟩ | ⟨mid, hl, hrest⟩
  · exact .inr ⟨pre, hpast, hl'⟩
  · cases mid with
    | nil => exact .inr ⟨[], by rw [hl, List.append_nil, List.append_nil], hrest.symm⟩
    | cons y mid =>
      cases hrest
      exact .inl ⟨mid, hl⟩

theorem NetKept.step (hk : NetKept macs ips net hist) {a : ι × HostOp} {es : List (ι × HostEvent)} (hok : OnWire hist net a)
    (hs : netStep checks net a = some (es, net')) : NetKept macs ips net' (hist ++ es) := by
  obtain ⟨i, op⟩ := a
  obtain ⟨⟨es, h'⟩, hstep, heq⟩ := Option.map_eq_some_iff.mp hs
  cases heq
  obtain ⟨came, hcame, hfrom⟩ := came_of_onWire hk hok
  have hgoes := Host.goes (R := fun ip mac => ∃ k, ips k = ip ∧ macs k = mac) (hk.cache i) hcame hstep
  have hmine : ∀ ev ∈ es, ev ∈ eventsOf i (hist ++ es.map (i, ·)) := fun ev hev =>
    mem_eventsOf.mpr (List.mem_append_right _ (List.mem_map_of_mem hev))
  have hold : ∀ j, ∀ ev ∈ eventsOf j hist, ev ∈ eventsOf j (hist ++ es.map (i, ·)) := fun j ev hev =>
    mem_eventsOf.mpr (List.mem_append_left _ (mem_eventsOf.mp hev))
  have hnew : ∀ {j ev}, (j, ev) ∈ es.map (i, ·) → j = i ∧ ev ∈ es := by
    intro j ev hev
    obtain ⟨ev', hev', heq⟩ := List.mem_map.mp hev
    cases heq
    exact ⟨rfl, hev'⟩
  refine ⟨fun j => ?_, fun j => ?_, fun j => ?_, fun j => ?_, fun j ip mac hmem => ?_, ?_, fun j seq hmem => ?_⟩
  · rcases eq_or_ne j i with rfl | hne
    · rw [Function.update_self, hgoes.mac, hk.mac]
    · rw [Function.update_of_ne hne, hk.mac]
  · rcases eq_or_ne j i with rfl | hne
    · rw [Function.update_self, hgoes.ip, hk.ip]
    · rw [Function.update_of_ne hne, hk.ip]
  · rcases eq_or_ne j i with rfl | hne
    · rw [Function.update_self]
      exact hgoes.cache
    · rw [Function.update_of_ne hne]
      exact hk.cache j
  · rcases eq_or_ne j i with rfl | hne
    · rw [Function.update_self]
      obtain ⟨new, hsent, htold⟩ := hgoes.sent
      rw [hsent]
      intro f hf
      rcases List.mem_append.mp hf with hf | hf
      · obtain ⟨e, hframe, he⟩ := hk.sent j f hf
        exact ⟨e, hframe, he.mono (hold j)⟩
      · obtain ⟨e, hframe, he⟩ := htold f hf
        rw [hk.mac, hk.ip] at hframe
        exact ⟨e, hframe, he.mono hmine⟩
    · rw [Function.update_of_ne hne]
      intro f hf
      obtain ⟨e, hframe, he⟩ := hk.sent j f hf
      exact ⟨e, hframe, he.mono (hold j)⟩
  · rcases List.mem_append.mp hmem with hmem | hmem
    · exact hk.resolved j ip mac hmem
    · exact hgoes.resolved ip mac (hnew hmem).2
  · intro past j src srcPort dstPort data rest hsplit
    rcases split_append hsplit with ⟨rest', hhist⟩ | ⟨pre, rfl, hes⟩
    · exact hk.received past j src srcPort dstPort data rest' hhist
    · obtain ⟨-, hgot⟩ := hnew (hes ▸ List.mem_append_right _ (List.mem_cons_self ..))
      obtain ⟨dstMac, dstIp, totalLen, id, sent, hcame, harrived⟩ := hgoes.got _ _ _ _ hgot
      obtain ⟨k, hk, htold⟩ := hfrom _ _ hcame
      exact ⟨k, dstIp, sent, List.mem_append_left _ (mem_eventsOf.mp htold), hk, harrived⟩
  · rcases List.mem_append.mp hmem with hmem | hmem
    · exact hk.unanswered j seq hmem
    · exact hgoes.pinged seq (hnew hmem).2

theorem arrived_eq {sent : List UInt8} (h : arrived sent = some data) :
    data <+: sent ∧ (sent.length ≤ 65527 → data = sent) := by
  rw [arrived] at h
  split at h
  · cases h
  · cases h
    refine ⟨List.take_prefix _ _, fun hlen => List.take_of_length_le ?_⟩
    rw [UInt16.toNat_ofNat_of_lt' (by change _ < 2 ^ 16; omega)]
    omega

/-- Hosts call and poll in any order, and what they sent comes in any order,
many times, or not at all. The addresses that they learn are those of hosts;
what an application receives was sent before, by the host it seems to be from,
to these ports and with these bytes (the first of them, if there were more
than a datagram holds); and no host's `ping` is ever answered. -/
theorem network_safe (hr : Runs (netStep checks) OnWire (netBoot macs ips) hist net) : NetSafe net hist := by
  have hk : NetKept macs ips net hist :=
    hr.invariant (fun hist net => NetKept macs ips net hist) (netKept_boot macs ips) fun ih hok hs => ih.step hok hs
  have hreal : ∀ ip mac, (∃ k, ips k = ip ∧ macs k = mac) → Real net ip mac := by
    rintro ip mac ⟨k, rfl, rfl⟩
    exact ⟨k, hk.ip k, hk.mac k⟩
  refine ⟨fun i ip mac h => hreal _ _ (hk.cache i _ (ArpTable.mem_of_lookup h)),
    fun i ip mac h => hreal _ _ (hk.resolved i ip mac h), ?_, hk.unanswered⟩
  intro past i src srcPort dstPort data rest hsplit
  obtain ⟨j, dst, sent, hmem, rfl, harrived⟩ := hk.received past i src srcPort dstPort data rest hsplit
  exact ⟨j, dst, sent, hmem, hk.ip j, arrived_eq harrived⟩

/-- A frame that was sent can come next. -/
theorem runs_deliver {start : ι → Host} (hr : Runs (netStep checks) OnWire start hist net) {i j : ι} {frame : List UInt8}
    {es : List HostEvent} {h' : Host} (hsent : frame ∈ (net i).stack.sent)
    (hs : (net j).step checks (.poll (some frame)) = some (es, h')) :
    Runs (netStep checks) OnWire start (hist ++ es.map (j, ·)) (Function.update net j h') := by
  refine hr.next (a := (j, .poll (some frame))) ?_ (by rw [netStep, hs]; rfl)
  intro f hf
  cases hf
  exact ⟨i, frame, hsent, [], (List.append_nil _).symm⟩

/-- Two hosts. -/
def pairNet : Bool → Host := netBoot (fun b => .replicate 6 (if b then 2 else 1)) fun b => .replicate 4 (if b then 2 else 1)

/-- One host asks, and the other hears it. -/
theorem network_safe_pair : ∃ (net : Bool → Host) (hist : List (Bool × HostEvent)),
    Runs (netStep false) OnWire pairNet hist net ∧ NetSafe net hist ∧
      (net true).stack.sent = [buildReply (.replicate 6 2) (.replicate 4 2) (.replicate 6 1) (.replicate 4 1)] := by
  have hr₁ : Runs (netStep false) OnWire pairNet ([] ++ []) _ :=
    Runs.start.next (a := (false, .call (.replicate 4 2) .resolve)) (fun _ hf => by cases hf) rfl
  have hr₂ : Runs (netStep false) OnWire pairNet ([] ++ [] ++ []) _ :=
    runs_deliver (i := false) (j := true) hr₁ (List.mem_singleton_self _) rfl
  exact ⟨_, _, hr₂, network_safe hr₂, rfl⟩

/-! ## A host that waits answers nobody -/

/-- No reply with this address has been sent. -/
def Unreplied (net : ι → Host) (target : Ip) : Prop :=
  ∀ i, ∀ f ∈ (net i).stack.sent, ∀ pad, ∀ pkt, parseArp (f ++ pad) = some pkt → pkt.op = 2 → pkt.senderIp ≠ target

/-- All hosts are in the loop of `arp_resolve`, and nobody has sent what they wait for. -/
def AllResolving (net : ι → Host) : Prop := ∀ i, ∃ target job, (net i).doing = .resolving target job ∧ Unreplied net target

/-- No deadline passes. -/
def Patient (h : List (ι × HostEvent)) (net : ι → Host) (a : ι × HostOp) : Prop := OnWire h net a ∧ a.2 ≠ .deadline

/-- Nothing happens but that addresses are learned. -/
theorem AllResolving.step (hall : AllResolving net) {a : ι × HostOp} {es : List (ι × HostEvent)} (hok : Patient hist net a)
    (hs : netStep checks net a = some (es, net')) :
    es = [] ∧ ∀ i, (net' i).doing = (net i).doing ∧ (net' i).stack.sent = (net i).stack.sent := by
  obtain ⟨i, op⟩ := a
  obtain ⟨⟨es, h'⟩, hstep, heq⟩ := Option.map_eq_some_iff.mp hs
  cases heq
  obtain ⟨target, job, hdoing, hunreplied⟩ := hall i
  suffices h : es = [] ∧ h'.doing = (net i).doing ∧ h'.stack.sent = (net i).stack.sent by
    refine ⟨by rw [h.1]; rfl, fun j => ?_⟩
    rcases eq_or_ne j i with rfl | hne
    · rw [Function.update_self]
      exact h.2
    · rw [Function.update_of_ne hne]
      exact ⟨rfl, rfl⟩
  cases op with
  | call dstIp job' =>
    simp only [Host.step, hdoing] at hstep
    cases hstep
  | deadline => exact absurd rfl hok.2
  | poll frame =>
    cases frame with
    | none =>
      cases hstep
      exact ⟨rfl, rfl, rfl⟩
    | some frame =>
      obtain ⟨j, f, hf, pad, rfl⟩ := hok.1 frame rfl
      simp only [Host.step, hdoing] at hstep
      rw [Host.pollResolving] at hstep
      split at hstep
      · cases hstep
        exact ⟨rfl, rfl, rfl⟩
      · next pkt hpkt =>
        split at hstep
        · next hop =>
          dsimp only at hstep
          rw [if_neg (hunreplied j f hf pad pkt hpkt hop)] at hstep
          cases hstep
          exact ⟨rfl, rfl, rfl⟩
        · cases hstep
          exact ⟨rfl, rfl, rfl⟩

/-- When all hosts resolve at once, and no reply is under way, none of them
gets anywhere: whatever comes, they wait and send nothing, until a deadline
passes. -/
theorem all_resolving_none_resolves {start : ι → Host} (hall : AllResolving start)
    (hr : Runs (netStep checks) Patient start hist net) :
    hist = [] ∧ ∀ i, (net i).doing = (start i).doing ∧ (net i).stack.sent = (start i).stack.sent := by
  refine hr.invariant
    (fun hist net => hist = [] ∧ ∀ i, (net i).doing = (start i).doing ∧ (net i).stack.sent = (start i).stack.sent)
    ⟨rfl, fun i => ⟨rfl, rfl⟩⟩ ?_
  rintro hist net a es net' ⟨rfl, hsame⟩ hok hs
  have hnow : AllResolving net := fun i => by
    obtain ⟨target, job, hdoing, hunreplied⟩ := hall i
    refine ⟨target, job, (hsame i).1.trans hdoing, fun j f hf => hunreplied j f ?_⟩
    rwa [← (hsame j).2]
  obtain ⟨rfl, hnext⟩ := hnow.step hok hs
  exact ⟨rfl, fun i => ⟨(hnext i).1.trans (hsame i).1, (hnext i).2.trans (hsame i).2⟩⟩

/-- Two hosts ask for each other's address, and hear each other. -/
theorem all_resolving_none_resolves_pair : ∃ (start net : Bool → Host) (hist : List (Bool × HostEvent)),
    AllResolving start ∧ Runs (netStep false) Patient start hist net ∧ hist = [] ∧
      (net true).doing = .resolving (.replicate 4 1) .resolve := by
  let start (b : Bool) : Host := { pairNet b with
    stack := { (pairNet b).stack with
      sent := [buildRequest (pairNet b).stack.mac (pairNet b).stack.ip (pairNet !b).stack.ip] }
    doing := .resolving (pairNet !b).stack.ip .resolve }
  have hall : AllResolving start := fun b => by
    refine ⟨_, _, rfl, fun i f hf pad pkt hpkt hop => ?_⟩
    obtain rfl := List.mem_singleton.mp hf
    have hparse := parseArp_frame (pairNet i).stack.mac (pairNet i).stack.ip (.request (pairNet !i).stack.ip) pad
    cases hparse.symm.trans hpkt
    exact absurd hop (by decide : ¬ (1 : UInt16) = 2)
  have hr : Runs (netStep false) Patient start ([] ++ []) _ :=
    Runs.start.next (a := (true, .poll (some (buildRequest (.replicate 6 1) (.replicate 4 1) (.replicate 4 2)))))
      ⟨fun _ hf => by cases hf; exact ⟨false, _, List.mem_singleton_self _, [], rfl⟩, nofun⟩ rfl
  obtain ⟨hnil, hsame⟩ := all_resolving_none_resolves hall hr
  exact ⟨start, _, _, hall, hr, hnil, (hsame true).1⟩

/-! ## A datagram on its way -/

theorem arrived_of_le (h : data.length ≤ 65507) : arrived data = some data := by
  have hlen : (UInt16.ofNat (8 + data.length)).toNat = 8 + data.length :=
    UInt16.toNat_ofNat_of_lt' (by change _ < 2 ^ 16; omega)
  rw [arrived, hlen, if_neg (by omega), Nat.add_sub_cancel_left, List.take_length]

/-- The length of a datagram does not overflow. -/
theorem addU16_datagram (checks : Bool) (srcPort dstPort : UInt16) (h : data.length ≤ 65507) :
    addU16 checks 20 (UInt16.ofNat (build srcPort dstPort data).length) =
      some (20 + UInt16.ofNat (build srcPort dstPort data).length) := by
  refine if_pos ?_
  rw [length_build, UInt16.toNat_ofNat_of_lt' (by change _ < 2 ^ 16; omega)]
  change 20 + (8 + data.length) < 2 ^ 16
  omega

namespace Host

theorem resolved_udp (checks : Bool) (h : Host) (dstIp : Ip) (dstMac : Mac) (dstPort srcPort : UInt16)
    (hdata : data.length ≤ 65507) : ∃ e : Emission,
      e = .datagram dstMac dstIp (20 + UInt16.ofNat (build srcPort dstPort data).length) h.stack.ipId dstPort srcPort data ∧
        h.resolved checks dstIp dstMac (.udp dstPort srcPort data) = some ([.sentUdp dstIp dstPort srcPort data],
          { h with
            stack := { h.stack with ipId := h.stack.ipId + 1 }.nicSend (e.frame h.stack.mac h.stack.ip)
            doing := .idle }) := by
  refine ⟨_, rfl, ?_⟩
  rw [resolved, addU16_datagram checks srcPort dstPort hdata]
  rfl

theorem pollIdle_datagram (h : Host) (dstMac : Mac) (dstIp : Ip) (totalLen id dstPort srcPort : UInt16)
    (hdata : data.length ≤ 65507) : h.pollIdle ((Emission.datagram dstMac dstIp totalLen id dstPort srcPort data).frame mac ip) =
      some ([.gotUdp ip srcPort dstPort data], h) := by
  have hparse := parseFrame_frame mac ip (.datagram dstMac dstIp totalLen id dstPort srcPort data) h.stack []
  rw [List.append_nil, Emission.meaning, arrived_of_le hdata] at hparse
  rw [pollIdle, hparse]
  rfl

end Host

/-- Once the address is known, the datagram is sent, and can come. -/
theorem runs_send_and_get {start : ι → Host} (hr : Runs (netStep checks) OnWire start hist net) {i j : ι} (hij : i ≠ j)
    (hj : (net j).doing = .idle) {op : HostOp} (hok : OnWire hist net (i, op)) {h : Host} {dstIp : Ip} {dstMac : Mac}
    {dstPort srcPort : UInt16} (hdata : data.length ≤ 65507)
    (hop : (net i).step checks op = h.resolved checks dstIp dstMac (.udp dstPort srcPort data)) :
    ∃ net', Runs (netStep checks) OnWire start
      (hist ++ [(i, .sentUdp dstIp dstPort srcPort data)] ++ [(j, .gotUdp h.stack.ip srcPort dstPort data)]) net' := by
  obtain ⟨e, he, hcall⟩ := Host.resolved_udp checks h dstIp dstMac dstPort srcPort hdata
  rw [hcall] at hop
  have hr₁ := hr.next hok (by rw [netStep, hop]; rfl)
  have hgot : (net j).step checks (.poll (some (e.frame h.stack.mac h.stack.ip))) =
      some ([.gotUdp h.stack.ip srcPort dstPort data], net j) := by
    rw [he]
    simp only [Host.step, hj]
    exact Host.pollIdle_datagram _ _ _ _ _ _ _ hdata
  rw [← Function.update_of_ne hij.symm _ net] at hgot
  refine ⟨_, runs_deliver (i := i) hr₁ ?_ hgot⟩
  rw [Function.update_self, nicSend_sent _ (Host.frame_ne_nil _ _ e)]
  exact List.mem_append_right _ (List.mem_singleton_self _)

/-- From one idle host to another a datagram that fits can always come through, the address
being asked for if it is not known. -/
theorem datagram_goes_through (net : ι → Host) {i j : ι} (hij : i ≠ j) (hi : (net i).doing = .idle) (hj : (net j).doing = .idle)
    (dstPort srcPort : UInt16) (hdata : data.length ≤ 65507) : ∃ net', Runs (netStep checks) OnWire net
      [(i, .sentUdp (net j).stack.ip dstPort srcPort data), (j, .gotUdp (net i).stack.ip srcPort dstPort data)] net' := by
  cases hlookup : (net i).stack.arpCache.lookup (net j).stack.ip with
  | some mac =>
    have hcall : (net i).step checks (.call (net j).stack.ip (.udp dstPort srcPort data)) =
        (net i).resolved checks (net j).stack.ip mac (.udp dstPort srcPort data) := by
      simp only [Host.step, hi, hlookup]
    exact runs_send_and_get .start hij hj (fun _ hf => by cases hf) hdata hcall
  | none =>
    -- The request goes out, is answered, and the answer comes.
    let request := buildRequest (net i).stack.mac (net i).stack.ip (net j).stack.ip
    let reply := buildReply (net j).stack.mac (net j).stack.ip (net i).stack.mac (net i).stack.ip
    let asking : Host := { net i with
      stack := (net i).stack.nicSend request
      doing := .resolving (net j).stack.ip (.udp dstPort srcPort data) }
    let answered : Host := { net j with stack := (net j).stack.nicSend reply }
    have hr₁ : Runs (netStep checks) OnWire net ([] ++ []) (Function.update net i asking) := by
      refine Runs.start.next (a := (i, .call (net j).stack.ip (.udp dstPort srcPort data))) nofun ?_
      simp only [netStep, Host.step, hi, hlookup]
      rfl
    have hasked : asking.stack.sent = (net i).stack.sent ++ [request] :=
      nicSend_sent _ (Host.frame_ne_nil (net i).stack.mac (net i).stack.ip (.request (net j).stack.ip))
    have hreplied : answered.stack.sent = (net j).stack.sent ++ [reply] :=
      nicSend_sent _ (Host.frame_ne_nil (net j).stack.mac (net j).stack.ip (.reply (net i).stack.mac (net i).stack.ip))
    have hanswer : (net j).step checks (.poll (some request)) = some ([], answered) := by
      have hparse := parseFrame_frame (net i).stack.mac (net i).stack.ip (.request (net j).stack.ip) (net j).stack []
      rw [List.append_nil, Emission.meaning, if_pos rfl] at hparse
      simp only [Host.step, hj]
      rw [Host.pollIdle, show request = Emission.frame _ _ (.request (net j).stack.ip) from rfl, hparse]
      rfl
    have hr₂ : Runs (netStep checks) OnWire net ([] ++ [] ++ ([] : List HostEvent).map (j, ·))
        (Function.update (Function.update net i asking) j answered) := runs_deliver (i := i) hr₁
      (show request ∈ _ by rw [Function.update_self, hasked]; exact List.mem_append_right _ (List.mem_singleton_self _))
      (by rw [Function.update_of_ne hij.symm]; exact hanswer)
    have hresolved : asking.step checks (.poll (some reply)) = Host.resolved checks
        { asking with stack := { asking.stack with
          arpCache := asking.stack.arpCache.insert (net j).stack.ip (net j).stack.mac } }
        (net j).stack.ip (net j).stack.mac (.udp dstPort srcPort data) := by
      have hparse := parseArp_frame (net j).stack.mac (net j).stack.ip (.reply (net i).stack.mac (net i).stack.ip) []
      rw [List.append_nil] at hparse
      have hturn : asking.step checks (.poll (some reply)) =
        asking.pollResolving checks (net j).stack.ip (.udp dstPort srcPort data) reply := rfl
      rw [hturn, Host.pollResolving, show reply = Emission.frame _ _ (.reply (net i).stack.mac (net i).stack.ip) from rfl,
        hparse, Emission.arp]
      dsimp only
      rw [if_pos rfl, if_pos rfl]
    have hip : asking.stack.ip = (net i).stack.ip := by
      simp only [asking, NetworkStack.nicSend]
      split <;> rfl
    have hcomes : OnWire ([] ++ [] ++ ([] : List HostEvent).map (j, ·))
        (Function.update (Function.update net i asking) j answered) (i, .poll (some reply)) := by
      intro f hf
      cases hf
      refine ⟨j, reply, ?_, [], (List.append_nil _).symm⟩
      rw [Function.update_self, hreplied]
      exact List.mem_append_right _ (List.mem_singleton_self _)
    have hlast := runs_send_and_get hr₂ hij (by rw [Function.update_self]; exact hj) hcomes hdata
      (by rw [Function.update_of_ne hij, Function.update_self]; exact hresolved)
    rw [← hip]
    exact hlast

theorem datagram_goes_through_pair : ∃ net', Runs (netStep true) OnWire pairNet
    [(false, .sentUdp (.replicate 4 2) 53 1024 pingText), (true, .gotUdp (.replicate 4 1) 1024 53 pingText)] net' :=
  datagram_goes_through pairNet (i := false) (j := true) nofun rfl rfl 53 1024 (by decide)

end ChodOs.Net
