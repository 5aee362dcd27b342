/-
The network stack's way out and back (`net/`): UDP datagrams in IPv4
packets in Ethernet frames, with the addresses ARP resolved. `checks` says
whether the build traps overflow, as the dev profile does, or wraps. The
frame a datagram is sent in is decoded to the same datagram exactly when
its lengths fit their sixteen bits.
-/
import Mathlib.Algebra.Group.Nat.Defs
import Mathlib.Data.Vector.Defs

namespace ChodOs.Net

/-! ## Words of two bytes -/

/-- `(w >> 8) as u8`. -/
def hiByte (w : UInt16) : UInt8 := (w >>> 8).toUInt8

/-- `((hi as u16) << 8) | lo as u16`. -/
def word (hi lo : UInt8) : UInt16 := hi.toUInt16 <<< 8 ||| lo.toUInt16

/-- A word is the one its two bytes make. -/
@[simp] theorem word_bytes (w : UInt16) : word (hiByte w) w.toUInt8 = w := by
  refine UInt16.eq_of_toBitVec_eq ?_
  simp only [word, hiByte, UInt16.toBitVec_or, UInt16.toBitVec_shiftLeft, UInt8.toBitVec_toUInt16,
    UInt16.toBitVec_toUInt8, UInt16.toBitVec_shiftRight]
  ext i hi
  rcases Nat.lt_or_ge i 8 with hlo | hhi
  · simp [hlo, BitVec.getLsbD_eq_getElem hi]
  · have hsub : i - 8 < 8 := by omega
    have hadd : 8 + (i - 8) = i := by omega
    have hnlo : ¬ i < 8 := by omega
    simp [hnlo, hsub, hadd, BitVec.getLsbD_eq_getElem hi]

/-- `a + b` in `u16`. `none`: the overflow check traps. -/
def addU16 (checks : Bool) (a b : UInt16) : Option UInt16 :=
  if a.toNat + b.toNat < 2 ^ 16 then some (a + b) else if checks then none else some (a + b)

/-! ## Checksum -/

/-- The sum over the data, two bytes a word; the callers' data is too short
for the `u32` to overflow. -/
def sumWords : List UInt8 → Nat
  | [] => 0
  | [b] => b.toNat <<< 8
  | hi :: lo :: rest => (hi.toNat <<< 8 ||| lo.toNat) + sumWords rest

/-- `while sum >> 16 != 0 { sum = (sum & 0xFFFF) + (sum >> 16) }`. -/
def foldCarry (sum : Nat) : Nat :=
  if sum < 2 ^ 16 then sum else foldCarry (sum % 2 ^ 16 + sum / 2 ^ 16)
termination_by sum
decreasing_by omega

/-- `internet_checksum`. -/
def internetChecksum (data : List UInt8) : UInt16 := ~~~ UInt16.ofNat (foldCarry (sumWords data))

/-! ## IPv4 -/

/-- `[u8; 4]`. -/
abbrev Ip := Vector UInt8 4

/-- `[u8; 6]`. -/
abbrev Mac := Vector UInt8 6

def protoUdp : UInt8 := 17
def ethertypeIpv4 : UInt16 := 0x0800

/-- The header with these checksum bytes. -/
def headerWith (proto : UInt8) (src dst : Ip) (totalLen id : UInt16) (csumHi csumLo : UInt8) : List UInt8 :=
  [0x45, 0x00, hiByte totalLen, totalLen.toUInt8, hiByte id, id.toUInt8, 0x40, 0x00, 64, proto, csumHi, csumLo] ++
    src.toList ++ dst.toList

/-- `ipv4::build_header`. -/
def buildHeader (proto : UInt8) (src dst : Ip) (totalLen id : UInt16) : List UInt8 :=
  let csum := internetChecksum (headerWith proto src dst totalLen id 0 0)
  headerWith proto src dst totalLen id (hiByte csum) csum.toUInt8

/-- `ipv4::parse_header`: the protocol, the two addresses and the length of the header. -/
def parseHeader (data : List UInt8) : Option (UInt8 × Ip × Ip × Nat) :=
  match data with
  | v :: _ :: _ :: _ :: _ :: _ :: _ :: _ :: _ :: proto :: _ :: _ ::
      s₀ :: s₁ :: s₂ :: s₃ :: d₀ :: d₁ :: d₂ :: d₃ :: _ =>
    if v >>> 4 ≠ 4 then none
    else
      let ihl := (v &&& 0xF).toNat * 4
      if data.length < ihl then none else some (proto, #v[s₀, s₁, s₂, s₃], #v[d₀, d₁, d₂, d₃], ihl)
  | _ => none

/-- The total length in a packet's header, which `parse_header` does not read. -/
def totalLength (data : List UInt8) : Option UInt16 :=
  match data with
  | _ :: _ :: hi :: lo :: _ => some (word hi lo)
  | _ => none

/-! ## UDP -/

/-- `udp::build`. -/
def build (srcPort dstPort : UInt16) (payload : List UInt8) : List UInt8 :=
  let length := UInt16.ofNat (8 + payload.length)
  [hiByte srcPort, srcPort.toUInt8, hiByte dstPort, dstPort.toUInt8, hiByte length, length.toUInt8, 0, 0] ++ payload

/-- `udp::parse`: the ports and the payload. -/
def parse (data : List UInt8) : Option (UInt16 × UInt16 × List UInt8) :=
  match data with
  | s₀ :: s₁ :: d₀ :: d₁ :: l₀ :: l₁ :: _ :: _ :: rest =>
    let len := (word l₀ l₁).toNat
    if len < 8 then none
    else if rest.length < len - 8 then none
    else some (word s₀ s₁, word d₀ d₁, rest.take (len - 8))
  | _ => none

/-! ## ARP -/

structure ArpPacket where
  op : UInt16
  senderMac : Mac
  senderIp : Ip
  targetMac : Mac
  targetIp : Ip

/-- `arp::parse`. -/
def parseArp (frame : List UInt8) : Option ArpPacket :=
  let byte i := frame.getD i 0
  if frame.length < 42 then none
  else if word (byte 12) (byte 13) ≠ 0x0806 then none
  else some {
    op := word (byte 20) (byte 21)
    senderMac := .ofFn fun i => byte (22 + i)
    senderIp := .ofFn fun i => byte (28 + i)
    targetMac := .ofFn fun i => byte (32 + i)
    targetIp := .ofFn fun i => byte (38 + i) }

/-- `arp::build_request`. -/
def buildRequest (srcMac : Mac) (srcIp targetIp : Ip) : List UInt8 :=
  List.replicate 6 0xFF ++ srcMac.toList ++ [0x08, 0x06] ++
    [0x00, 0x01, 0x08, 0x00, 6, 4, hiByte 1, (1 : UInt16).toUInt8] ++
    srcMac.toList ++ srcIp.toList ++ List.replicate 6 0 ++ targetIp.toList

/-- `ArpTable`: its first `len` entries. -/
structure ArpTable where
  entries : List (Ip × Mac)
  bound : entries.length ≤ 16

namespace ArpTable

def new : ArpTable := ⟨[], Nat.zero_le _⟩

def lookup (t : ArpTable) (ip : Ip) : Option Mac := (t.entries.find? (·.1 == ip)).map (·.2)

/-- In a full table the oldest entry makes room. -/
theorem length_turnOver {l : List (Ip × Mac)} (h : l.length ≤ 16) (x : Ip × Mac) : (l.tail ++ [x]).length ≤ 16 := by
  rw [List.length_append, List.length_tail, List.length_singleton]
  omega

/-- `insert`: the entry for `ip`, else a new one, in the oldest one's place in a full table. -/
def insert (t : ArpTable) (ip : Ip) (mac : Mac) : ArpTable :=
  if (t.entries.find? (·.1 == ip)).isSome then
    ⟨t.entries.set (t.entries.findIdx (·.1 == ip)) (ip, mac), by rw [List.length_set]; exact t.bound⟩
  else if h : t.entries.length < 16 then ⟨t.entries ++ [(ip, mac)], by rw [List.length_append]; exact h⟩
  else ⟨t.entries.tail ++ [(ip, mac)], length_turnOver t.bound _⟩

end ArpTable

/-! ## The stack -/

/-- `NetworkStack` as `udp_send` needs it, with the frames handed to the card so far. -/
structure NetworkStack where
  mac : Mac
  ip : Ip
  arpCache : ArpTable
  ipId : UInt16
  sent : List (List UInt8)

namespace NetworkStack

/-- `self.nic.send`, which hands an empty frame to nobody. -/
def nicSend (s : NetworkStack) (frame : List UInt8) : NetworkStack :=
  if frame = [] then s else { s with sent := s.sent ++ [frame] }

/-- The polls of `arp_resolve` until its deadline, each a frame or nothing. -/
def awaitReply (targetIp : Ip) : List (Option (List UInt8)) → NetworkStack → Option Mac × NetworkStack
  | [], s => (none, s)
  | poll :: polls, s =>
    match poll.bind parseArp with
    | none => awaitReply targetIp polls s
    | some pkt =>
      if pkt.op = 2 then
        let s := { s with arpCache := s.arpCache.insert pkt.senderIp pkt.senderMac }
        if pkt.senderIp = targetIp then (some pkt.senderMac, s) else awaitReply targetIp polls s
      else awaitReply targetIp polls s

/-- `arp_resolve`, with what the card receives before the deadline. -/
def arpResolve (s : NetworkStack) (targetIp : Ip) (polls : List (Option (List UInt8))) : Option Mac × NetworkStack :=
  match s.arpCache.lookup targetIp with
  | some mac => (some mac, s)
  | none => awaitReply targetIp polls (s.nicSend (buildRequest s.mac s.ip targetIp))

/-- `send_frame`. -/
def sendFrame (s : NetworkStack) (dstMac : Mac) (ethertype : UInt16) (payload : List UInt8) : NetworkStack :=
  s.nicSend (dstMac.toList ++ s.mac.toList ++ [hiByte ethertype, ethertype.toUInt8] ++ payload)

/-- `udp_send`. `ok` is what the card says of the frame. `none`: panic. -/
def udpSend (checks : Bool) (s : NetworkStack) (dstIp : Ip) (dstPort srcPort : UInt16) (data : List UInt8)
    (polls : List (Option (List UInt8))) (ok : Bool) : Option (Bool × NetworkStack) :=
  match s.arpResolve dstIp polls with
  | (none, s) => some (false, s)
  | (some dstMac, s) => do
    let udpSeg := build srcPort dstPort data
    let totalLen ← addU16 checks 20 (UInt16.ofNat udpSeg.length)
    let ipHdr := buildHeader protoUdp s.ip dstIp totalLen s.ipId
    let s := { s with ipId := s.ipId + 1 }
    some (ok, s.sendFrame dstMac ethertypeIpv4 (ipHdr ++ udpSeg))

end NetworkStack

/-! ## What is built is parsed -/

theorem Ip.eta (v : Ip) : v = #v[v[0], v[1], v[2], v[3]] := by
  ext i hi
  rcases i with _ | _ | _ | _ | i
  · rfl
  · rfl
  · rfl
  · rfl
  · omega

theorem Ip.toList_eta (v : Ip) : v.toList = [v[0], v[1], v[2], v[3]] := by
  conv_lhs => rw [Ip.eta v]
  rfl

@[simp] theorem length_headerWith (proto : UInt8) (src dst : Ip) (totalLen id : UInt16) (csumHi csumLo : UInt8) :
    (headerWith proto src dst totalLen id csumHi csumLo).length = 20 := by
  simp [headerWith]

@[simp] theorem length_buildHeader (proto : UInt8) (src dst : Ip) (totalLen id : UInt16) :
    (buildHeader proto src dst totalLen id).length = 20 := length_headerWith ..

@[simp] theorem length_build (srcPort dstPort : UInt16) (payload : List UInt8) :
    (build srcPort dstPort payload).length = 8 + payload.length := by
  simp only [build, List.length_append, List.length_cons, List.length_nil]

/-- The header byte by byte, with some checksum. -/
theorem buildHeader_append (proto : UInt8) (src dst : Ip) (totalLen id : UInt16) (rest : List UInt8) :
    ∃ c₀ c₁, buildHeader proto src dst totalLen id ++ rest =
      0x45 :: 0x00 :: hiByte totalLen :: totalLen.toUInt8 :: hiByte id :: id.toUInt8 :: 0x40 :: 0x00 :: 64 :: proto ::
        c₀ :: c₁ :: src[0] :: src[1] :: src[2] :: src[3] :: dst[0] :: dst[1] :: dst[2] :: dst[3] :: rest := by
  refine ⟨hiByte (internetChecksum (headerWith proto src dst totalLen id 0 0)),
    (internetChecksum (headerWith proto src dst totalLen id 0 0)).toUInt8, ?_⟩
  rw [buildHeader, headerWith, Ip.toList_eta src, Ip.toList_eta dst]
  rfl

theorem parseHeader_buildHeader (proto : UInt8) (src dst : Ip) (totalLen id : UInt16) (rest : List UInt8) :
    parseHeader (buildHeader proto src dst totalLen id ++ rest) = some (proto, src, dst, 20) := by
  have hlen : ¬ (buildHeader proto src dst totalLen id ++ rest).length < ((0x45 : UInt8) &&& 0xF).toNat * 4 := by
    rw [List.length_append, length_buildHeader]
    exact Nat.not_lt.mpr (Nat.le_add_right 20 _)
  obtain ⟨c₀, c₁, hbytes⟩ := buildHeader_append proto src dst totalLen id rest
  rw [hbytes] at hlen ⊢
  have hversion : ¬ (0x45 : UInt8) >>> 4 ≠ 4 := by decide
  simp only [parseHeader, hversion, hlen, if_false, ← Ip.eta]
  rfl

theorem totalLength_buildHeader (proto : UInt8) (src dst : Ip) (totalLen id : UInt16) (rest : List UInt8) :
    totalLength (buildHeader proto src dst totalLen id ++ rest) = some totalLen :=
  congrArg some (word_bytes totalLen)

/-- A datagram is parsed to what it was built from exactly when its length fits. -/
theorem parse_build_iff (srcPort dstPort : UInt16) (payload : List UInt8) :
    parse (build srcPort dstPort payload) = some (srcPort, dstPort, payload) ↔ 8 + payload.length < 2 ^ 16 := by
  have hlt : (UInt16.ofNat (8 + payload.length)).toNat < 2 ^ 16 := UInt16.toNat_lt _
  simp only [parse, build, List.cons_append, List.nil_append, word_bytes]
  constructor
  · intro h
    split at h
    · cases h
    split at h
    · cases h
    -- The payload that was read has at most 65527 bytes.
    simp only [Option.some.injEq, Prod.mk.injEq, true_and] at h
    have := congrArg List.length h
    rw [List.length_take] at this
    omega
  · intro h
    have hlen : (UInt16.ofNat (8 + payload.length)).toNat = 8 + payload.length := UInt16.toNat_ofNat_of_lt' h
    rw [hlen, if_neg (by omega), if_neg (by omega), Nat.add_sub_cancel_left, List.take_length]

/-! ## What is sent is received -/

/-- Decoded as `parse_frame` does, the frame has this datagram in it, and
its packet is as long as its header says. -/
def Carries (frame : List UInt8) (srcPort dstPort : UInt16) (data : List UInt8) : Prop :=
  ∃ proto src dst ihl, parseHeader (frame.drop 14) = some (proto, src, dst, ihl) ∧
    parse ((frame.drop 14).drop ihl) = some (srcPort, dstPort, data) ∧
    (totalLength (frame.drop 14)).map (·.toNat) = some (frame.drop 14).length

namespace NetworkStack

/-- `udp_send` returns, with `false` and no frame sent after the address
was resolved, or with one that carries the datagram. -/
def SendsFaithfully (checks : Bool) (s : NetworkStack) (dstIp : Ip) (dstPort srcPort : UInt16) (data : List UInt8)
    (polls : List (Option (List UInt8))) (ok : Bool) : Prop :=
  ∃ r s', s.udpSend checks dstIp dstPort srcPort data polls ok = some (r, s') ∧
    ((r = false ∧ s'.sent = (s.arpResolve dstIp polls).2.sent) ∨
      ∃ frame, s'.sent = (s.arpResolve dstIp polls).2.sent ++ [frame] ∧ Carries frame srcPort dstPort data)

/-- The frame of a payload. -/
def frameOf (s : NetworkStack) (dstMac : Mac) (payload : List UInt8) : List UInt8 :=
  dstMac.toList ++ s.mac.toList ++ [hiByte ethertypeIpv4, ethertypeIpv4.toUInt8] ++ payload

theorem drop_frameOf (s : NetworkStack) (dstMac : Mac) (payload : List UInt8) :
    (s.frameOf dstMac payload).drop 14 = payload := by
  refine List.drop_left' ?_
  simp

theorem sendFrame_sent (s : NetworkStack) (dstMac : Mac) (payload : List UInt8) :
    (s.sendFrame dstMac ethertypeIpv4 payload).sent = s.sent ++ [s.frameOf dstMac payload] := by
  have hne : s.frameOf dstMac payload ≠ [] := by
    intro h
    have := congrArg List.length h
    simp [frameOf] at this
  rw [sendFrame, nicSend]
  exact congrArg NetworkStack.sent (if_neg hne)

end NetworkStack

/-- What the frame of a datagram is decoded to. -/
theorem carries_frameOf_iff (s : NetworkStack) (dstMac : Mac) (src dst : Ip) (totalLen id srcPort dstPort : UInt16)
    (data : List UInt8) :
    Carries (s.frameOf dstMac (buildHeader protoUdp src dst totalLen id ++ build srcPort dstPort data))
        srcPort dstPort data ↔
      parse (build srcPort dstPort data) = some (srcPort, dstPort, data) ∧ totalLen.toNat = 28 + data.length := by
  have hdrop : (buildHeader protoUdp src dst totalLen id ++ build srcPort dstPort data).drop 20 =
      build srcPort dstPort data := List.drop_left' (length_buildHeader ..)
  have hlen : (buildHeader protoUdp src dst totalLen id ++ build srcPort dstPort data).length = 28 + data.length := by
    rw [List.length_append, length_buildHeader, length_build]
    omega
  simp only [Carries, NetworkStack.drop_frameOf, parseHeader_buildHeader, totalLength_buildHeader, hlen,
    Option.some.injEq, Prod.mk.injEq, Option.map_some]
  constructor
  · intro h
    obtain ⟨_, _, _, _, ⟨rfl, rfl, rfl, rfl⟩, hparse, htotal⟩ := h
    rw [hdrop] at hparse
    exact ⟨hparse, htotal⟩
  · intro ⟨hparse, htotal⟩
    exact ⟨_, _, _, _, ⟨rfl, rfl, rfl, rfl⟩, hdrop.symm ▸ hparse, htotal⟩

/-- With the address resolved, `udp_send` returns and emits a frame that is
decoded to the same datagram exactly when the payload leaves room for the
two headers in sixteen bits. -/
theorem udpSend_faithful_iff (checks : Bool) (s : NetworkStack) (dstIp : Ip) (dstPort srcPort : UInt16)
    (data : List UInt8) (polls : List (Option (List UInt8))) (ok : Bool) {dstMac : Mac}
    (hmac : (s.arpResolve dstIp polls).1 = some dstMac) :
    s.SendsFaithfully checks dstIp dstPort srcPort data polls ok ↔ data.length ≤ 65507 := by
  obtain ⟨s₁, hs₁⟩ : ∃ s₁, s.arpResolve dstIp polls = (some dstMac, s₁) := ⟨_, Prod.ext hmac rfl⟩
  simp only [NetworkStack.SendsFaithfully, NetworkStack.udpSend, hs₁, length_build, Option.bind_eq_bind]
  constructor
  · intro ⟨r, s', hsend, hframe⟩
    obtain ⟨totalLen, htotal, hsend⟩ := Option.bind_eq_some_iff.mp hsend
    cases hsend
    rw [NetworkStack.sendFrame_sent] at hframe
    rcases hframe with ⟨-, hnone⟩ | ⟨frame, hsent, hcarries⟩
    · exact absurd hnone (by simp)
    obtain rfl := List.singleton_inj.mp (List.append_cancel_left hsent)
    obtain ⟨hparse, hlen⟩ := (carries_frameOf_iff ..).mp hcarries
    by_contra hbig
    have hlt := totalLen.toNat_lt
    omega
  · intro hle
    have hfits : 8 + data.length < 2 ^ 16 := by omega
    have hlen : (UInt16.ofNat (8 + data.length)).toNat = 8 + data.length := UInt16.toNat_ofNat_of_lt' hfits
    have hadd : addU16 checks 20 (UInt16.ofNat (8 + data.length)) = some (20 + UInt16.ofNat (8 + data.length)) := by
      refine if_pos ?_
      rw [hlen]
      change 20 + (8 + data.length) < 2 ^ 16
      omega
    have htotal : (20 + UInt16.ofNat (8 + data.length)).toNat = 28 + data.length := by
      rw [UInt16.toNat_add, hlen]
      change (20 + (8 + data.length)) % 2 ^ 16 = _
      rw [Nat.mod_eq_of_lt (by omega)]
      omega
    rw [hadd]
    refine ⟨ok, _, rfl, .inr ⟨_, NetworkStack.sendFrame_sent .., ?_⟩⟩
    exact (carries_frameOf_iff ..).mpr ⟨(parse_build_iff ..).mpr hfits, htotal⟩

/-- A stack that knows one neighbour. -/
def oneNeighbour : NetworkStack where
  mac := #v[0x52, 0x54, 0, 0x12, 0x34, 0x56]
  ip := #v[10, 0, 2, 15]
  arpCache := ArpTable.new.insert #v[10, 0, 2, 3] #v[0x52, 0x55, 10, 0, 2, 3]
  ipId := 1
  sent := []

theorem udpSend_faithful_iff_dns :
    oneNeighbour.SendsFaithfully true #v[10, 0, 2, 3] 53 1024 [0, 1, 1, 0] [] true ↔
      [(0 : UInt8), 1, 1, 0].length ≤ 65507 :=
  udpSend_faithful_iff true oneNeighbour _ 53 1024 _ [] true
    (show _ = some #v[0x52, 0x55, 10, 0, 2, 3] by decide)

/-- Not every payload is sent whole: 65508 bytes overflow the total length. -/
theorem udpSend_overflows : ¬ ∀ (checks : Bool) (s : NetworkStack) (dstIp : Ip) (dstPort srcPort : UInt16)
    (data : List UInt8) (polls : List (Option (List UInt8))) (ok : Bool) (dstMac : Mac),
      (s.arpResolve dstIp polls).1 = some dstMac → s.SendsFaithfully checks dstIp dstPort srcPort data polls ok := by
  intro hall
  have hmac : (oneNeighbour.arpResolve #v[10, 0, 2, 3] []).1 = some #v[0x52, 0x55, 10, 0, 2, 3] := by decide
  obtain ⟨r, s', hsend, -⟩ := hall true oneNeighbour #v[10, 0, 2, 3] 53 1024 (List.replicate 65508 0) [] true _ hmac
  obtain ⟨s₁, hs₁⟩ : ∃ s₁, oneNeighbour.arpResolve #v[10, 0, 2, 3] [] = (some _, s₁) := ⟨_, Prod.ext hmac rfl⟩
  simp only [NetworkStack.udpSend, hs₁, length_build, List.length_replicate, Option.bind_eq_bind] at hsend
  obtain ⟨totalLen, htotal, -⟩ := Option.bind_eq_some_iff.mp hsend
  have hnone : addU16 true 20 (UInt16.ofNat (8 + 65508)) = none := by decide
  rw [hnone] at htotal
  cases htotal

end ChodOs.Net
