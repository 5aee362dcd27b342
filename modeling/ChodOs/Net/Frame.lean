/-
Frames that come in (`NetworkStack::parse_frame`), with every index and slice
of the parsers as the source has it. Whatever the bytes, none is out of range.
A packet that is taken out of a frame lies in the IP packet that the header
announces just in case the header is at least five words long and announces
as many bytes: the parsers look at neither length.
-/
import ChodOs.Net.Udp

namespace ChodOs.Net

def protoIcmp : UInt8 := 1
def ethertypeArp : UInt16 := 0x0806
def typeEchoReply : UInt8 := 0

/-! ## Indices and slices -/

/-- `((data[i] as u16) << 8) | data[i + 1] as u16`. `none`: panic. -/
def wordAt (data : List UInt8) (i : Nat) : Option UInt16 := do some (word (← data[i]?) (← data[i + 1]?))

/-- `&data[lo..hi]`. `none`: panic. -/
def range (data : List UInt8) (lo hi : Nat) : Option (List UInt8) :=
  if lo ≤ hi ∧ hi ≤ data.length then some ((data.take hi).drop lo) else none

/-- `&data[lo..]`. -/
def rangeFrom (data : List UInt8) (lo : Nat) : Option (List UInt8) := range data lo data.length

/-- `copy_from_slice(&data[lo..lo + n])` into `[u8; n]`. -/
def arrayAt (data : List UInt8) (lo n : Nat) : Option (Vector UInt8 n) := do
  let bytes ← range data lo (lo + n)
  if h : bytes.toArray.size = n then some ⟨bytes.toArray, h⟩ else none

/-! ## The parsers, index by index -/

/-- `ipv4::parse_header`. `none`: panic. -/
def parseHeaderAt (data : List UInt8) : Option (Option (UInt8 × Ip × Ip × Nat)) := do
  if data.length < 20 then return none
  let b₀ : UInt8 ← data[0]?
  if b₀ >>> 4 ≠ 4 then return none
  let ihl := (b₀ &&& 0xF).toNat * 4
  if data.length < ihl then return none
  let proto ← data[9]?
  let src ← arrayAt data 12 4
  let dst ← arrayAt data 16 4
  return some (proto, src, dst, ihl)

/-- `udp::parse`. `none`: panic. -/
def parseAt (data : List UInt8) : Option (Option (UInt16 × UInt16 × List UInt8)) := do
  if data.length < 8 then return none
  let src ← wordAt data 0
  let dst ← wordAt data 2
  let len ← wordAt data 4
  if len.toNat < 8 then return none
  let plen := len.toNat - 8
  if data.length < 8 + plen then return none
  return some (src, dst, ← range data 8 (8 + plen))

/-- `icmp::parse_echo_reply`. `none`: panic. -/
def parseEchoReplyAt (data : List UInt8) : Option (Option (UInt16 × UInt16)) := do
  if data.length < 8 then return none
  let type : UInt8 ← data[0]?
  if type ≠ typeEchoReply then return none
  let id ← wordAt data 4
  let seq ← wordAt data 6
  return some (id, seq)

/-- `arp::parse`. `none`: panic. -/
def parseArpAt (frame : List UInt8) : Option (Option ArpPacket) := do
  if frame.length < 42 then return none
  if (← wordAt frame 12) ≠ ethertypeArp then return none
  let a ← rangeFrom frame 14
  let op ← wordAt a 6
  let senderMac ← arrayAt a 8 6
  let senderIp ← arrayAt a 14 4
  let targetMac ← arrayAt a 18 6
  let targetIp ← arrayAt a 24 4
  return some { op, senderMac, senderIp, targetMac, targetIp }

/-- `arp::build_frame`. -/
def buildFrame (dstMac srcMac : Mac) (op : UInt16) (senderMac : Mac) (senderIp : Ip) (targetMac : Mac)
    (targetIp : Ip) : List UInt8 :=
  dstMac.toList ++ srcMac.toList ++ [0x08, 0x06] ++
    [0x00, 0x01, 0x08, 0x00, 6, 4, hiByte op, op.toUInt8] ++
    senderMac.toList ++ senderIp.toList ++ targetMac.toList ++ targetIp.toList

/-- `arp::build_reply`. -/
def buildReply (srcMac : Mac) (srcIp : Ip) (dstMac : Mac) (dstIp : Ip) : List UInt8 :=
  buildFrame dstMac srcMac 2 srcMac srcIp dstMac dstIp

theorem buildRequest_eq (srcMac : Mac) (srcIp targetIp : Ip) :
    buildRequest srcMac srcIp targetIp = buildFrame (.replicate 6 0xFF) srcMac 1 srcMac srcIp (.replicate 6 0) targetIp :=
  rfl

inductive Packet
  | icmpEchoReply (src : Ip) (id seq : UInt16)
  | udp (src : Ip) (srcPort dstPort : UInt16) (data : List UInt8)

namespace Packet

def src : Packet → Ip
  | icmpEchoReply src _ _ => src
  | udp src _ _ _ => src

/-- What is returned of the bytes behind the transport header. -/
def payload : Packet → List UInt8
  | icmpEchoReply _ _ _ => []
  | udp _ _ _ data => data

/-- The transport header has what is returned of it, and the datagram's length. -/
def HasHeader (hdr : List UInt8) : Packet → Prop
  | icmpEchoReply _ id seq => hdr[0]? = some typeEchoReply ∧ wordAt hdr 4 = some id ∧ wordAt hdr 6 = some seq
  | udp _ srcPort dstPort data => wordAt hdr 0 = some srcPort ∧ wordAt hdr 2 = some dstPort ∧
      (wordAt hdr 4).map (·.toNat) = some (8 + data.length)

/-- The packet is what these bytes begin with: a header of eight, and the payload. -/
def StartOf (bytes : List UInt8) (pkt : Packet) : Prop :=
  ∃ hdr rest, bytes = hdr ++ pkt.payload ++ rest ∧ hdr.length = 8 ∧ pkt.HasHeader hdr

end Packet

namespace NetworkStack

/-- `parse_frame`. `none`: panic. -/
def parseFrame (s : NetworkStack) (frame : List UInt8) : Option (Option Packet × NetworkStack) := do
  if frame.length < 14 then return (none, s)
  let ethertype ← wordAt frame 12
  if ethertype = ethertypeArp then
    match ← parseArpAt frame with
    | none => return (none, s)
    | some pkt =>
      if pkt.op = 1 ∧ pkt.targetIp = s.ip then
        return (none, s.nicSend (buildReply s.mac s.ip pkt.senderMac pkt.senderIp))
      else if pkt.op = 2 then
        return (none, { s with arpCache := s.arpCache.insert pkt.senderIp pkt.senderMac })
      else return (none, s)
  else if ethertype = ethertypeIpv4 then
    let ipData ← rangeFrom frame 14
    match ← parseHeaderAt ipData with
    | none => return (none, s)
    | some (proto, srcIp, _, ihl) =>
      let payload ← rangeFrom ipData ihl
      if proto = protoIcmp then
        match ← parseEchoReplyAt payload with
        | none => return (none, s)
        | some (id, seq) => return (some (.icmpEchoReply srcIp id seq), s)
      else if proto = protoUdp then
        match ← parseAt payload with
        | none => return (none, s)
        | some (srcPort, dstPort, data) => return (some (.udp srcIp srcPort dstPort data), s)
      else return (none, s)
  else return (none, s)

end NetworkStack

/-! ## No index is out of range -/

variable {data frame : List UInt8} {i lo hi n : Nat}

theorem getElem?_eq (data : List UInt8) (i : Nat) (h : i < data.length) : data[i]? = some (data.getD i 0) := by
  rw [List.getD_eq_getElem?_getD, List.getElem?_eq_getElem h, Option.getD_some]

theorem wordAt_eq (data : List UInt8) (i : Nat) (h : i + 1 < data.length) :
    wordAt data i = some (word (data.getD i 0) (data.getD (i + 1) 0)) := by
  rw [wordAt, getElem?_eq data i (Nat.lt_of_succ_lt h), getElem?_eq data (i + 1) h]
  rfl

theorem range_eq (h : lo ≤ hi) (h' : hi ≤ data.length) : range data lo hi = some ((data.take hi).drop lo) :=
  if_pos ⟨h, h'⟩

theorem rangeFrom_eq (h : lo ≤ data.length) : rangeFrom data lo = some (data.drop lo) := by
  rw [rangeFrom, range_eq h (Nat.le_refl _), List.take_length]

theorem getD_drop (data : List UInt8) (lo i : Nat) : (data.drop lo).getD i 0 = data.getD (lo + i) 0 := by
  rw [List.getD_eq_getElem?_getD, List.getElem?_drop, ← List.getD_eq_getElem?_getD]

theorem arrayAt_eq (data : List UInt8) (lo n : Nat) (h : lo + n ≤ data.length) :
    arrayAt data lo n = some (.ofFn fun i => data.getD (lo + i) 0) := by
  have hlen : ((data.take (lo + n)).drop lo).length = n := by
    rw [List.length_drop, List.length_take]
    omega
  have hsize : ((data.take (lo + n)).drop lo).toArray.size = n := hlen
  rw [arrayAt, range_eq (Nat.le_add_right _ _) h, Option.bind_eq_bind, Option.bind_some, dif_pos hsize]
  refine congrArg some (Vector.ext fun i hi => ?_)
  have hget : (data.take (lo + n)).drop lo = List.ofFn fun i : Fin n => data.getD (lo + i) 0 := by
    refine List.ext_getElem (by rw [hlen, List.length_ofFn]) fun j hj hj' => ?_
    rw [List.length_ofFn] at hj'
    have hat := getElem?_eq data (lo + j) (by omega)
    rw [List.getElem?_eq_getElem (by omega)] at hat
    rw [List.getElem_drop, List.getElem_take, List.getElem_ofFn]
    exact Option.some.inj hat
  simp only [Vector.getElem_mk, List.getElem_toArray, hget, List.getElem_ofFn, Vector.getElem_ofFn]

/-- `(data[0] & 0xF) * 4`, the length of the header in a packet's first byte. -/
def headerLen (ip : List UInt8) : Nat := (ip.getD 0 0 &&& 0xF).toNat * 4

/-- What `parse_header` asks of a packet. -/
def HeaderTaken (ip : List UInt8) : Prop := 20 ≤ ip.length ∧ ip.getD 0 0 >>> 4 = 4 ∧ headerLen ip ≤ ip.length

instance (ip : List UInt8) : Decidable (HeaderTaken ip) := inferInstanceAs (Decidable (_ ∧ _))

theorem parseHeaderAt_eq (data : List UInt8) : parseHeaderAt data = some (if HeaderTaken data then
    some (data.getD 9 0, .ofFn fun i => data.getD (12 + i) 0, .ofFn fun i => data.getD (16 + i) 0, headerLen data)
    else none) := by
  unfold parseHeaderAt
  by_cases hlen : data.length < 20
  · rw [if_pos hlen, if_neg fun h : HeaderTaken data => absurd h.1 (by omega)]
    rfl
  have hb : data[0]? = some (data.getD 0 0) := getElem?_eq _ _ (by omega)
  have hproto : data[9]? = some (data.getD 9 0) := getElem?_eq _ _ (by omega)
  simp only [if_neg hlen, Option.bind_eq_bind, hb, Option.bind_some]
  by_cases hversion : data.getD 0 0 >>> 4 = 4
  · rw [if_neg (not_not.mpr hversion)]
    by_cases hihl : data.length < headerLen data
    · rw [if_pos (show data.length < (data.getD 0 0 &&& 0xF).toNat * 4 from hihl),
        if_neg fun h : HeaderTaken data => absurd h.2.2 (Nat.not_le_of_lt hihl)]
      rfl
    · have htaken : HeaderTaken data := ⟨Nat.le_of_not_lt hlen, hversion, Nat.le_of_not_lt hihl⟩
      rw [if_neg (show ¬ data.length < (data.getD 0 0 &&& 0xF).toNat * 4 from hihl), if_pos htaken, hproto,
        arrayAt_eq _ _ _ (by omega), arrayAt_eq _ _ _ (by omega)]
      rfl
  · rw [if_pos hversion, if_neg fun h : HeaderTaken data => hversion h.2.1]
    rfl

theorem parseAt_eq (data : List UInt8) : parseAt data =
    some (if 8 ≤ data.length ∧ 8 ≤ (word (data.getD 4 0) (data.getD 5 0)).toNat ∧
        (word (data.getD 4 0) (data.getD 5 0)).toNat ≤ data.length then
      some (word (data.getD 0 0) (data.getD 1 0), word (data.getD 2 0) (data.getD 3 0),
        (data.take (word (data.getD 4 0) (data.getD 5 0)).toNat).drop 8)
    else none) := by
  unfold parseAt
  by_cases hlen : data.length < 8
  · rw [if_pos hlen, if_neg (by omega)]
    rfl
  simp only [if_neg hlen, Option.bind_eq_bind, wordAt_eq data 0 (by omega),
    wordAt_eq data 2 (by omega), wordAt_eq data 4 (by omega), Nat.reduceAdd,
    Option.bind_some]
  by_cases hshort : (word (data.getD 4 0) (data.getD 5 0)).toNat < 8
  · rw [if_pos hshort, if_neg (by omega)]
    rfl
  rw [if_neg hshort]
  by_cases hlong : data.length < (word (data.getD 4 0) (data.getD 5 0)).toNat
  · rw [if_pos (by omega), if_neg (by omega)]
    rfl
  · rw [if_neg (by omega), if_pos (by omega), range_eq (by omega) (by omega), Nat.add_sub_cancel' (by omega)]
    rfl

theorem parseEchoReplyAt_eq (data : List UInt8) : parseEchoReplyAt data =
    some (if 8 ≤ data.length ∧ data.getD 0 0 = typeEchoReply then
      some (word (data.getD 4 0) (data.getD 5 0), word (data.getD 6 0) (data.getD 7 0))
    else none) := by
  unfold parseEchoReplyAt
  by_cases hlen : data.length < 8
  · rw [if_pos hlen, if_neg (by omega)]
    rfl
  simp only [if_neg hlen, Option.bind_eq_bind, getElem?_eq data 0 (by omega),
    wordAt_eq data 4 (by omega), wordAt_eq data 6 (by omega), Option.bind_some]
  by_cases htype : data.getD 0 0 = typeEchoReply
  · rw [if_neg (not_not.mpr htype), if_pos ⟨by omega, htype⟩]
    rfl
  · rw [if_pos htype, if_neg fun h => htype h.2]
    rfl

theorem parseArpAt_eq (frame : List UInt8) : parseArpAt frame = some (parseArp frame) := by
  unfold parseArpAt parseArp
  by_cases hlen : frame.length < 42
  · simp only [if_pos hlen]
    rfl
  have hdrop : (frame.drop 14).length = frame.length - 14 := List.length_drop
  simp only [if_neg hlen, Option.bind_eq_bind, wordAt_eq frame 12 (by omega), Option.bind_some]
  by_cases htype : word (frame.getD 12 0) (frame.getD 13 0) = 0x0806
  · rw [if_neg (not_not.mpr htype), if_neg (not_not.mpr htype : ¬ _ ≠ ethertypeArp), rangeFrom_eq (by omega)]
    simp only [Option.bind_some, wordAt_eq (frame.drop 14) 6 (by omega),
      arrayAt_eq (frame.drop 14) 8 6 (by omega),
      arrayAt_eq (frame.drop 14) 14 4 (by omega),
      arrayAt_eq (frame.drop 14) 18 6 (by omega),
      arrayAt_eq (frame.drop 14) 24 4 (by omega), getD_drop]
    simp only [← Nat.add_assoc]
    rfl
  · have harp : word (frame.getD 12 0) (frame.getD 13 0) ≠ ethertypeArp := htype
    simp only [Nat.reduceAdd, if_pos htype, if_pos harp]
    rfl

theorem drop_eq_cons (data : List UInt8) (i : Nat) (h : i < data.length) : data.drop i = data.getD i 0 :: data.drop (i + 1) := by
  rw [List.drop_eq_getElem_cons h]
  have hat := getElem?_eq data i h
  rw [List.getElem?_eq_getElem h] at hat
  rw [Option.some.inj hat]

/-- The parsers are those of `Net.Udp`. -/
theorem parseAt_eq_parse (data : List UInt8) : parseAt data = some (parse data) := by
  rw [parseAt_eq]
  by_cases hlen : 8 ≤ data.length
  · conv_rhs => rw [← List.drop_zero (l := data)]
    iterate 8 rw [drop_eq_cons data _ (by omega)]
    simp only [parse, Nat.reduceAdd, List.length_drop]
    split
    · next h =>
      rw [if_neg (by omega), if_neg (by omega), List.drop_take]
    · next h =>
      split
      · rfl
      · rw [if_pos (by omega)]
  · rw [if_neg (by omega)]
    unfold parse
    split
    · simp only [List.length_cons] at hlen
      omega
    · rfl

theorem parseHeaderAt_eq_parseHeader (data : List UInt8) : parseHeaderAt data = some (parseHeader data) := by
  rw [parseHeaderAt_eq]
  by_cases hlen : 20 ≤ data.length
  · conv_rhs => rw [← List.drop_zero (l := data)]
    iterate 20 rw [drop_eq_cons data _ (by omega)]
    simp only [parseHeader, Nat.reduceAdd, List.length_cons, List.length_drop]
    split
    · next h =>
      rw [if_neg (not_not.mpr h.2.1), if_neg (by have := h.2.2; unfold headerLen at this; omega)]
      rfl
    · next h =>
      split
      · rfl
      · next hversion =>
        rw [if_pos]
        by_contra hle
        refine h ⟨hlen, not_not.mp hversion, ?_⟩
        unfold headerLen
        omega
  · rw [if_neg fun h => hlen h.1]
    unfold parseHeader
    split
    · simp only [List.length_cons] at hlen
      omega
    · rfl

/-! ## What is taken -/

/-- What the transport parsers ask of a payload that they take `n` bytes of. -/
inductive TransportTaken (proto : UInt8) (payload : List UInt8) : Nat → Prop
  | echoReply : proto = protoIcmp → 8 ≤ payload.length → payload.getD 0 0 = typeEchoReply →
      TransportTaken proto payload 8
  | datagram {n : Nat} : proto = protoUdp → 8 ≤ n → n ≤ payload.length →
      (word (payload.getD 4 0) (payload.getD 5 0)).toNat = n → TransportTaken proto payload n

/-- A packet is taken out of the frame, with `n` bytes of the transport. -/
structure Taken (frame : List UInt8) (n : Nat) : Prop where
  ethertype : wordAt frame 12 = some ethertypeIpv4
  header : HeaderTaken (frame.drop 14)
  transport : TransportTaken ((frame.drop 14).getD 9 0) ((frame.drop 14).drop (headerLen (frame.drop 14))) n

/-- The total length in a packet's header. -/
def announcedLen (ip : List UInt8) : Nat := (word (ip.getD 2 0) (ip.getD 3 0)).toNat

/-- Whatever is taken out of the frame is behind a header of at least five
words, and as long as that says at most. -/
def WellMeasured (frame : List UInt8) : Prop :=
  ∀ n, Taken frame n → 5 * 4 ≤ headerLen (frame.drop 14) ∧ headerLen (frame.drop 14) + n ≤ announcedLen (frame.drop 14)

/-- The frame has an IPv4 header of at least five words in it, and the packet
is what follows it in the bytes that it announces. -/
structure Announces (frame : List UInt8) (pkt : Packet) : Prop where
  ethertype : wordAt frame 12 = some ethertypeIpv4
  version : (frame.drop 14).getD 0 0 >>> 4 = 4
  ihl : 5 * 4 ≤ headerLen (frame.drop 14)
  header : 14 + headerLen (frame.drop 14) ≤ frame.length
  source : arrayAt (frame.drop 14) 12 4 = some pkt.src
  within : pkt.StartOf (((frame.drop 14).take (announcedLen (frame.drop 14))).drop (headerLen (frame.drop 14)))

variable {s : NetworkStack} {payload : List UInt8} {pkt : Packet} {proto : UInt8}

theorem wordAt_take (h : i + 1 < n) : wordAt (data.take n) i = wordAt data i := by
  rw [wordAt, wordAt, List.getElem?_take_of_lt (Nat.lt_of_succ_lt h), List.getElem?_take_of_lt h]

/-- What begins with a packet is at least as long. -/
theorem Packet.StartOf.length_le (h : pkt.StartOf data) : 8 + pkt.payload.length ≤ data.length := by
  obtain ⟨hdr, rest, rfl, hlen, -⟩ := h
  rw [List.length_append, List.length_append, hlen]
  exact Nat.le_add_right _ _

theorem Packet.StartOf.take (h : pkt.StartOf data) (hn : 8 + pkt.payload.length ≤ n) : pkt.StartOf (data.take n) := by
  obtain ⟨hdr, rest, rfl, hlen, hhdr⟩ := h
  refine ⟨hdr, rest.take (n - (hdr ++ pkt.payload).length), ?_, hlen, hhdr⟩
  rw [List.take_append, List.take_of_length_le (by rw [List.length_append, hlen]; exact hn)]

theorem Taken.unique {m : Nat} (h : Taken frame n) (h' : Taken frame m) : n = m := by
  cases h.transport with
  | echoReply hproto =>
    cases h'.transport with
    | echoReply => rfl
    | datagram hproto' => exact absurd (hproto.symm.trans hproto') (by decide)
  | datagram hproto _ _ hlen =>
    cases h'.transport with
    | echoReply hproto' => exact absurd (hproto.symm.trans hproto') (by decide)
    | datagram _ _ _ hlen' => exact hlen.symm.trans hlen'

/-- The bytes up to 8, then to `n`, then the rest. -/
theorem split_at (h : 8 ≤ n) : data = data.take 8 ++ (data.take n).drop 8 ++ data.drop n := by
  have htake : (data.take n).take 8 = data.take 8 := by rw [List.take_take, Nat.min_eq_left h]
  rw [← htake, List.take_append_drop, List.take_append_drop]

theorem startOf_echoReply (h : 8 ≤ data.length) (htype : data.getD 0 0 = typeEchoReply) (src : Ip) :
    (Packet.icmpEchoReply src (word (data.getD 4 0) (data.getD 5 0)) (word (data.getD 6 0) (data.getD 7 0))).StartOf data := by
  refine ⟨data.take 8, data.drop 8, ?_, ?_, ?_, ?_, ?_⟩
  · simp only [Packet.payload, List.append_nil, List.take_append_drop]
  · rw [List.length_take, Nat.min_eq_left h]
  · rw [List.getElem?_take_of_lt (by decide), getElem?_eq _ _ (by omega), htype]
  · rw [wordAt_take (by decide), wordAt_eq _ _ (by omega)]
  · rw [wordAt_take (by decide), wordAt_eq _ _ (by omega)]

/-- A header of eight bytes and what is behind it. -/
theorem length_take_drop (h : 8 ≤ n) (h' : n ≤ data.length) : 8 + ((data.take n).drop 8).length = n := by
  rw [List.length_drop, List.length_take, Nat.min_eq_left h']
  omega

theorem startOf_udp (h : 8 ≤ n) (h' : n ≤ data.length) (hn : (word (data.getD 4 0) (data.getD 5 0)).toNat = n) (src : Ip) :
    (Packet.udp src (word (data.getD 0 0) (data.getD 1 0)) (word (data.getD 2 0) (data.getD 3 0))
      ((data.take n).drop 8)).StartOf data := by
  refine ⟨data.take 8, data.drop n, split_at h, ?_, ?_, ?_, ?_⟩
  · rw [List.length_take, Nat.min_eq_left (Nat.le_trans h h')]
  · rw [wordAt_take (by decide), wordAt_eq _ _ (by omega)]
  · rw [wordAt_take (by decide), wordAt_eq _ _ (by omega)]
  · rw [wordAt_take (by decide), wordAt_eq _ _ (by omega), Option.map_some, length_take_drop h h', ← hn]

theorem TransportTaken.icmp (h : TransportTaken proto payload n) (hproto : proto = protoIcmp) :
    8 ≤ payload.length ∧ payload.getD 0 0 = typeEchoReply := by
  cases h with
  | echoReply _ h8 htype => exact ⟨h8, htype⟩
  | datagram hudp => exact absurd (hproto.symm.trans hudp) (by decide)

theorem TransportTaken.udp (h : TransportTaken proto payload n) (hproto : proto = protoUdp) :
    8 ≤ n ∧ n ≤ payload.length ∧ (word (payload.getD 4 0) (payload.getD 5 0)).toNat = n := by
  cases h with
  | echoReply hicmp => exact absurd (hproto.symm.trans hicmp) (by decide)
  | datagram _ h8 hle heq => exact ⟨h8, hle, heq⟩

theorem TransportTaken.icmp_or_udp (h : TransportTaken proto payload n) : proto = protoIcmp ∨ proto = protoUdp := by
  cases h with
  | echoReply hicmp => exact .inl hicmp
  | datagram hudp => exact .inr hudp

/-- The three ways that a frame can go. -/
theorem parseFrame_cases (s : NetworkStack) (frame : List UInt8) :
    ∃ r s', s.parseFrame frame = some (r, s') ∧ ((r = none ∧ ∀ n, ¬ Taken frame n) ∨
      ∃ pkt, r = some pkt ∧ Taken frame (8 + pkt.payload.length) ∧ arrayAt (frame.drop 14) 12 4 = some pkt.src ∧
        pkt.StartOf ((frame.drop 14).drop (headerLen (frame.drop 14)))) := by
  unfold NetworkStack.parseFrame
  by_cases hlen : frame.length < 14
  · have hword : wordAt frame 12 = none := by
      rw [wordAt, List.getElem?_eq_none (i := 13) (by omega)]
      cases frame[12]? <;> rfl
    exact ⟨none, s, if_pos hlen, .inl ⟨rfl, fun n h => by cases hword.symm.trans h.ethertype⟩⟩
  have hword := wordAt_eq frame 12 (by omega)
  simp only [if_neg hlen, hword, Option.bind_eq_bind, Option.bind_some]
  by_cases harp : word (frame.getD 12 0) (frame.getD (12 + 1) 0) = ethertypeArp
  · have hnot : ∀ n, ¬ Taken frame n := fun n h => by
      rw [Option.some.inj (hword.symm.trans h.ethertype)] at harp
      exact absurd harp (by decide)
    rw [if_pos harp, parseArpAt_eq, Option.bind_some]
    split
    · exact ⟨none, s, rfl, .inl ⟨rfl, hnot⟩⟩
    split
    · exact ⟨none, _, rfl, .inl ⟨rfl, hnot⟩⟩
    split
    · exact ⟨none, _, rfl, .inl ⟨rfl, hnot⟩⟩
    · exact ⟨none, s, rfl, .inl ⟨rfl, hnot⟩⟩
  rw [if_neg harp]
  by_cases hip : word (frame.getD 12 0) (frame.getD (12 + 1) 0) = ethertypeIpv4
  swap
  · rw [if_neg hip]
    exact ⟨none, s, rfl, .inl ⟨rfl, fun n h => hip (Option.some.inj (hword.symm.trans h.ethertype))⟩⟩
  have hether : wordAt frame 12 = some ethertypeIpv4 := hip ▸ hword
  rw [if_pos hip, rangeFrom_eq (by omega), Option.bind_some, parseHeaderAt_eq, Option.bind_some]
  by_cases hheader : HeaderTaken (frame.drop 14)
  swap
  · rw [if_neg hheader]
    exact ⟨none, s, rfl, .inl ⟨rfl, fun n h => hheader h.header⟩⟩
  have hsrc := arrayAt_eq (frame.drop 14) 12 4 (by have := hheader.1; omega)
  simp only [if_pos hheader, rangeFrom_eq hheader.2.2, Option.bind_some]
  generalize hbytes : (frame.drop 14).drop (headerLen (frame.drop 14)) = bytes
  have htransport {n : Nat} (h : Taken frame n) : TransportTaken ((frame.drop 14).getD 9 0) bytes n := hbytes ▸ h.transport
  by_cases hicmp : (frame.drop 14).getD 9 0 = protoIcmp
  · rw [if_pos hicmp, parseEchoReplyAt_eq, Option.bind_some]
    by_cases htake : 8 ≤ bytes.length ∧ bytes.getD 0 0 = typeEchoReply
    · have htaken : Taken frame 8 := ⟨hether, hheader, hbytes ▸ .echoReply hicmp htake.1 htake.2⟩
      rw [if_pos htake]
      exact ⟨_, s, rfl, .inr ⟨_, rfl, htaken, hsrc, startOf_echoReply htake.1 htake.2 _⟩⟩
    · rw [if_neg htake]
      exact ⟨none, s, rfl, .inl ⟨rfl, fun n h => htake ((htransport h).icmp hicmp)⟩⟩
  rw [if_neg hicmp]
  by_cases hudp : (frame.drop 14).getD 9 0 = protoUdp
  swap
  · rw [if_neg hudp]
    exact ⟨none, s, rfl, .inl ⟨rfl, fun n h => (htransport h).icmp_or_udp.elim hicmp hudp⟩⟩
  rw [if_pos hudp, parseAt_eq, Option.bind_some]
  generalize hn : (word (bytes.getD 4 0) (bytes.getD 5 0)).toNat = n
  by_cases htake : 8 ≤ bytes.length ∧ 8 ≤ n ∧ n ≤ bytes.length
  · have hlen : 8 + ((bytes.take n).drop 8).length = n := length_take_drop htake.2.1 htake.2.2
    have htaken : Taken frame n := ⟨hether, hheader, hbytes ▸ .datagram hudp htake.2.1 htake.2.2 hn⟩
    rw [if_pos htake]
    exact ⟨_, s, rfl, .inr ⟨_, rfl, hlen.symm ▸ htaken, hsrc, startOf_udp htake.2.1 htake.2.2 hn _⟩⟩
  · rw [if_neg htake]
    refine ⟨none, s, rfl, .inl ⟨rfl, fun m h => ?_⟩⟩
    obtain ⟨h8, hle, heq⟩ := (htransport h).udp hudp
    obtain rfl := hn.symm.trans heq
    exact htake ⟨Nat.le_trans h8 hle, h8, hle⟩

/-- Whatever the bytes of a frame, `parse_frame` returns; and what it returns
lies in the announced packet just in case the frame is well measured. -/
theorem parseFrame_exact_iff (s : NetworkStack) (frame : List UInt8) :
    (∃ r s', s.parseFrame frame = some (r, s') ∧ ∀ pkt, r = some pkt → Announces frame pkt) ↔ WellMeasured frame := by
  obtain ⟨r, s', hparse, hcases⟩ := parseFrame_cases s frame
  constructor
  · intro ⟨r', s'', hparse', hexact⟩ n hn
    obtain ⟨rfl, rfl⟩ := Prod.mk.inj (Option.some.inj (hparse.symm.trans hparse'))
    rcases hcases with ⟨-, hnone⟩ | ⟨pkt, rfl, htaken, -, -⟩
    · exact absurd hn (hnone n)
    obtain rfl := hn.unique htaken
    have hann := hexact pkt rfl
    have hle := hann.within.length_le
    rw [List.length_drop, List.length_take] at hle
    exact ⟨hann.ihl, by omega⟩
  · intro hwell
    refine ⟨r, s', hparse, fun pkt hpkt => ?_⟩
    rcases hcases with ⟨rfl, -⟩ | ⟨pkt', rfl, htaken, hsrc, hstart⟩
    · cases hpkt
    obtain rfl := Option.some.inj hpkt
    obtain ⟨hihl, hfits⟩ := hwell _ htaken
    have hheader := htaken.header.2.2
    rw [List.length_drop] at hheader
    refine ⟨htaken.ethertype, htaken.header.2.1, hihl, by omega, hsrc, ?_⟩
    rw [List.drop_take]
    exact hstart.take (by omega)

/-- A header that announces nothing behind it, in a frame filled up with zeros to 60 bytes. -/
def paddedFrame : List UInt8 :=
  [0x52, 0x54, 0, 0x12, 0x34, 0x56, 0x52, 0x55, 10, 0, 2, 3, 0x08, 0x00] ++
    [0x45, 0, 0, 20, 0, 1, 0x40, 0, 64, protoIcmp, 0x22, 0xd7, 10, 0, 2, 3, 10, 0, 2, 15] ++ List.replicate 26 0

/-- An echo reply is read off the zeros. -/
theorem padding_is_parsed : ¬ ∀ (s : NetworkStack) (frame : List UInt8),
    ∃ r s', s.parseFrame frame = some (r, s') ∧ ∀ pkt, r = some pkt → Announces frame pkt := by
  intro hall
  obtain ⟨r, s', hparse, hexact⟩ := hall oneNeighbour paddedFrame
  have hreply : oneNeighbour.parseFrame paddedFrame =
      some (some (.icmpEchoReply #v[10, 0, 2, 3] 0 0), oneNeighbour) := rfl
  obtain ⟨rfl, rfl⟩ := Prod.mk.inj (Option.some.inj (hreply.symm.trans hparse))
  have hle := (hexact _ rfl).within.length_le
  exact absurd hle (by decide)

end ChodOs.Net
