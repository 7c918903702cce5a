import AuraOS.ReceivePath
import AuraOS.InternetChecksum

namespace AuraOS.Net

open AuraOS.CheckedBytes AuraOS.OnesComplement AuraOS.Drivers

variable {data payload raw : List UInt8} {echo : Echo} {nic : E1000} {host : Host}

theorem ArpPacket.parse_bytes (packet : ArpPacket) (padding : List UInt8) :
    ArpPacket.parse (packet.bytes ++ padding) = .ok (some packet) := by
  have hfields := occursAt_self_append packet.bytes padding
  have hlength : 28 ≤ (packet.bytes ++ padding).length := by
    simp
  generalize packet.bytes ++ padding = data at hfields hlength ⊢
  simp only [ArpPacket.bytes, occursAt_append, List.length_append, length_toBeBytes,
    List.length_singleton, Vector.length_toList, Nat.reduceAdd, and_assoc] at hfields
  obtain ⟨htype, hptype, hhlen, hplen, hoper, hsmac, hsip, htmac, htip⟩ := hfields
  rw [ArpPacket.parse, arpPacketLen, if_neg (Nat.not_lt.mpr hlength), htype.wordAt, ok_bind,
    hptype.wordAt,
    ok_bind, hhlen.byteAt, ok_bind, hplen.byteAt, ok_bind, hoper.wordAt, ok_bind,
    hsmac.arrayAt rfl (by omega), ok_bind, hsip.arrayAt rfl (by omega), ok_bind,
    htmac.arrayAt rfl (by omega), ok_bind, htip.arrayAt rfl (by omega), ok_bind]
  rfl

def padding (payload : List UInt8) : List UInt8 :=
  List.replicate (ethernetMinLen - (ethernetHeaderLen + payload.length)) 0

theorem EthernetFrame.serialize_eq (frame : EthernetFrame) :
    frame.serialize = frame.header.bytes ++ (frame.payload ++ padding frame.payload) := by
  have hlength : (frame.header.bytes ++ frame.payload).length =
      ethernetHeaderLen + frame.payload.length := by
    simp [ethernetHeaderLen]
  rw [EthernetFrame.serialize, padFrame, hlength, List.append_assoc, padding]

theorem EthernetFrame.parse_bytes (header : EthernetHeader) (payload : List UInt8) :
    EthernetFrame.parse (header.bytes ++ payload) = .ok (some { header, payload }) := by
  have hfields := occursAt_self_append header.bytes payload
  have hpayload : sliceFrom (header.bytes ++ payload) 14 = .ok payload :=
    sliceFrom_append payload header.length_bytes
  have hlength : 14 ≤ (header.bytes ++ payload).length := by
    simp
  generalize header.bytes ++ payload = data at hfields hpayload hlength ⊢
  simp only [EthernetHeader.bytes, occursAt_append, List.length_append, Vector.length_toList,
    Nat.reduceAdd, and_assoc] at hfields
  obtain ⟨hdest, hsrc, htype⟩ := hfields
  rw [EthernetFrame.parse, ethernetHeaderLen, if_neg (Nat.not_lt.mpr hlength),
    hdest.arrayAt rfl (by omega), ok_bind, hsrc.arrayAt rfl (by omega), ok_bind, htype.wordAt,
    ok_bind, hpayload, ok_bind]
  rfl

theorem IcmpPacket.parse_bytes (header : IcmpHeader) (payload : List UInt8) :
    IcmpPacket.parse (header.bytes ++ payload) = .ok (some { header, payload }) := by
  have hfields := occursAt_self_append header.bytes payload
  have hpayload : sliceFrom (header.bytes ++ payload) 8 = .ok payload :=
    sliceFrom_append payload header.length_bytes
  have hlength : 8 ≤ (header.bytes ++ payload).length := by
    simp
  generalize header.bytes ++ payload = data at hfields hpayload hlength ⊢
  simp only [IcmpHeader.bytes, occursAt_append, List.length_append, length_toBeBytes,
    List.length_singleton, Nat.reduceAdd, and_assoc] at hfields
  obtain ⟨htype, hcode, hchecksum, hidentifier, hsequence⟩ := hfields
  rw [IcmpPacket.parse, icmpHeaderLen, if_neg (Nat.not_lt.mpr hlength), htype.byteAt, ok_bind,
    hcode.byteAt, ok_bind, hchecksum.wordAt, ok_bind, hidentifier.wordAt, ok_bind,
    hsequence.wordAt, ok_bind, hpayload, ok_bind]
  rfl

theorem UdpPacket.parse_serialize (packet : UdpPacket)
    (h : packet.header.length.toNat = udpHeaderLen + packet.payload.length) :
    UdpPacket.parse packet.serialize = .ok (some packet) := by
  have hlength : packet.serialize.length = 8 + packet.payload.length := by
    simp [UdpPacket.serialize]
  have hfields : OccursAt packet.serialize 0 (packet.header.bytes ++ packet.payload) :=
    List.prefix_rfl
  simp only [UdpHeader.bytes, occursAt_append, List.length_append, length_toBeBytes,
    Nat.reduceAdd, and_assoc] at hfields
  obtain ⟨hsrc, hdest, hlen, hchecksum, hpayload⟩ := hfields
  simp only [udpHeaderLen] at h
  rw [UdpPacket.parse, udpHeaderLen, if_neg (by omega), hsrc.wordAt, ok_bind, hdest.wordAt,
    ok_bind, hlen.wordAt, ok_bind, hchecksum.wordAt, ok_bind, if_neg (by omega),
    hpayload.slice (by omega) (by omega), ok_bind]
  rfl

theorem Ipv4Packet.parse_new (sourceIp destIp : Ipv4Addr) (protocol : UInt8)
    (payload padding : List UInt8) (h : ipv4MinHeaderLen + payload.length < 65536) :
    Ipv4Packet.parse ((Ipv4Header.unsummed sourceIp destIp protocol payload).summed.bytes ++
      payload ++ padding) =
      .ok (some { header := (Ipv4Header.unsummed sourceIp destIp protocol payload).summed,
                  payload }) := by
  have hchecksum : calculateChecksum
      (Ipv4Header.unsummed sourceIp destIp protocol payload).summed.bytes = 0 :=
    Ipv4Header.checksum_summed rfl
  have htotal : (Ipv4Header.unsummed sourceIp destIp protocol payload).summed.totalLength.toNat =
      20 + payload.length :=
    UInt16.toNat_ofNat_of_lt' h
  have hihl : headerLength
      (Ipv4Header.unsummed sourceIp destIp protocol payload).summed.versionIhl = 20 :=
    show headerLength 0x45 = 20 by decide
  generalize (Ipv4Header.unsummed sourceIp destIp protocol payload).summed = header at *
  have hfields := occursAt_self_append (header.bytes ++ payload) padding
  have hlength : (header.bytes ++ payload ++ padding).length =
      20 + payload.length + padding.length := by
    simp [Nat.add_assoc]
  generalize header.bytes ++ payload ++ padding = data at hfields hlength ⊢
  obtain ⟨hheader, hpayload⟩ := occursAt_append.mp hfields
  rw [Ipv4Header.length_bytes, Nat.zero_add] at hpayload
  have hall := hheader
  simp only [Ipv4Header.bytes, occursAt_append, List.length_append, length_toBeBytes,
    List.length_singleton, Vector.length_toList, Nat.reduceAdd, and_assoc] at hheader
  obtain ⟨hversion, htos, hlen, hid, hflags, httl, hproto, hsum, hsource, hdest⟩ := hheader
  rw [Ipv4Packet.parse, ipv4MinHeaderLen, if_neg (by omega), hversion.byteAt, ok_bind]
  simp only [hihl]
  rw [if_neg (by omega), hlen.wordAt, ok_bind, if_neg (by omega),
    hall.slice (by simp) (by omega), ok_bind, if_neg (not_not.mpr hchecksum), htos.byteAt, ok_bind,
    hid.wordAt, ok_bind, hflags.wordAt, ok_bind, httl.byteAt, ok_bind, hproto.byteAt, ok_bind,
    hsum.wordAt, ok_bind, hsource.arrayAt rfl (by omega), ok_bind, hdest.arrayAt rfl (by omega),
    ok_bind, hpayload.slice (by simp [htotal]) (by omega), ok_bind]
  rfl

structure Route where
  destMac : MacAddr
  srcMac : MacAddr
  sourceIp : Ipv4Addr
  destIp : Ipv4Addr

section Routes

variable (route : Route)

def Route.ethernet : EthernetHeader :=
  { destMac := route.destMac, srcMac := route.srcMac, ethertype := ethertypeIpv4 }

def frameIpv4 (protocol : UInt8) (payload : List UInt8) : Checked (List UInt8) := do
  let packet ← Ipv4Packet.new route.sourceIp route.destIp protocol payload
  pure (EthernetFrame.serialize { header := route.ethernet, payload := packet.serialize })

/-- The frame parses to an IPv4 packet with these addresses and this protocol, in all fields
the packet that was built for its payload. -/
def CarriesIpv4 (protocol : UInt8) (packet : Ipv4Packet) (raw : List UInt8) : Prop :=
  ∃ frame, EthernetFrame.parse raw = .ok (some frame) ∧ frame.header = route.ethernet ∧
    Ipv4Packet.parse frame.payload = .ok (some packet) ∧
    packet.header.sourceIp = route.sourceIp ∧ packet.header.destIp = route.destIp ∧
    packet.header.protocol = protocol ∧
    Ipv4Packet.new route.sourceIp route.destIp protocol packet.payload = .ok packet

theorem frameIpv4_carries (protocol : UInt8) (payload : List UInt8)
    (h : ipv4MinHeaderLen + payload.length < 65536) :
    ∃ raw packet, frameIpv4 route protocol payload = .ok raw ∧ packet.payload = payload ∧
      CarriesIpv4 route protocol packet raw := by
  have hnew := Ipv4Packet.new_eq route.sourceIp route.destIp protocol payload
  refine ⟨_, ⟨(Ipv4Header.unsummed route.sourceIp route.destIp protocol payload).summed, payload⟩,
    by rw [frameIpv4, hnew, ok_bind]; rfl, rfl, ?_⟩
  refine ⟨_, by rw [EthernetFrame.serialize_eq, EthernetFrame.parse_bytes], rfl, ?_, rfl, rfl, rfl,
    hnew⟩
  exact Ipv4Packet.parse_new _ _ _ _ _ h

structure Echo where
  identifier : UInt16
  sequenceNumber : UInt16
  payload : List UInt8

def Echo.message (echo : Echo) (msgType : UInt8) : IcmpPacket :=
  { header :=
      { msgType, code := 0, checksum := 0
        identifier := echo.identifier, sequenceNumber := echo.sequenceNumber }
    payload := echo.payload }

def CarriesEcho (msgType : UInt8) (echo : Echo) (raw : List UInt8) : Prop :=
  ∃ packet icmp, CarriesIpv4 route ipv4ProtoIcmp packet raw ∧
    IcmpPacket.parse packet.payload = .ok (some icmp) ∧ icmp.header.msgType = msgType ∧
    icmp.header.code = 0 ∧ icmp.header.identifier = echo.identifier ∧
    icmp.header.sequenceNumber = echo.sequenceNumber ∧ icmp.payload = echo.payload

def frameEcho (msgType : UInt8) (echo : Echo) : Checked (List UInt8) := do
  let message ← buildEcho msgType echo.identifier echo.sequenceNumber echo.payload
  frameIpv4 route ipv4ProtoIcmp message

def FitsFrame (payload : List UInt8) : Prop :=
  ethernetHeaderLen + ipv4MinHeaderLen + icmpHeaderLen + payload.length ≤ packetBufferSize

theorem FitsFrame.length_lt (h : FitsFrame payload) : 20 + (8 + payload.length) < 65536 := by
  have h' : 14 + 20 + 8 + payload.length ≤ 2048 := h
  omega

theorem frameEcho_carries (msgType : UInt8) (h : FitsFrame echo.payload) :
    ∃ raw, frameEcho route msgType echo = .ok raw ∧ CarriesEcho route msgType echo raw := by
  have hmessage : buildEcho msgType echo.identifier echo.sequenceNumber echo.payload = _ :=
    (echo.message msgType).serialize_eq
  obtain ⟨raw, packet, hraw, hpayload, hcarries⟩ := frameIpv4_carries route ipv4ProtoIcmp
    ((echo.message msgType).summedHeader.bytes ++ (echo.message msgType).payload)
    (by rw [List.length_append, IcmpHeader.length_bytes]; exact h.length_lt)
  refine ⟨raw, ?_, packet, ⟨(echo.message msgType).summedHeader, echo.payload⟩, hcarries, ?_, ?_⟩
  · rw [frameEcho, hmessage, ok_bind, hraw]
  · rw [hpayload, IcmpPacket.parse_bytes]
    rfl
  · exact ⟨rfl, rfl, rfl, rfl, rfl⟩

def CarriesUdp (srcPort destPort : UInt16) (payload : List UInt8) (raw : List UInt8) : Prop :=
  ∃ packet udp, CarriesIpv4 route ipv4ProtoUdp packet raw ∧
    UdpPacket.parse packet.payload = .ok (some udp) ∧ udp.header.srcPort = srcPort ∧
    udp.header.destPort = destPort ∧ udp.payload = payload ∧
    udp = UdpPacket.new route.sourceIp route.destIp srcPort destPort payload

def frameUdp (srcPort destPort : UInt16) (payload : List UInt8) : Checked (List UInt8) :=
  frameIpv4 route ipv4ProtoUdp
    (UdpPacket.new route.sourceIp route.destIp srcPort destPort payload).serialize

theorem frameUdp_carries (srcPort destPort : UInt16) (h : FitsFrame payload) :
    ∃ raw, frameUdp route srcPort destPort payload = .ok raw ∧
      CarriesUdp route srcPort destPort payload raw := by
  have hlength := h.length_lt
  obtain ⟨raw, packet, hraw, hpayload, hcarries⟩ := frameIpv4_carries route ipv4ProtoUdp
    (UdpPacket.new route.sourceIp route.destIp srcPort destPort payload).serialize
    (by rw [UdpPacket.serialize, List.length_append, UdpHeader.length_bytes]; exact hlength)
  refine ⟨raw, hraw, packet, _, hcarries, ?_, rfl, rfl, rfl, rfl⟩
  rw [hpayload]
  exact UdpPacket.parse_serialize _
    (UInt16.toNat_ofNat_of_lt' (show 8 + payload.length < 65536 by omega))

end Routes

theorem receivePacket_initialized {nic' : E1000} (h : nic.receivePacket = .ok (some raw, nic')) :
    nic'.isInitialized = true := by
  unfold E1000.receivePacket at h
  split at h
  · cases h
  · rename_i hinit
    simp only at h
    split at h
    · cases h
    · unfold slice at h
      split at h
      · cases h
        exact eq_true_of_ne_false hinit
      · cases h

theorem EthernetFrame.length_serialize (frame : EthernetFrame) :
    frame.serialize.length = max ethernetMinLen (ethernetHeaderLen + frame.payload.length) := by
  simp only [EthernetFrame.serialize_eq, padding, List.length_append, List.length_replicate,
    EthernetHeader.length_bytes, ethernetHeaderLen, ethernetMinLen]
  omega

theorem Host.sendFrame_spec (destMac : MacAddr) (ethertype : UInt16)
    (hinit : host.nic.isInitialized = true)
    (hfits : ethernetHeaderLen + payload.length ≤ packetBufferSize) :
    (host.sendFrame destMac ethertype payload).2.sent = host.sent ++
        [EthernetFrame.serialize { header := ⟨destMac, host.net.mac, ethertype⟩, payload }] ∧
      (host.sendFrame destMac ethertype payload).2.nic.isInitialized = true ∧
      (host.sendFrame destMac ethertype payload).2.net.mac = host.net.mac ∧
      (host.sendFrame destMac ethertype payload).2.net.ip = host.net.ip := by
  have hlength := EthernetFrame.length_serialize
    { header := ⟨destMac, host.net.mac, ethertype⟩, payload }
  have haccepts : host.nic.Accepts
      (EthernetFrame.serialize { header := ⟨destMac, host.net.mac, ethertype⟩, payload }) := by
    refine ⟨hinit, fun hnil => ?_, ?_⟩
    · have hmin := Nat.le_max_left ethernetMinLen (ethernetHeaderLen + payload.length)
      rw [← hlength, hnil] at hmin
      exact absurd hmin (by decide)
    · rw [hlength]
      exact Nat.max_le.mpr ⟨by decide, hfits⟩
  simp [Host.sendFrame, E1000.sendPacket, dif_pos haccepts, hinit]

def IsArpRequest (raw : List UInt8) : Prop :=
  ∃ frame arp, EthernetFrame.parse raw = .ok (some frame) ∧
    frame.header.ethertype = ethertypeArp ∧ ArpPacket.parse frame.payload = .ok (some arp) ∧
    arp.oper = arpOpRequest

theorem arp_fits (packet : ArpPacket) :
    ethernetHeaderLen + packet.bytes.length ≤ packetBufferSize := by
  rw [ArpPacket.length_bytes]
  decide

theorem isArpRequest_serialize {header : EthernetHeader} {packet : ArpPacket}
    (htype : header.ethertype = ethertypeArp) (hoper : packet.oper = arpOpRequest) :
    IsArpRequest (EthernetFrame.serialize { header, payload := packet.bytes }) := by
  rw [EthernetFrame.serialize_eq]
  exact ⟨_, packet, EthernetFrame.parse_bytes _ _, htype, ArpPacket.parse_bytes _ _, hoper⟩

theorem Host.resolve_spec (destIp : Ipv4Addr) (hinit : host.nic.isInitialized = true) :
    ∃ destMac host' requests, host.resolve destIp = .ok (destMac, host') ∧
      host'.sent = host.sent ++ requests ∧ requests.length ≤ 1 ∧
      (∀ raw ∈ requests, IsArpRequest raw) ∧ host'.nic.isInitialized = true ∧
      host'.net.mac = host.net.mac ∧ host'.net.ip = host.net.ip := by
  unfold Host.resolve
  split
  · exact ⟨_, host, [], rfl, by simp, by simp, by simp, hinit, rfl, rfl⟩
  · split
    · exact ⟨_, host, [], rfl, by simp, by simp, by simp, hinit, rfl, rfl⟩
    · rw [buildArpRequest, ArpPacket.serialize_eq, ok_bind]
      obtain ⟨hsent, hinit', hmac, hip⟩ := Host.sendFrame_spec broadcastMac ethertypeArp hinit
        (arp_fits _)
      refine ⟨_, _, _, rfl, hsent, by simp, ?_, hinit', hmac, hip⟩
      intro raw hraw
      rw [List.mem_singleton.mp hraw]
      exact isArpRequest_serialize rfl rfl

theorem Host.sendIpv4_spec (destIp : Ipv4Addr) (protocol : UInt8)
    (hinit : host.nic.isInitialized = true)
    (hfits : ethernetHeaderLen + ipv4MinHeaderLen + payload.length ≤ packetBufferSize) :
    ∃ ok host' requests raw destMac,
      host.sendIpv4 destIp protocol payload = .ok (ok, host') ∧
      host'.sent = host.sent ++ requests ++ [raw] ∧ requests.length ≤ 1 ∧
      (∀ raw ∈ requests, IsArpRequest raw) ∧
      frameIpv4 ⟨destMac, host.net.mac, host.net.ip, destIp⟩ protocol payload = .ok raw := by
  obtain ⟨destMac, host', requests, hresolve, hsent, hcount, harp, hinit', hmac, hip⟩ :=
    Host.resolve_spec destIp hinit
  have hnew := Ipv4Packet.new_eq host.net.ip destIp protocol payload
  generalize (Ipv4Header.unsummed host.net.ip destIp protocol payload).summed = header at hnew
  have hpacket : ethernetHeaderLen + (Ipv4Packet.serialize ⟨header, payload⟩).length ≤
      packetBufferSize := by
    rw [Ipv4Packet.serialize_eq, List.length_append, Ipv4Header.length_bytes, ← Nat.add_assoc]
    exact hfits
  obtain ⟨hsent', -, -, -⟩ := Host.sendFrame_spec destMac ethertypeIpv4 hinit' hpacket
  have hsend : host.sendIpv4 destIp protocol payload =
      .ok (host'.sendFrame destMac ethertypeIpv4 (Ipv4Packet.serialize ⟨header, payload⟩)) := by
    rw [Host.sendIpv4, hresolve, ok_bind]
    simp only [hip, hnew, ok_bind]
    rfl
  rw [hsent, hmac] at hsent'
  refine ⟨_, _, requests, _, destMac, hsend, hsent', hcount, harp, ?_⟩
  rw [frameIpv4, hnew, ok_bind]
  rfl

/-- The host answers the echo request from the given address: besides at most one ARP request
it sends exactly the reply. -/
def Host.Answers (host : Host) (sourceIp : Ipv4Addr) (echo : Echo) : Prop :=
  ∃ host' requests reply destMac, host.poll = .ok host' ∧
    host'.sent = host.sent ++ requests ++ [reply] ∧ requests.length ≤ 1 ∧
    (∀ raw ∈ requests, IsArpRequest raw) ∧
    CarriesEcho ⟨destMac, host.net.mac, host.net.ip, sourceIp⟩ icmpTypeEchoReply echo reply

theorem Host.handleIcmp_request (host : Host) (ipHdr : Ipv4Header) {icmp : IcmpPacket}
    (hinit : host.nic.isInitialized = true) (hfits : FitsFrame echo.payload)
    (hparse : IcmpPacket.parse data = .ok (some icmp))
    (htype : icmp.header.msgType = icmpTypeEchoRequest)
    (hid : icmp.header.identifier = echo.identifier)
    (hseq : icmp.header.sequenceNumber = echo.sequenceNumber)
    (hpayload : icmp.payload = echo.payload) :
    ∃ host' requests reply destMac, host.handleIcmp ipHdr data = .ok host' ∧
      host'.sent = host.sent ++ requests ++ [reply] ∧ requests.length ≤ 1 ∧
      (∀ raw ∈ requests, IsArpRequest raw) ∧
      CarriesEcho ⟨destMac, host.net.mac, host.net.ip, ipHdr.sourceIp⟩ icmpTypeEchoReply echo
        reply := by
  have hmessage := (echo.message icmpTypeEchoReply).serialize_eq
  have hlength : ethernetHeaderLen + ipv4MinHeaderLen +
      ((echo.message icmpTypeEchoReply).summedHeader.bytes ++
        (echo.message icmpTypeEchoReply).payload).length ≤ packetBufferSize := by
    rw [List.length_append, IcmpHeader.length_bytes, ← Nat.add_assoc]
    exact hfits
  generalize (echo.message icmpTypeEchoReply).summedHeader.bytes ++
    (echo.message icmpTypeEchoReply).payload = message at hmessage hlength
  obtain ⟨ok, host', requests, reply, destMac, hsend, hsent, hcount, harp, hframe⟩ :=
    Host.sendIpv4_spec ipHdr.sourceIp ipv4ProtoIcmp hinit hlength
  obtain ⟨raw, hraw, hcarries⟩ := frameEcho_carries
    ⟨destMac, host.net.mac, host.net.ip, ipHdr.sourceIp⟩ icmpTypeEchoReply hfits
  have hbuild : buildEcho icmpTypeEchoReply echo.identifier echo.sequenceNumber echo.payload =
      .ok message := hmessage
  rw [frameEcho, hbuild, ok_bind, hframe] at hraw
  obtain rfl := Except.ok.inj hraw
  refine ⟨host', requests, reply, destMac, ?_, hsent, hcount, harp, hcarries⟩
  rw [Host.handleIcmp, hparse, ok_bind]
  simp only [if_pos htype, buildEchoReply, hid, hseq, hpayload, hbuild, ok_bind, hsend]
  rfl

theorem Host.answers_request {route : Route} (hfits : FitsFrame echo.payload)
    (hraw : CarriesEcho route icmpTypeEchoRequest echo raw)
    (hreceive : host.nic.receivePacket = .ok (some raw, nic)) :
    host.Answers route.sourceIp echo := by
  obtain ⟨packet, icmp, ⟨frame, hframe, hheader, hpacket, hsource, -, hproto, -⟩, hicmp, htype, -,
    hid, hseq, hpayload⟩ := hraw
  have hinit := receivePacket_initialized hreceive
  have harp : frame.header.ethertype ≠ ethertypeArp := by
    rw [hheader]
    show ethertypeIpv4 ≠ ethertypeArp
    decide
  have hipv4 : frame.header.ethertype = ethertypeIpv4 := by
    rw [hheader]
    rfl
  obtain ⟨host', requests, reply, destMac, hhandle, hsent, hrest⟩ :=
    Host.handleIcmp_request
      { host with
        nic
        net := { host.net with
          packetsRx := host.net.packetsRx + 1
          bytesRx := host.net.bytesRx + UInt64.ofNat raw.length } }
      packet.header hinit hfits hicmp htype hid hseq hpayload
  rw [hsource] at hrest
  refine ⟨host', requests, reply, destMac, ?_, hsent, hrest⟩
  rw [Host.poll, hreceive, ok_bind]
  show Host.process { host with nic } raw = _
  rw [Host.process, hframe, ok_bind]
  simp only [if_neg harp, if_pos hipv4]
  rw [Host.handleIpv4, hpacket, ok_bind]
  simp only [if_pos hproto]
  exact hhandle

/-- The stack understands what it builds: echo requests, datagrams and ARP packets are read
back, and a host that receives an echo request answers it. -/
theorem network_round_trip (route : Route) (echo : Echo) (srcPort destPort : UInt16)
    (hfits : FitsFrame echo.payload) :
    (∃ raw, frameEcho route icmpTypeEchoRequest echo = .ok raw ∧
      CarriesEcho route icmpTypeEchoRequest echo raw ∧
      ∀ (host : Host) (nic : E1000), host.nic.receivePacket = .ok (some raw, nic) →
        host.Answers route.sourceIp echo) ∧
    (∃ raw, frameUdp route srcPort destPort echo.payload = .ok raw ∧
      CarriesUdp route srcPort destPort echo.payload raw) ∧
    (∀ (packet : ArpPacket) (padding : List UInt8), ∃ bytes, packet.serialize = .ok bytes ∧
      ArpPacket.parse bytes = .ok (some packet) ∧
      ArpPacket.parse (bytes ++ padding) = .ok (some packet)) := by
  obtain ⟨raw, hraw, hcarries⟩ := frameEcho_carries route icmpTypeEchoRequest hfits
  refine ⟨⟨raw, hraw, hcarries, fun _ _ hreceive => Host.answers_request hfits hcarries hreceive⟩,
    frameUdp_carries route srcPort destPort hfits, fun packet padding => ?_⟩
  have hunpadded := ArpPacket.parse_bytes packet []
  rw [List.append_nil] at hunpadded
  exact ⟨packet.bytes, packet.serialize_eq, hunpadded, ArpPacket.parse_bytes packet padding⟩

def ping : Echo := { identifier := 0x1337, sequenceNumber := 1, payload := [0x41] }

def pingRoute : Route :=
  { destMac := broadcastMac, srcMac := Vector.replicate 6 2
    sourceIp := NetworkManager.new.gateway, destIp := NetworkManager.new.ip }

theorem ping_answered :
    ∃ packet : Packet, frameEcho pingRoute icmpTypeEchoRequest ping = .ok packet.val ∧
      (Host.withPacket packet).Answers pingRoute.sourceIp ping := by
  have hfits : FitsFrame ping.payload := by
    unfold FitsFrame
    decide
  obtain ⟨⟨raw, hraw, -, hanswers⟩, -⟩ := network_round_trip pingRoute ping 7 9 hfits
  have hlength : (frameEcho pingRoute icmpTypeEchoRequest ping).toOption.map List.length =
      some 60 := by
    decide +kernel
  rw [hraw] at hlength
  have hsize : raw.length = 60 := Option.some.inj hlength
  obtain ⟨nic, hreceive⟩ := withPacket_receives ⟨raw, by rw [hsize]; decide⟩
  exact ⟨⟨raw, _⟩, hraw, hanswers _ nic hreceive⟩

end AuraOS.Net
