import AuraOS.OnesComplement

/-!
The packet formats of the network stack: Ethernet frames, ARP, IPv4, ICMP and UDP.
Parsing rejects by `none`; an access outside the data is an error of `Checked`.
-/

namespace AuraOS.Net

open AuraOS.CheckedBytes AuraOS.OnesComplement

abbrev MacAddr := Vector UInt8 6
abbrev Ipv4Addr := Vector UInt8 4

def ethertypeIpv4 : UInt16 := 0x0800
def ethertypeArp : UInt16 := 0x0806
def ethernetHeaderLen : Nat := 14
def ethernetMinLen : Nat := 60
def broadcastMac : MacAddr := Vector.replicate 6 0xFF

structure EthernetHeader where
  destMac : MacAddr
  srcMac : MacAddr
  ethertype : UInt16
deriving DecidableEq

structure EthernetFrame where
  header : EthernetHeader
  payload : List UInt8
deriving DecidableEq

def EthernetFrame.parse (data : List UInt8) : Checked (Option EthernetFrame) :=
  if data.length < ethernetHeaderLen then pure none
  else do
    let destMac ← arrayAt 6 data 0 6
    let srcMac ← arrayAt 6 data 6 12
    let ethertype ← wordAt data 12
    let payload ← sliceFrom data ethernetHeaderLen
    pure (some { header := { destMac, srcMac, ethertype }, payload })

def EthernetHeader.bytes (header : EthernetHeader) : List UInt8 :=
  header.destMac.toList ++ header.srcMac.toList ++ toBeBytes header.ethertype

@[simp]
theorem EthernetHeader.length_bytes (header : EthernetHeader) : header.bytes.length = 14 := by
  simp [EthernetHeader.bytes]

def padFrame (bytes : List UInt8) : List UInt8 :=
  bytes ++ List.replicate (ethernetMinLen - bytes.length) 0

def EthernetFrame.serialize (frame : EthernetFrame) : List UInt8 :=
  padFrame (frame.header.bytes ++ frame.payload)

def arpHtypeEthernet : UInt16 := 1
def arpPtypeIpv4 : UInt16 := 0x0800
def arpHlenEthernet : UInt8 := 6
def arpPlenIpv4 : UInt8 := 4
def arpOpRequest : UInt16 := 1
def arpOpReply : UInt16 := 2
def arpPacketLen : Nat := 28

structure ArpPacket where
  htype : UInt16
  ptype : UInt16
  hlen : UInt8
  plen : UInt8
  oper : UInt16
  senderMac : MacAddr
  senderIp : Ipv4Addr
  targetMac : MacAddr
  targetIp : Ipv4Addr
deriving DecidableEq

def ArpPacket.parse (data : List UInt8) : Checked (Option ArpPacket) :=
  if data.length < arpPacketLen then pure none
  else do
    let htype ← wordAt data 0
    let ptype ← wordAt data 2
    let hlen ← byteAt data 4
    let plen ← byteAt data 5
    let oper ← wordAt data 6
    let senderMac ← arrayAt 6 data 8 14
    let senderIp ← arrayAt 4 data 14 18
    let targetMac ← arrayAt 6 data 18 24
    let targetIp ← arrayAt 4 data 24 28
    pure (some { htype, ptype, hlen, plen, oper, senderMac, senderIp, targetMac, targetIp })

def ArpPacket.serialize (packet : ArpPacket) : Checked (List UInt8) := do
  let buf := List.replicate arpPacketLen 0
  let buf ← copyInto buf 0 2 (toBeBytes packet.htype)
  let buf ← copyInto buf 2 4 (toBeBytes packet.ptype)
  let buf ← setByte buf 4 packet.hlen
  let buf ← setByte buf 5 packet.plen
  let buf ← copyInto buf 6 8 (toBeBytes packet.oper)
  let buf ← copyInto buf 8 14 packet.senderMac.toList
  let buf ← copyInto buf 14 18 packet.senderIp.toList
  let buf ← copyInto buf 18 24 packet.targetMac.toList
  copyInto buf 24 28 packet.targetIp.toList

def ArpPacket.bytes (packet : ArpPacket) : List UInt8 :=
  toBeBytes packet.htype ++ toBeBytes packet.ptype ++ [packet.hlen] ++ [packet.plen] ++
    toBeBytes packet.oper ++ packet.senderMac.toList ++ packet.senderIp.toList ++
    packet.targetMac.toList ++ packet.targetIp.toList

@[simp]
theorem ArpPacket.length_bytes (packet : ArpPacket) : packet.bytes.length = 28 := by
  simp [ArpPacket.bytes]

theorem ArpPacket.serialize_eq (packet : ArpPacket) : packet.serialize = .ok packet.bytes := by
  rw [ArpPacket.serialize, ← filled_nil,
    copyInto_filled (by simp) (by simp) (by decide), ok_bind,
    copyInto_filled (by simp) (by simp) (by decide), ok_bind,
    setByte_filled (by simp) (by decide), ok_bind, setByte_filled (by simp) (by decide), ok_bind,
    copyInto_filled (by simp) (by simp) (by decide), ok_bind,
    copyInto_filled (by simp) (by simp) (by decide), ok_bind,
    copyInto_filled (by simp) (by simp) (by decide), ok_bind,
    copyInto_filled (by simp) (by simp) (by decide), ok_bind,
    copyInto_filled (by simp) (by simp) (by decide), filled_of_length (by simp [arpPacketLen])]
  rfl

def buildArpRequest (senderMac : MacAddr) (senderIp targetIp : Ipv4Addr) : Checked (List UInt8) :=
  ArpPacket.serialize
    { htype := arpHtypeEthernet, ptype := arpPtypeIpv4
      hlen := arpHlenEthernet, plen := arpPlenIpv4, oper := arpOpRequest
      senderMac, senderIp, targetMac := Vector.replicate 6 0, targetIp }

def buildArpReply (senderMac : MacAddr) (senderIp : Ipv4Addr) (targetMac : MacAddr)
    (targetIp : Ipv4Addr) : Checked (List UInt8) :=
  ArpPacket.serialize
    { htype := arpHtypeEthernet, ptype := arpPtypeIpv4
      hlen := arpHlenEthernet, plen := arpPlenIpv4, oper := arpOpReply
      senderMac, senderIp, targetMac, targetIp }

def ipv4ProtoIcmp : UInt8 := 1
def ipv4ProtoUdp : UInt8 := 17
def ipv4MinHeaderLen : Nat := 20

def addWords (sum : Nat) : List UInt8 → Nat
  | high :: low :: rest => addWords ((sum + (fromBeBytes high low).toNat) % 2 ^ 32) rest
  | [byte] => (sum + byte.toNat * 256) % 2 ^ 32
  | [] => sum

/-- The checksum of the data.  Two rounds end the loop over the carries of a sum of 32 bits
(`foldCarry_two_lt`). -/
def calculateChecksum (data : List UInt8) : UInt16 :=
  ~~~ UInt16.ofNat (foldCarry 2 (addWords 0 data))

structure Ipv4Header where
  versionIhl : UInt8
  tos : UInt8
  totalLength : UInt16
  identification : UInt16
  flagsFragment : UInt16
  ttl : UInt8
  protocol : UInt8
  checksum : UInt16
  sourceIp : Ipv4Addr
  destIp : Ipv4Addr
deriving DecidableEq

structure Ipv4Packet where
  header : Ipv4Header
  payload : List UInt8
deriving DecidableEq

def headerLength (versionIhl : UInt8) : Nat := (versionIhl &&& 0x0F).toNat * 4

def Ipv4Packet.parse (data : List UInt8) : Checked (Option Ipv4Packet) :=
  if data.length < ipv4MinHeaderLen then pure none
  else do
    let versionIhl ← byteAt data 0
    let ihl := headerLength versionIhl
    if data.length < ihl ∨ ihl < ipv4MinHeaderLen then pure none
    else do
      let totalLength ← wordAt data 2
      if data.length < totalLength.toNat then pure none
      else do
        let headerBytes ← slice data 0 ihl
        if calculateChecksum headerBytes ≠ 0 then pure none
        else do
          let tos ← byteAt data 1
          let identification ← wordAt data 4
          let flagsFragment ← wordAt data 6
          let ttl ← byteAt data 8
          let protocol ← byteAt data 9
          let checksum ← wordAt data 10
          let sourceIp ← arrayAt 4 data 12 16
          let destIp ← arrayAt 4 data 16 20
          -- the total length has not been compared with the header's length
          let payload ← slice data ihl totalLength.toNat
          pure (some
            { header :=
                { versionIhl, tos, totalLength, identification, flagsFragment, ttl, protocol
                  checksum, sourceIp, destIp }
              payload })

def Ipv4Packet.new (sourceIp destIp : Ipv4Addr) (protocol : UInt8) (payload : List UInt8) :
    Checked Ipv4Packet := do
  let header : Ipv4Header :=
    { versionIhl := 0x45, tos := 0
      totalLength := UInt16.ofNat (ipv4MinHeaderLen + payload.length)
      identification := 0x1337, flagsFragment := 0x4000, ttl := 64
      protocol, checksum := 0, sourceIp, destIp }
  let rawHdr := List.replicate ipv4MinHeaderLen 0
  let rawHdr ← setByte rawHdr 0 header.versionIhl
  let rawHdr ← setByte rawHdr 1 header.tos
  let rawHdr ← copyInto rawHdr 2 4 (toBeBytes header.totalLength)
  let rawHdr ← copyInto rawHdr 4 6 (toBeBytes header.identification)
  let rawHdr ← copyInto rawHdr 6 8 (toBeBytes header.flagsFragment)
  let rawHdr ← setByte rawHdr 8 header.ttl
  let rawHdr ← setByte rawHdr 9 header.protocol
  let rawHdr ← copyInto rawHdr 10 12 [0, 0]
  let rawHdr ← copyInto rawHdr 12 16 header.sourceIp.toList
  let rawHdr ← copyInto rawHdr 16 20 header.destIp.toList
  pure { header := { header with checksum := calculateChecksum rawHdr }, payload }

def Ipv4Packet.serialize (packet : Ipv4Packet) : List UInt8 :=
  let header := packet.header
  [header.versionIhl, header.tos] ++ toBeBytes header.totalLength ++
    toBeBytes header.identification ++ toBeBytes header.flagsFragment ++
    [header.ttl, header.protocol] ++ toBeBytes header.checksum ++
    header.sourceIp.toList ++ header.destIp.toList ++ packet.payload

def Ipv4Header.bytes (header : Ipv4Header) : List UInt8 :=
  [header.versionIhl] ++ [header.tos] ++ toBeBytes header.totalLength ++
    toBeBytes header.identification ++ toBeBytes header.flagsFragment ++ [header.ttl] ++
    [header.protocol] ++ toBeBytes header.checksum ++ header.sourceIp.toList ++
    header.destIp.toList

@[simp]
theorem Ipv4Header.length_bytes (header : Ipv4Header) : header.bytes.length = 20 := by
  simp [Ipv4Header.bytes]

theorem Ipv4Packet.serialize_eq (packet : Ipv4Packet) :
    packet.serialize = packet.header.bytes ++ packet.payload := by
  simp [Ipv4Packet.serialize, Ipv4Header.bytes]

def Ipv4Header.unsummed (sourceIp destIp : Ipv4Addr) (protocol : UInt8) (payload : List UInt8) :
    Ipv4Header :=
  { versionIhl := 0x45, tos := 0
    totalLength := UInt16.ofNat (ipv4MinHeaderLen + payload.length)
    identification := 0x1337, flagsFragment := 0x4000, ttl := 64
    protocol, checksum := 0, sourceIp, destIp }

def Ipv4Header.summed (header : Ipv4Header) : Ipv4Header :=
  { header with checksum := calculateChecksum header.bytes }

theorem Ipv4Packet.new_eq (sourceIp destIp : Ipv4Addr) (protocol : UInt8) (payload : List UInt8) :
    Ipv4Packet.new sourceIp destIp protocol payload =
      .ok { header := (Ipv4Header.unsummed sourceIp destIp protocol payload).summed, payload } := by
  have hzero : ([0, 0] : List UInt8) = toBeBytes 0 := by decide
  rw [Ipv4Packet.new, ← filled_nil, hzero,
    setByte_filled (by simp) (by decide), ok_bind, setByte_filled (by simp) (by decide), ok_bind,
    copyInto_filled (by simp) (by simp) (by decide), ok_bind,
    copyInto_filled (by simp) (by simp) (by decide), ok_bind,
    copyInto_filled (by simp) (by simp) (by decide), ok_bind,
    setByte_filled (by simp) (by decide), ok_bind, setByte_filled (by simp) (by decide), ok_bind,
    copyInto_filled (by simp) (by simp) (by decide), ok_bind,
    copyInto_filled (by simp) (by simp) (by decide), ok_bind,
    copyInto_filled (by simp) (by simp) (by decide), ok_bind,
    filled_of_length (by simp [ipv4MinHeaderLen])]
  rfl

def icmpTypeEchoReply : UInt8 := 0
def icmpTypeEchoRequest : UInt8 := 8
def icmpHeaderLen : Nat := 8

structure IcmpHeader where
  msgType : UInt8
  code : UInt8
  checksum : UInt16
  identifier : UInt16
  sequenceNumber : UInt16
deriving DecidableEq

structure IcmpPacket where
  header : IcmpHeader
  payload : List UInt8
deriving DecidableEq

def IcmpPacket.parse (data : List UInt8) : Checked (Option IcmpPacket) :=
  if data.length < icmpHeaderLen then pure none
  else do
    let msgType ← byteAt data 0
    let code ← byteAt data 1
    let checksum ← wordAt data 2
    let identifier ← wordAt data 4
    let sequenceNumber ← wordAt data 6
    let payload ← sliceFrom data icmpHeaderLen
    pure (some { header := { msgType, code, checksum, identifier, sequenceNumber }, payload })

def IcmpPacket.serialize (packet : IcmpPacket) : Checked (List UInt8) :=
  let header := packet.header
  let buf := [header.msgType, header.code, 0, 0] ++ toBeBytes header.identifier ++
    toBeBytes header.sequenceNumber ++ packet.payload
  copyInto buf 2 4 (toBeBytes (calculateChecksum buf))

def IcmpHeader.bytes (header : IcmpHeader) : List UInt8 :=
  [header.msgType] ++ [header.code] ++ toBeBytes header.checksum ++
    toBeBytes header.identifier ++ toBeBytes header.sequenceNumber

@[simp]
theorem IcmpHeader.length_bytes (header : IcmpHeader) : header.bytes.length = 8 :=
  rfl

def IcmpPacket.summedHeader (packet : IcmpPacket) : IcmpHeader :=
  { packet.header with
    checksum := calculateChecksum ({ packet.header with checksum := 0 }.bytes ++ packet.payload) }

theorem IcmpPacket.serialize_eq (packet : IcmpPacket) :
    packet.serialize = .ok (packet.summedHeader.bytes ++ packet.payload) := by
  have hzero : toBeBytes 0 = [0, 0] := by decide
  have hbuf : { packet.header with checksum := 0 }.bytes ++ packet.payload =
      [packet.header.msgType, packet.header.code, 0, 0] ++ toBeBytes packet.header.identifier ++
        toBeBytes packet.header.sequenceNumber ++ packet.payload := by
    simp [IcmpHeader.bytes, hzero]
  rw [IcmpPacket.summedHeader, hbuf]
  rfl

def buildEcho (msgType : UInt8) (identifier sequenceNumber : UInt16) (payload : List UInt8) :
    Checked (List UInt8) :=
  IcmpPacket.serialize
    { header := { msgType, code := 0, checksum := 0, identifier, sequenceNumber }, payload }

def buildEchoRequest := buildEcho icmpTypeEchoRequest

def buildEchoReply := buildEcho icmpTypeEchoReply

def udpHeaderLen : Nat := 8

structure UdpHeader where
  srcPort : UInt16
  destPort : UInt16
  length : UInt16
  checksum : UInt16
deriving DecidableEq

structure UdpPacket where
  header : UdpHeader
  payload : List UInt8
deriving DecidableEq

def UdpPacket.parse (data : List UInt8) : Checked (Option UdpPacket) :=
  if data.length < udpHeaderLen then pure none
  else do
    let srcPort ← wordAt data 0
    let destPort ← wordAt data 2
    let length ← wordAt data 4
    let checksum ← wordAt data 6
    if data.length < length.toNat ∨ length.toNat < udpHeaderLen then pure none
    else do
      let payload ← slice data udpHeaderLen length.toNat
      pure (some { header := { srcPort, destPort, length, checksum }, payload })

def UdpPacket.new (srcIp destIp : Ipv4Addr) (srcPort destPort : UInt16) (payload : List UInt8) :
    UdpPacket :=
  let length := UInt16.ofNat (udpHeaderLen + payload.length)
  let pseudo := srcIp.toList ++ destIp.toList ++ [0, 17] ++ toBeBytes length ++
    toBeBytes srcPort ++ toBeBytes destPort ++ toBeBytes length ++ [0, 0] ++ payload
  let checksum := calculateChecksum pseudo
  let checksum := if checksum = 0 then 0xFFFF else checksum
  { header := { srcPort, destPort, length, checksum }, payload }

def UdpHeader.bytes (header : UdpHeader) : List UInt8 :=
  toBeBytes header.srcPort ++ toBeBytes header.destPort ++ toBeBytes header.length ++
    toBeBytes header.checksum

@[simp]
theorem UdpHeader.length_bytes (header : UdpHeader) : header.bytes.length = 8 :=
  rfl

def UdpPacket.serialize (packet : UdpPacket) : List UInt8 :=
  packet.header.bytes ++ packet.payload

end AuraOS.Net
