import AuraOS.E1000
import AuraOS.NetworkPackets

namespace AuraOS.Net

open AuraOS.CheckedBytes AuraOS.Drivers

structure ArpEntry where
  ip : Ipv4Addr
  mac : MacAddr
  timestampTick : UInt64

structure ArpTable where
  entries : List ArpEntry

def ArpTable.lookup (table : ArpTable) (ip : Ipv4Addr) : Option MacAddr :=
  (table.entries.find? fun entry => entry.ip = ip).map ArpEntry.mac

def insertEntry (new : ArpEntry) : List ArpEntry → List ArpEntry
  | [] => [new]
  | entry :: rest => if entry.ip = new.ip then new :: rest else entry :: insertEntry new rest

def ArpTable.insert (table : ArpTable) (ip : Ipv4Addr) (mac : MacAddr) (now : UInt64) : ArpTable :=
  { entries := insertEntry { ip, mac, timestampTick := now } table.entries }

structure NetworkManager where
  mac : MacAddr
  ip : Ipv4Addr
  gateway : Ipv4Addr
  arpTable : ArpTable
  pingsSent : UInt64
  pingsReceived : UInt64
  lastPingSeq : UInt16
  lastPingSentTick : UInt64
  lastPingRttMs : Option UInt64
  packetsRx : UInt64
  packetsTx : UInt64
  bytesRx : UInt64
  bytesTx : UInt64

def NetworkManager.new : NetworkManager :=
  { mac := #v[0x52, 0x54, 0x00, 0x12, 0x34, 0x56]
    ip := #v[10, 0, 2, 15]
    gateway := #v[10, 0, 2, 2]
    arpTable := { entries := [] }
    pingsSent := 0, pingsReceived := 0, lastPingSeq := 0, lastPingSentTick := 0
    lastPingRttMs := none
    packetsRx := 0, packetsTx := 0, bytesRx := 0, bytesTx := 0 }

/-- A host: the manager, the card's driver and the clock, with the frames that
`send_packet` has taken so far. -/
structure Host where
  net : NetworkManager
  nic : E1000
  ticks : UInt64
  sent : List (List UInt8)

def Host.sendFrame (host : Host) (destMac : MacAddr) (ethertype : UInt16)
    (payload : List UInt8) : Bool × Host :=
  let frame : EthernetFrame := { header := { destMac, srcMac := host.net.mac, ethertype }, payload }
  let raw := frame.serialize
  let (ok, nic) := host.nic.sendPacket raw
  if ok then
    (true, { host with
      nic
      net := { host.net with
        packetsTx := host.net.packetsTx + 1
        bytesTx := host.net.bytesTx + UInt64.ofNat raw.length }
      sent := host.sent ++ [raw] })
  else (false, { host with nic })

def ipv4Broadcast : Ipv4Addr := Vector.replicate 4 255

def sameSubnet (a b : Ipv4Addr) : Bool :=
  a[0] == b[0] && a[1] == b[1] && a[2] == b[2]

def NetworkManager.targetIpForArp (net : NetworkManager) (destIp : Ipv4Addr) : Ipv4Addr :=
  if destIp = ipv4Broadcast then destIp
  else if sameSubnet destIp net.ip then destIp
  else net.gateway

/-- The hardware address `send_ipv4` sends to; an address not in the table is asked for, and
the packet goes to everyone. -/
def Host.resolve (host : Host) (destIp : Ipv4Addr) : Checked (MacAddr × Host) :=
  if destIp = ipv4Broadcast then pure (broadcastMac, host)
  else
    match host.net.arpTable.lookup (host.net.targetIpForArp destIp) with
    | some mac => pure (mac, host)
    | none => do
        let arpReq ← buildArpRequest host.net.mac host.net.ip (host.net.targetIpForArp destIp)
        pure (broadcastMac, (host.sendFrame broadcastMac ethertypeArp arpReq).2)

def Host.sendIpv4 (host : Host) (destIp : Ipv4Addr) (protocol : UInt8) (payload : List UInt8) :
    Checked (Bool × Host) := do
  let (destMac, host) ← host.resolve destIp
  let packet ← Ipv4Packet.new host.net.ip destIp protocol payload
  pure (host.sendFrame destMac ethertypeIpv4 packet.serialize)

def Host.sendPing (host : Host) (targetIp : Ipv4Addr) : Checked (Bool × Host) := do
  let seq := host.net.lastPingSeq + 1
  let host := { host with
    net := { host.net with
      lastPingSeq := seq
      lastPingSentTick := host.ticks
      lastPingRttMs := none
      pingsSent := host.net.pingsSent + 1 } }
  -- The payload is the text "AuraOS-Ping-Packet-2026".
  let icmpData ← buildEchoRequest 0x1337 seq
    [65, 117, 114, 97, 79, 83, 45, 80, 105, 110, 103, 45, 80, 97, 99, 107, 101, 116, 45, 50, 48, 50,
      54]
  host.sendIpv4 targetIp ipv4ProtoIcmp icmpData

def Host.handleArp (host : Host) (payload : List UInt8) : Checked Host := do
  match ← ArpPacket.parse payload with
  | none => pure host
  | some arp =>
    let host := { host with
      net := { host.net with
        arpTable := host.net.arpTable.insert arp.senderIp arp.senderMac host.ticks } }
    if arp.oper = arpOpRequest ∧ arp.targetIp = host.net.ip then do
      let reply ← buildArpReply host.net.mac host.net.ip arp.senderMac arp.senderIp
      pure (host.sendFrame arp.senderMac ethertypeArp reply).2
    else pure host

def saturatingSub (a b : UInt64) : UInt64 := if b ≤ a then a - b else 0

def Host.handleIcmp (host : Host) (ipHdr : Ipv4Header) (payload : List UInt8) : Checked Host := do
  match ← IcmpPacket.parse payload with
  | none => pure host
  | some icmp =>
    if icmp.header.msgType = icmpTypeEchoRequest then do
      let reply ← buildEchoReply icmp.header.identifier icmp.header.sequenceNumber icmp.payload
      let (_, host) ← host.sendIpv4 ipHdr.sourceIp ipv4ProtoIcmp reply
      pure host
    else if icmp.header.msgType = icmpTypeEchoReply then
      pure { host with
        net := { host.net with
          pingsReceived := host.net.pingsReceived + 1
          lastPingRttMs := some (saturatingSub host.ticks host.net.lastPingSentTick * 10) } }
    else pure host

def Host.handleUdp (host : Host) (payload : List UInt8) : Checked Host := do
  let _ ← UdpPacket.parse payload
  pure host

def Host.handleIpv4 (host : Host) (payload : List UInt8) : Checked Host := do
  match ← Ipv4Packet.parse payload with
  | none => pure host
  | some packet =>
    if packet.header.protocol = ipv4ProtoIcmp then host.handleIcmp packet.header packet.payload
    else if packet.header.protocol = ipv4ProtoUdp then host.handleUdp packet.payload
    else pure host

/-- What `poll` does with the bytes of a packet. -/
def Host.process (host : Host) (raw : List UInt8) : Checked Host := do
  let host := { host with
    net := { host.net with
      packetsRx := host.net.packetsRx + 1
      bytesRx := host.net.bytesRx + UInt64.ofNat raw.length } }
  match ← EthernetFrame.parse raw with
  | none => pure host
  | some frame =>
    if frame.header.ethertype = ethertypeArp then host.handleArp frame.payload
    else if frame.header.ethertype = ethertypeIpv4 then host.handleIpv4 frame.payload
    else pure host

def Host.poll (host : Host) : Checked Host := do
  let (packet, nic) ← host.nic.receivePacket
  match packet with
  | none => pure { host with nic }
  | some raw => Host.process { host with nic } raw

end AuraOS.Net
