import AuraOS.NetworkStack

namespace AuraOS.Net

open AuraOS.CheckedBytes AuraOS.Drivers

variable {data : List UInt8}

theorem EthernetFrame.parse_of_short (h : data.length < ethernetHeaderLen) :
    EthernetFrame.parse data = .ok none :=
  if_pos h

theorem EthernetFrame.parse_of_le (h : ethernetHeaderLen ≤ data.length) :
    ∃ frame, EthernetFrame.parse data = .ok (some frame) ∧
      frame.header.ethertype = wordIn data 12 ∧ frame.payload = data.drop ethernetHeaderLen := by
  have hlength : 14 ≤ data.length := h
  obtain ⟨destMac, hdest⟩ : Returns (arrayAt 6 data 0 6) := returns_arrayAt rfl (by omega)
  obtain ⟨srcMac, hsrc⟩ : Returns (arrayAt 6 data 6 12) := returns_arrayAt rfl (by omega)
  refine ⟨{ header := ⟨destMac, srcMac, wordIn data 12⟩, payload := data.drop 14 }, ?_, rfl, rfl⟩
  rw [EthernetFrame.parse, if_neg (Nat.not_lt.mpr h), hdest, ok_bind, hsrc, ok_bind,
    wordAt_of_lt (by omega), ok_bind, sliceFrom_of_le h, ok_bind]
  rfl

section Received

variable (data : List UInt8)

theorem ArpPacket.returns_parse : Returns (ArpPacket.parse data) := by
  unfold ArpPacket.parse
  split
  · exact returns_pure _
  · rename_i h
    have hlength : 28 ≤ data.length := Nat.le_of_not_lt h
    exact (returns_wordAt (by omega)).bind fun _ => (returns_wordAt (by omega)).bind fun _ =>
      (returns_byteAt (by omega)).bind fun _ => (returns_byteAt (by omega)).bind fun _ =>
      (returns_wordAt (by omega)).bind fun _ =>
      (returns_arrayAt rfl (by omega)).bind fun _ =>
      (returns_arrayAt rfl (by omega)).bind fun _ =>
      (returns_arrayAt rfl (by omega)).bind fun _ =>
      (returns_arrayAt rfl (by omega)).bind fun _ => returns_pure _

theorem IcmpPacket.returns_parse : Returns (IcmpPacket.parse data) := by
  unfold IcmpPacket.parse
  split
  · exact returns_pure _
  · rename_i h
    have hlength : 8 ≤ data.length := Nat.le_of_not_lt h
    exact (returns_byteAt (by omega)).bind fun _ => (returns_byteAt (by omega)).bind fun _ =>
      (returns_wordAt (by omega)).bind fun _ => (returns_wordAt (by omega)).bind fun _ =>
      (returns_wordAt (by omega)).bind fun _ =>
      (returns_sliceFrom hlength).bind fun _ => returns_pure _

theorem UdpPacket.returns_parse : Returns (UdpPacket.parse data) := by
  unfold UdpPacket.parse
  split
  · exact returns_pure _
  · rename_i h
    have hlength : 8 ≤ data.length := Nat.le_of_not_lt h
    refine (returns_wordAt (by omega)).bind fun _ => (returns_wordAt (by omega)).bind fun _ =>
      (returns_wordAt (by omega)).bind fun length => (returns_wordAt (by omega)).bind fun _ => ?_
    split
    · exact returns_pure _
    · rename_i hfield
      have hslice : Returns (slice data udpHeaderLen length.toNat) :=
        returns_slice_iff.mpr ⟨by omega, by omega⟩
      exact hslice.bind fun _ => returns_pure _

def ihl : Nat := headerLength (data.getD 0 0)

def totalLength : Nat := (wordIn data 2).toNat

def HeaderAccepted : Prop :=
  ipv4MinHeaderLen ≤ data.length ∧ ihl data ≤ data.length ∧ ipv4MinHeaderLen ≤ ihl data ∧
    totalLength data ≤ data.length ∧ calculateChecksum (data.take (ihl data)) = 0

instance (data : List UInt8) : Decidable (HeaderAccepted data) :=
  inferInstanceAs (Decidable (_ ∧ _))

def TotalCoversHeader : Prop :=
  HeaderAccepted data → ihl data ≤ totalLength data

end Received

theorem Ipv4Packet.parse_of_not_accepted (h : ¬ HeaderAccepted data) :
    Ipv4Packet.parse data = .ok none := by
  unfold Ipv4Packet.parse
  split
  · rfl
  · rename_i hmin
    have hlength : 20 ≤ data.length := Nat.le_of_not_lt hmin
    rw [byteAt_of_lt (by omega), ok_bind]
    change (if data.length < ihl data ∨ ihl data < ipv4MinHeaderLen then _ else _) = _
    split
    · rfl
    · rename_i hihl
      have hheader : ihl data ≤ data.length ∧ ipv4MinHeaderLen ≤ ihl data := by omega
      rw [wordAt_of_lt (by omega), ok_bind]
      split
      · rfl
      · rename_i htotal
        have hbytes : slice data 0 (headerLength (data.getD 0 0)) = .ok (data.take (ihl data)) :=
          slice_of_le (Nat.zero_le _) hheader.1
        have hsum : calculateChecksum (data.take (ihl data)) ≠ 0 := fun hsum =>
          h ⟨hlength, hheader.1, hheader.2, Nat.le_of_not_lt htotal, hsum⟩
        rw [hbytes, ok_bind, if_pos hsum]
        rfl

theorem Ipv4Packet.parse_of_accepted (h : HeaderAccepted data) :
    ∃ header, Ipv4Packet.parse data =
      slice data (ihl data) (totalLength data) >>= fun payload =>
        pure (some { header, payload }) := by
  obtain ⟨hmin, hlength, hihl, htotal, hsum⟩ := h
  have hlong : 20 ≤ data.length := hmin
  obtain ⟨sourceIp, hsource⟩ : Returns (arrayAt 4 data 12 16) := returns_arrayAt rfl (by omega)
  obtain ⟨destIp, hdest⟩ : Returns (arrayAt 4 data 16 20) := returns_arrayAt rfl (by omega)
  refine ⟨⟨data.getD 0 0, data.getD 1 0, wordIn data 2, wordIn data 4, wordIn data 6,
    data.getD 8 0, data.getD 9 0, wordIn data 10, sourceIp, destIp⟩, ?_⟩
  rw [Ipv4Packet.parse, if_neg (by omega), byteAt_of_lt (by omega), ok_bind]
  change (if data.length < ihl data ∨ ihl data < ipv4MinHeaderLen then _ else _) = _
  rw [if_neg (by omega)]
  rw [wordAt_of_lt (by omega), ok_bind, ← totalLength, if_neg (Nat.not_lt.mpr htotal), ← ihl,
    slice_of_le (Nat.zero_le _) hlength, ok_bind, List.drop_zero, if_neg (not_not.mpr hsum)]
  rw [byteAt_of_lt (by omega), ok_bind, wordAt_of_lt (by omega), ok_bind, wordAt_of_lt (by omega),
    ok_bind, byteAt_of_lt (by omega), ok_bind, byteAt_of_lt (by omega), ok_bind,
    wordAt_of_lt (by omega), ok_bind, hsource, ok_bind, hdest, ok_bind]

theorem Ipv4Packet.returns_parse_iff (data : List UInt8) :
    Returns (Ipv4Packet.parse data) ↔ TotalCoversHeader data := by
  by_cases h : HeaderAccepted data
  · obtain ⟨header, hparse⟩ := Ipv4Packet.parse_of_accepted h
    rw [hparse]
    constructor
    · exact fun hreturns _ => (returns_slice_iff.mp hreturns.of_bind).1
    · intro hcovers
      exact (returns_slice_iff.mpr ⟨hcovers h, h.2.2.2.1⟩).bind fun _ => returns_pure _
  · rw [Ipv4Packet.parse_of_not_accepted h]
    exact ⟨fun _ haccepted => absurd haccepted h, fun _ => returns_ok _⟩

theorem Host.returns_resolve (host : Host) (destIp : Ipv4Addr) : Returns (host.resolve destIp) := by
  unfold Host.resolve
  split
  · exact returns_pure _
  · split
    · exact returns_pure _
    · rw [buildArpRequest, ArpPacket.serialize_eq]
      exact returns_pure _

theorem Host.returns_sendIpv4 (host : Host) (destIp : Ipv4Addr) (protocol : UInt8)
    (payload : List UInt8) : Returns (host.sendIpv4 destIp protocol payload) := by
  refine (host.returns_resolve destIp).bind fun ⟨destMac, host⟩ => ?_
  show Returns (Ipv4Packet.new _ _ _ _ >>= _)
  rw [Ipv4Packet.new_eq]
  exact returns_pure _

theorem Host.returns_handleArp (host : Host) (payload : List UInt8) :
    Returns (host.handleArp payload) := by
  refine (ArpPacket.returns_parse payload).bind fun arp => ?_
  cases arp with
  | none => exact returns_pure _
  | some arp =>
    show Returns (if _ then _ else _)
    split
    · rw [buildArpReply, ArpPacket.serialize_eq]
      exact returns_pure _
    · exact returns_pure _

theorem Host.returns_handleIcmp (host : Host) (ipHdr : Ipv4Header) (payload : List UInt8) :
    Returns (host.handleIcmp ipHdr payload) := by
  refine (IcmpPacket.returns_parse payload).bind fun icmp => ?_
  cases icmp with
  | none => exact returns_pure _
  | some icmp =>
    show Returns (if _ then _ else _)
    split
    · have hreply : Returns (buildEchoReply icmp.header.identifier icmp.header.sequenceNumber
          icmp.payload) := ⟨_, IcmpPacket.serialize_eq _⟩
      exact hreply.bind fun _ => (Host.returns_sendIpv4 ..).bind fun _ => returns_pure _
    · split <;> exact returns_pure _

theorem Host.returns_handleUdp (host : Host) (payload : List UInt8) :
    Returns (host.handleUdp payload) :=
  (UdpPacket.returns_parse payload).bind fun _ => returns_pure _

theorem Host.returns_handleIpv4_iff (host : Host) (payload : List UInt8) :
    Returns (host.handleIpv4 payload) ↔ TotalCoversHeader payload := by
  rw [← Ipv4Packet.returns_parse_iff]
  refine ⟨Returns.of_bind, fun hparse => hparse.bind fun packet => ?_⟩
  cases packet with
  | none => exact returns_pure _
  | some packet =>
    show Returns (if _ then _ else _)
    split
    · exact host.returns_handleIcmp _ _
    · split
      · exact host.returns_handleUdp _
      · exact returns_pure _

/-- A frame with an IPv4 packet that passes the checks of its header carries a total length
that includes the header. -/
def FrameCoversHeader (raw : List UInt8) : Prop :=
  ethernetHeaderLen ≤ raw.length → wordIn raw 12 = ethertypeIpv4 →
    TotalCoversHeader (raw.drop ethernetHeaderLen)

theorem Host.returns_process_iff (host : Host) (raw : List UInt8) :
    Returns (host.process raw) ↔ FrameCoversHeader raw := by
  unfold Host.process
  rcases Nat.lt_or_ge raw.length ethernetHeaderLen with hshort | hlong
  · rw [EthernetFrame.parse_of_short hshort]
    exact ⟨fun _ hle => absurd hle (Nat.not_le.mpr hshort), fun _ => returns_pure _⟩
  · obtain ⟨frame, hparse, htype, hpayload⟩ := EthernetFrame.parse_of_le hlong
    rw [hparse, ok_bind]
    show Returns (if _ then _ else _) ↔ _
    rw [FrameCoversHeader, ← htype, ← hpayload]
    split
    · rename_i harp
      rw [harp]
      exact ⟨fun _ _ hipv4 => absurd hipv4 (by decide), fun _ => Host.returns_handleArp ..⟩
    · split
      · rename_i hipv4
        rw [Host.returns_handleIpv4_iff]
        exact ⟨fun h _ _ => h, fun h => h hlong hipv4⟩
      · rename_i hother
        exact ⟨fun _ _ hipv4 => absurd hipv4 hother, fun _ => returns_pure _⟩

/-- A packet that the card delivers is processed without an access out of range exactly if an
accepted IPv4 header in it is included in its total length. -/
theorem poll_returns_iff {host : Host} {raw : List UInt8} {nic : E1000}
    (hreceive : host.nic.receivePacket = .ok (some raw, nic)) :
    Returns host.poll ↔ FrameCoversHeader raw := by
  rw [Host.poll, hreceive, ok_bind]
  exact Host.returns_process_iff { host with nic } raw

def Host.withPacket (packet : Packet) : Host :=
  { net := NetworkManager.new, nic := (E1000.init.accept packet).2, ticks := 0, sent := [] }

theorem withPacket_receives (packet : Packet) :
    ∃ nic, (Host.withPacket packet).nic.receivePacket = .ok (some packet.val, nic) := by
  obtain ⟨m, hstep, hordered⟩ := ordered_reception_boot.arrive packet
  obtain rfl : _ = m := Except.ok.inj hstep
  obtain ⟨nic, hreceive, -⟩ := hordered.inOrder.next
  exact ⟨nic, hreceive⟩

def ipv4Frame (data : List UInt8) : List UInt8 :=
  List.replicate 6 0xFF ++ List.replicate 6 0 ++ toBeBytes ethertypeIpv4 ++ data

def emptyTotal : Packet :=
  ⟨ipv4Frame ([0x45, 0, 0, 0, 0, 0, 0, 0, 64, 1, 0x7A, 0xFE] ++ List.replicate 8 0), by decide⟩

/-- Its 34 bytes stop the kernel. -/
theorem poll_emptyTotal : ¬ Returns (Host.withPacket emptyTotal).poll := by
  decide +kernel

def headerOnly : Packet :=
  ⟨ipv4Frame ([0x45, 0, 0, 20, 0, 0, 0, 0, 64, 2, 0x7A, 0xE9] ++ List.replicate 8 0), by decide⟩

theorem poll_headerOnly : Returns (Host.withPacket headerOnly).poll := by
  obtain ⟨nic, hreceive⟩ := withPacket_receives headerOnly
  refine (poll_returns_iff hreceive).mpr fun _ _ _ => ?_
  decide

end AuraOS.Net
