import AuraOS.NetworkPackets

namespace AuraOS.Net

open AuraOS.CheckedBytes AuraOS.OnesComplement

variable {data front back : List UInt8}

theorem addWords_eq {sum : Nat} (h : sum < 2 ^ 32) :
    addWords sum data = (sum + wordSum data) % 2 ^ 32 := by
  fun_induction addWords sum data with
  | case1 sum high low rest ih =>
    rw [ih (Nat.mod_lt _ (by decide)), Nat.mod_add_mod, fromBeBytes_toNat, wordSum, Nat.add_assoc]
  | case2 sum byte => rfl
  | case3 sum => exact (Nat.mod_eq_of_lt h).symm

theorem addWords_zero (data : List UInt8) : addWords 0 data = wordSum data % 2 ^ 32 := by
  rw [addWords_eq (by decide), Nat.zero_add]

theorem addWords_lt (data : List UInt8) : addWords 0 data < 2 ^ 32 := by
  rw [addWords_zero]
  exact Nat.mod_lt _ (by decide)

theorem calculateChecksum_toNat (data : List UInt8) :
    (calculateChecksum data).toNat = 65535 - foldCarry 2 (wordSum data % 2 ^ 32) := by
  have hlt := foldCarry_two_lt _ (addWords_lt data)
  rw [calculateChecksum, UInt16.toNat_not, UInt16.toNat_ofNat_of_lt' (show _ < 65536 from hlt),
    addWords_zero]
  rfl

theorem wordSum_mod_of_verifies (hshort : data.length < 2 ^ 17) (h : calculateChecksum data = 0) :
    wordSum data % 65535 = 0 := by
  have hsum := wordSum_le data
  have hchecksum := congrArg UInt16.toNat h
  rw [calculateChecksum_toNat, Nat.mod_eq_of_lt (by omega), UInt16.toNat_zero] at hchecksum
  have hmod := foldCarry_mod 2 (wordSum data)
  have hlt := foldCarry_two_lt (wordSum data) (by omega)
  omega

theorem wordSum_toBeBytes (word : UInt16) : wordSum (toBeBytes word) = word.toNat := by
  simp only [toBeBytes, wordSum, highByte_toNat, lowByte_toNat]
  omega

section Stored

variable (heven : front.length % 2 = 0)
include heven

theorem wordSum_stored (word : UInt16) : wordSum (front ++ toBeBytes word ++ back) =
    wordSum front + wordSum back + word.toNat := by
  rw [wordSum_append back (by simp; omega), wordSum_append _ heven, wordSum_toBeBytes]
  omega

/-- Even a sum that wraps leaves room for the complement of its folded value, so this needs
no bound on the length of the data. -/
theorem calculateChecksum_stored :
    calculateChecksum (front ++ toBeBytes (calculateChecksum (front ++ toBeBytes 0 ++ back)) ++
      back) = 0 := by
  have hchecksum := calculateChecksum_toNat (front ++ toBeBytes 0 ++ back)
  rw [wordSum_stored heven, UInt16.toNat_zero, Nat.add_zero] at hchecksum
  obtain ⟨hlt, hfold⟩ := foldCarry_add_complement
    (Nat.mod_lt (wordSum front + wordSum back) (show 0 < 2 ^ 32 by decide))
  refine UInt16.toNat_inj.mp ?_
  rw [calculateChecksum_toNat, wordSum_stored heven, hchecksum, ← Nat.mod_add_mod,
    Nat.mod_eq_of_lt hlt, hfold]
  rfl

theorem calculateChecksum_all_ones (hshort : front.length + back.length + 2 < 2 ^ 17)
    (hzero : calculateChecksum (front ++ toBeBytes 0 ++ back) = 0) :
    calculateChecksum (front ++ toBeBytes 0xFFFF ++ back) = 0 := by
  have hfront := wordSum_le front
  have hback := wordSum_le back
  have hones : (0xFFFF : UInt16).toNat = 65535 := rfl
  have hsum := congrArg UInt16.toNat hzero
  rw [calculateChecksum_toNat, wordSum_stored heven, UInt16.toNat_zero, Nat.add_zero,
    Nat.mod_eq_of_lt (by omega)] at hsum
  have hmod := foldCarry_mod 2 (wordSum front + wordSum back)
  have hlt := foldCarry_two_lt (wordSum front + wordSum back) (by omega)
  have hmod' := foldCarry_mod 2 (wordSum front + wordSum back + 65535)
  have hpos' := foldCarry_pos 2 (wordSum front + wordSum back + 65535) (by omega)
  refine UInt16.toNat_inj.mp ?_
  rw [calculateChecksum_toNat, wordSum_stored heven, hones, Nat.mod_eq_of_lt (by omega),
    UInt16.toNat_zero]
  omega

/-- One changed word is noticed, except for zero in the place of all ones or the reverse. -/
theorem changed_word_noticed {v w : UInt16} (hshort : front.length + back.length + 2 < 2 ^ 17)
    (hchanged : v.toNat % 65535 ≠ w.toNat % 65535)
    (hverifies : calculateChecksum (front ++ toBeBytes v ++ back) = 0) :
    calculateChecksum (front ++ toBeBytes w ++ back) ≠ 0 := by
  intro hverifies'
  have hsum := wordSum_mod_of_verifies (by simp; omega) hverifies
  have hsum' := wordSum_mod_of_verifies (by simp; omega) hverifies'
  rw [wordSum_stored heven] at hsum hsum'
  omega

end Stored

theorem changed_word_noticed_small :
    calculateChecksum ([] ++ toBeBytes 2 ++ [0xFF, 0xFE]) ≠ 0 :=
  changed_word_noticed (v := 1) rfl (by decide) (by decide) (by decide)

theorem Ipv4Header.checksum_summed {header : Ipv4Header} (hchecksum : header.checksum = 0) :
    calculateChecksum header.summed.bytes = 0 := by
  obtain ⟨front, back, heven, hbytes⟩ : ∃ front back : List UInt8, front.length % 2 = 0 ∧
      ∀ word, { header with checksum := word }.bytes = front ++ toBeBytes word ++ back :=
    ⟨[header.versionIhl] ++ [header.tos] ++ toBeBytes header.totalLength ++
      toBeBytes header.identification ++ toBeBytes header.flagsFragment ++ [header.ttl] ++
      [header.protocol], header.sourceIp.toList ++ header.destIp.toList, by simp,
      fun word => by simp [Ipv4Header.bytes]⟩
  have hself : header.bytes = front ++ toBeBytes 0 ++ back := by
    rw [← hbytes, ← hchecksum]
  rw [Ipv4Header.summed, hbytes, hself]
  exact calculateChecksum_stored heven

theorem IcmpPacket.checksum_summedHeader (packet : IcmpPacket) :
    calculateChecksum (packet.summedHeader.bytes ++ packet.payload) = 0 := by
  have hbytes : ∀ word : UInt16, { packet.header with checksum := word }.bytes ++ packet.payload =
      [packet.header.msgType, packet.header.code] ++ toBeBytes word ++
        (toBeBytes packet.header.identifier ++ toBeBytes packet.header.sequenceNumber ++
          packet.payload) := by
    simp [IcmpHeader.bytes]
  rw [IcmpPacket.summedHeader, hbytes, hbytes]
  exact calculateChecksum_stored (by simp)

def UdpPacket.Verifies (srcIp destIp : Ipv4Addr) (packet : UdpPacket) : Prop :=
  calculateChecksum (srcIp.toList ++ destIp.toList ++ [0, ipv4ProtoUdp] ++
    toBeBytes (UInt16.ofNat packet.serialize.length) ++ packet.serialize) = 0

theorem UdpPacket.new_checksum (srcIp destIp : Ipv4Addr) (srcPort destPort : UInt16)
    {payload : List UInt8} (h : payload.length ≤ 65527) :
    (UdpPacket.new srcIp destIp srcPort destPort payload).Verifies srcIp destIp ∧
      (UdpPacket.new srcIp destIp srcPort destPort payload).header.checksum ≠ 0 := by
  generalize hlength : UInt16.ofNat (udpHeaderLen + payload.length) = length
  obtain ⟨front, hfront, hnew⟩ : ∃ front : List UInt8,
      front = srcIp.toList ++ destIp.toList ++ [0, ipv4ProtoUdp] ++ toBeBytes length ++
        toBeBytes srcPort ++ toBeBytes destPort ++ toBeBytes length ∧
      UdpPacket.new srcIp destIp srcPort destPort payload =
        ⟨⟨srcPort, destPort, length,
          if calculateChecksum (front ++ toBeBytes 0 ++ payload) = 0 then 0xFFFF
          else calculateChecksum (front ++ toBeBytes 0 ++ payload)⟩, payload⟩ :=
    ⟨_, rfl, by rw [← hlength]; rfl⟩
  have hbytes : ∀ checksum, srcIp.toList ++ destIp.toList ++ [0, ipv4ProtoUdp] ++
      toBeBytes (UInt16.ofNat
        (UdpPacket.serialize ⟨⟨srcPort, destPort, length, checksum⟩, payload⟩).length) ++
      UdpPacket.serialize ⟨⟨srcPort, destPort, length, checksum⟩, payload⟩ =
        front ++ toBeBytes checksum ++ payload := by
    intro checksum
    rw [UdpPacket.serialize, List.length_append, UdpHeader.length_bytes,
      show UInt16.ofNat (8 + payload.length) = length from hlength, hfront]
    simp [UdpHeader.bytes]
  have hlength : front.length = 18 := by
    simp [hfront]
  rw [hnew, UdpPacket.Verifies, hbytes]
  split
  · rename_i hzero
    exact ⟨calculateChecksum_all_ones (by omega) (by omega) hzero,
      show (0xFFFF : UInt16) ≠ 0 by decide⟩
  · rename_i hne
    exact ⟨calculateChecksum_stored (by omega), hne⟩

/-- The checksum ends its loop over the carries and is the complement of the one's-complement
sum; data with its checksum in place of two zeros verifies, and so does every IPv4 header,
ICMP message and UDP datagram that the stack builds. -/
theorem internet_checksum :
    (∀ data : List UInt8, data.length < 2 ^ 17 →
      foldCarry 2 (addWords 0 data) / 65536 = 0 ∧
        calculateChecksum data = ~~~ UInt16.ofNat (onesSum 0 data)) ∧
    (∀ front back : List UInt8, front.length % 2 = 0 →
      calculateChecksum (front ++ toBeBytes (calculateChecksum (front ++ [0, 0] ++ back)) ++
        back) = 0) ∧
    (∀ sourceIp destIp protocol payload, ∃ packet,
      Ipv4Packet.new sourceIp destIp protocol payload = .ok packet ∧
        calculateChecksum (packet.serialize.take ipv4MinHeaderLen) = 0) ∧
    (∀ packet : IcmpPacket, ∃ message, packet.serialize = .ok message ∧
      calculateChecksum message = 0) ∧
    ∀ srcIp destIp srcPort destPort payload, payload.length ≤ 65527 →
      (UdpPacket.new srcIp destIp srcPort destPort payload).Verifies srcIp destIp ∧
        (UdpPacket.new srcIp destIp srcPort destPort payload).header.checksum ≠ 0 := by
  refine ⟨?_, ?_, ?_, fun packet => ⟨_, packet.serialize_eq, packet.checksum_summedHeader⟩,
    fun srcIp destIp srcPort destPort _ => UdpPacket.new_checksum srcIp destIp srcPort destPort⟩
  · intro data hshort
    have hsum := wordSum_le data
    have hlt := foldCarry_two_lt _ (addWords_lt data)
    refine ⟨by omega, ?_⟩
    rw [calculateChecksum, addWords_zero, Nat.mod_eq_of_lt (by omega),
      foldCarry_eq_onesSum (by omega)]
  · intro front back heven
    exact calculateChecksum_stored heven
  · intro sourceIp destIp protocol payload
    refine ⟨_, Ipv4Packet.new_eq sourceIp destIp protocol payload, ?_⟩
    rw [Ipv4Packet.serialize_eq, List.take_left' (by simp [ipv4MinHeaderLen])]
    exact Ipv4Header.checksum_summed rfl

end AuraOS.Net
