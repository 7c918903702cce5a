import AuraOS.NetworkStack

namespace AuraOS.Net

open AuraOS.CheckedBytes

inductive PingEvent where
  | sendPing (targetIp : Ipv4Addr)
  | icmp (ipHdr : Ipv4Header) (payload : List UInt8)
  | clock (ticks : UInt64)

def Host.pingStep (host : Host) : PingEvent → Checked Host
  | .sendPing targetIp => do
    let (_, host) ← host.sendPing targetIp
    pure host
  | .icmp ipHdr payload => host.handleIcmp ipHdr payload
  | .clock ticks => pure { host with ticks }

def PingEvent.reply : PingEvent → Option IcmpHeader
  | .icmp _ payload =>
    match IcmpPacket.parse payload with
    | .ok (some packet) =>
      if packet.header.msgType = icmpTypeEchoReply then some packet.header else none
    | _ => none
  | _ => none

structure PingRun where
  host : Host
  awaiting : Bool

def PingRun.step (s : PingRun) (event : PingEvent) : Checked PingRun := do
  let host ← s.host.pingStep event
  let credited := host.net.pingsReceived != s.host.net.pingsReceived
  pure ⟨host, match event with
    | .sendPing _ => true
    | _ => s.awaiting && !credited⟩

def PingRun.Always (P : PingRun → PingEvent → PingRun → Prop) : PingRun → List PingEvent → Prop
  | _, [] => True
  | s, event :: rest => ∀ s', s.step event = .ok s' → P s event s' ∧ PingRun.Always P s' rest

def Host.Asked (host : Host) (header : IcmpHeader) : Prop :=
  header.identifier = 0x1337 ∧ header.sequenceNumber = host.net.lastPingSeq

/-- A reply is counted for a request without one, and the round trip time is set by a reply to
the last request only. -/
def Matches (s : PingRun) (event : PingEvent) (s' : PingRun) : Prop :=
  (s'.host.net.pingsReceived ≠ s.host.net.pingsReceived → s.awaiting = true) ∧
    (s.host.net.lastPingRttMs = none → s'.host.net.lastPingRttMs ≠ none →
      ∃ header, event.reply = some header ∧ s.host.Asked header)

def Expected (s : PingRun) (event : PingEvent) : Prop :=
  ∀ header, event.reply = some header → s.awaiting = true ∧ s.host.Asked header

section Steps

def SamePings (net net' : NetworkManager) : Prop :=
  net'.pingsReceived = net.pingsReceived ∧ net'.lastPingRttMs = net.lastPingRttMs

theorem Host.sendFrame_pings (host : Host) (destMac : MacAddr) (ethertype : UInt16)
    (payload : List UInt8) :
    SamePings host.net (host.sendFrame destMac ethertype payload).2.net := by
  simp only [Host.sendFrame]
  split <;> exact ⟨rfl, rfl⟩

theorem Host.sendIpv4_pings {host host' : Host} {destIp : Ipv4Addr} {protocol : UInt8}
    {payload : List UInt8} {ok : Bool}
    (h : host.sendIpv4 destIp protocol payload = .ok (ok, host')) :
    SamePings host.net host'.net := by
  obtain ⟨⟨destMac, host₁⟩, hresolve, hrest⟩ := exists_of_bind_eq_ok h
  obtain ⟨packet, -, hsend⟩ := exists_of_bind_eq_ok hrest
  have hfirst : SamePings host.net host₁.net := by
    rw [Host.resolve] at hresolve
    split at hresolve
    · cases hresolve
      exact ⟨rfl, rfl⟩
    · split at hresolve
      · cases hresolve
        exact ⟨rfl, rfl⟩
      · obtain ⟨arpReq, -, hask⟩ := exists_of_bind_eq_ok hresolve
        cases hask
        exact Host.sendFrame_pings ..
  have hsecond := Host.sendFrame_pings host₁ destMac ethertypeIpv4 packet.serialize
  rw [Except.ok.inj hsend] at hsecond
  exact ⟨hsecond.1.trans hfirst.1, hsecond.2.trans hfirst.2⟩

theorem pingStep_cases {host host' : Host} {event : PingEvent}
    (h : host.pingStep event = .ok host') :
    (∃ header rtt, event.reply = some header ∧
      host'.net.pingsReceived = host.net.pingsReceived + 1 ∧ host'.net.lastPingRttMs = some rtt) ∨
    event.reply = none ∧ host'.net.pingsReceived = host.net.pingsReceived ∧
      (host'.net.lastPingRttMs = none ∨
        (∀ ip, event ≠ .sendPing ip) ∧ host'.net.lastPingRttMs = host.net.lastPingRttMs) := by
  cases event with
  | clock ticks =>
    cases h
    exact .inr ⟨rfl, rfl, .inr ⟨nofun, rfl⟩⟩
  | sendPing targetIp =>
    obtain ⟨⟨ok, _⟩, hsend, hdone⟩ := exists_of_bind_eq_ok h
    cases hdone
    obtain ⟨hcount, hrtt⟩ := Host.sendIpv4_pings hsend
    exact .inr ⟨rfl, hcount, .inl hrtt⟩
  | icmp ipHdr payload =>
    obtain ⟨parsed, hparse, hrest⟩ := exists_of_bind_eq_ok h
    simp only [PingEvent.reply, hparse]
    cases parsed with
    | none =>
      cases hrest
      exact .inr ⟨rfl, rfl, .inr ⟨nofun, rfl⟩⟩
    | some icmp =>
      simp only at hrest ⊢
      split at hrest
      · rename_i hrequest
        obtain ⟨reply, -, hrest⟩ := exists_of_bind_eq_ok hrest
        obtain ⟨⟨ok, _⟩, hsend, hdone⟩ := exists_of_bind_eq_ok hrest
        cases hdone
        obtain ⟨hcount, hrtt⟩ := Host.sendIpv4_pings hsend
        rw [if_neg (by rw [hrequest]; decide)]
        exact .inr ⟨rfl, hcount, .inr ⟨nofun, hrtt⟩⟩
      · split at hrest
        · rename_i hreply
          cases hrest
          exact .inl ⟨icmp.header, _, if_pos hreply, rfl, rfl⟩
        · rename_i hother
          cases hrest
          exact .inr ⟨if_neg hother, rfl, .inr ⟨nofun, rfl⟩⟩

theorem matches_iff_expected {s s' : PingRun} {event : PingEvent}
    (h : s.awaiting = true → s.host.net.lastPingRttMs = none) (hstep : s.step event = .ok s') :
    (Matches s event s' ↔ Expected s event) ∧
      (s'.awaiting = true → s'.host.net.lastPingRttMs = none) := by
  obtain ⟨host', hhost, hs'⟩ := exists_of_bind_eq_ok hstep
  cases hs'
  rcases pingStep_cases hhost with ⟨header, rtt, hreply, hcount, hrtt⟩ | ⟨hreply, hcount, hrtt⟩
  · have hne : host'.net.pingsReceived ≠ s.host.net.pingsReceived := by
      rw [hcount]
      simp
    refine ⟨⟨fun ⟨hfirst, hsecond⟩ => ?_, fun hexpected => ?_⟩, ?_⟩
    · rintro header' hsame
      cases hreply.symm.trans hsame
      obtain ⟨header', hsame, hasked⟩ := hsecond (h (hfirst hne)) (by rw [hrtt]; nofun)
      cases hreply.symm.trans hsame
      exact ⟨hfirst hne, hasked⟩
    · obtain ⟨hawaiting, hasked⟩ := hexpected header hreply
      exact ⟨fun _ => hawaiting, fun _ _ => ⟨header, hreply, hasked⟩⟩
    · cases event <;> simp_all [PingEvent.reply]
  · refine ⟨⟨fun _ header hsome => ?_, fun _ =>
      ⟨fun hne => absurd hcount hne, fun hnone hsome => ?_⟩⟩,
      fun hawaiting => ?_⟩
    · rw [hreply] at hsome
      cases hsome
    · rcases hrtt with hrtt | ⟨-, hrtt⟩
      · exact absurd hrtt hsome
      · exact absurd (hrtt.trans hnone) hsome
    · rcases hrtt with hrtt | ⟨hother, hrtt⟩
      · exact hrtt
      · rw [hrtt]
        refine h ?_
        cases event with
        | sendPing ip => exact absurd rfl (hother ip)
        | _ => exact (Bool.and_eq_true_iff.mp hawaiting).1

end Steps

/-- The replies of a run are matched to the requests if and only if every reply that comes in
is the first one to the last request. -/
theorem ping_replies_matched_iff (host : Host) (events : List PingEvent) :
    PingRun.Always Matches ⟨host, false⟩ events ↔
      PingRun.Always (fun s event _ => Expected s event) ⟨host, false⟩ events := by
  suffices h : ∀ s : PingRun, (s.awaiting = true → s.host.net.lastPingRttMs = none) →
      (s.Always Matches events ↔ s.Always (fun s event _ => Expected s event) events) from
    h ⟨host, false⟩ nofun
  induction events with
  | nil => exact fun _ _ => Iff.rfl
  | cons event rest ih =>
    refine fun s h => forall_congr' fun s' => forall_congr' fun hstep => ?_
    obtain ⟨hiff, h'⟩ := matches_iff_expected h hstep
    exact and_congr hiff (ih s' h')

/-- A reply to no request, of eight zero bytes. -/
theorem forged_reply_counted :
    ¬ PingRun.Always Matches ⟨⟨NetworkManager.new, Drivers.E1000.init, 0, []⟩, false⟩
      [.icmp ⟨0x45, 0, 28, 0, 0, 64, 1, 0, .replicate 4 10, .replicate 4 10⟩
        (List.replicate 8 0)] := by
  intro h
  have hne : (0 : UInt64) + 1 ≠ 0 := by decide
  exact absurd ((h _ rfl).1.1 hne) Bool.false_ne_true

end AuraOS.Net
