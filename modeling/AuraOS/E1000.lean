import AuraOS.CheckedBytes
import AuraOS.RingSlots
import AuraOS.GuardedRuns

/-!
The e1000 network card and its driver.  The driver and the card share two rings of
eight descriptors, each with its packet buffer.  The card works from a head register
up to a tail register that the driver moves.
-/

namespace AuraOS.Drivers

open AuraOS.CheckedBytes AuraOS.RingSlots AuraOS.GuardedRuns

abbrev rxDescCount : Nat := 8
abbrev txDescCount : Nat := 8
def packetBufferSize : Nat := 2048

abbrev PacketBuffer := Vector UInt8 packetBufferSize

structure RxDesc where
  length : UInt16
  status : UInt8
deriving DecidableEq

structure TxDesc where
  length : UInt16
  cmd : UInt8
  status : UInt8
deriving DecidableEq

structure RingRegisters where
  rdh : Fin rxDescCount
  rdt : Fin rxDescCount
  tdh : Fin txDescCount
  tdt : Fin txDescCount

/-- The driver's state with the memory it shares with the card.  Descriptor `i` of a
ring names buffer `i` of that ring. -/
structure E1000 where
  isInitialized : Bool
  rxDescs : Vector RxDesc rxDescCount
  rxBuffers : Vector PacketBuffer rxDescCount
  rxCur : Fin rxDescCount
  txDescs : Vector TxDesc txDescCount
  txBuffers : Vector PacketBuffer txDescCount
  txCur : Fin txDescCount
  regs : RingRegisters
  rxPacketsCount : UInt64
  txPacketsCount : UInt64
  rxBytesCount : UInt64
  txBytesCount : UInt64

/-- The rings as `init` leaves them. -/
def E1000.init : E1000 :=
  { isInitialized := true
    rxDescs := Vector.replicate rxDescCount { length := 0, status := 0 }
    rxBuffers := Vector.replicate rxDescCount (Vector.replicate packetBufferSize 0)
    rxCur := 0
    txDescs := Vector.replicate txDescCount { length := 0, cmd := 0, status := 1 }
    txBuffers := Vector.replicate txDescCount (Vector.replicate packetBufferSize 0)
    txCur := 0
    regs := { rdh := 0, rdt := Fin.ofNat rxDescCount (rxDescCount - 1), tdh := 0, tdt := 0 }
    rxPacketsCount := 0, txPacketsCount := 0, rxBytesCount := 0, txBytesCount := 0 }

/-- `send_packet` takes the packet. -/
def E1000.Accepts (nic : E1000) (packet : List UInt8) : Prop :=
  nic.isInitialized = true ∧ packet ≠ [] ∧ packet.length ≤ packetBufferSize

instance (nic : E1000) (packet : List UInt8) : Decidable (nic.Accepts packet) :=
  inferInstanceAs (Decidable (_ ∧ _ ∧ _))

def E1000.sendPacket (nic : E1000) (packet : List UInt8) : Bool × E1000 :=
  if h : nic.Accepts packet then
    let cur := nic.txCur
    (true, { nic with
      txBuffers := nic.txBuffers.set cur (overwriteFront nic.txBuffers[cur] packet h.2.2)
      txDescs := nic.txDescs.set cur
        { length := UInt16.ofNat packet.length
          cmd := (1 : UInt8) <<< 0 ||| (1 : UInt8) <<< 1 ||| (1 : UInt8) <<< 3
          status := 0 }
      txCur := cur + 1
      regs := { nic.regs with tdt := cur + 1 }
      txPacketsCount := nic.txPacketsCount + 1
      txBytesCount := nic.txBytesCount + UInt64.ofNat packet.length })
  else (false, nic)

def E1000.receivePacket (nic : E1000) : Checked (Option (List UInt8) × E1000) :=
  if nic.isInitialized = false then pure (none, nic)
  else
    let cur := nic.rxCur
    let desc := nic.rxDescs[cur]
    if desc.status &&& 1 = 0 then pure (none, nic)
    else do
      let len := desc.length.toNat
      let packet ← slice nic.rxBuffers[cur].toList 0 len
      pure (some packet, { nic with
        rxDescs := nic.rxDescs.set cur { desc with status := 0 }
        rxCur := cur + 1
        regs := { nic.regs with rdt := cur }
        rxPacketsCount := nic.rxPacketsCount + 1
        rxBytesCount := nic.rxBytesCount + UInt64.ofNat len })

abbrev Packet := { bytes : List UInt8 // bytes.length ≤ packetBufferSize }

def E1000.txContent (nic : E1000) (i : Fin txDescCount) : List UInt8 :=
  nic.txBuffers[i].toList.take nic.txDescs[i].length.toNat

def E1000.rxContent (nic : E1000) (i : Fin rxDescCount) : List UInt8 :=
  nic.rxBuffers[i].toList.take nic.rxDescs[i].length.toNat

def E1000.rxDone (nic : E1000) (i : Fin rxDescCount) : Bool :=
  nic.rxDescs[i].status &&& 1 ≠ 0

def E1000.transmitNext (nic : E1000) : Option (List UInt8) × E1000 :=
  let head := nic.regs.tdh
  if head = nic.regs.tdt then (none, nic)
  else
    (some (nic.txContent head), { nic with
      txDescs := nic.txDescs.set head
        { nic.txDescs[head] with status := nic.txDescs[head].status ||| 1 }
      regs := { nic.regs with tdh := head + 1 } })

def E1000.accept (nic : E1000) (packet : Packet) : Bool × E1000 :=
  let head := nic.regs.rdh
  if head = nic.regs.rdt then (false, nic)
  else
    (true, { nic with
      rxBuffers := nic.rxBuffers.set head
        (overwriteFront nic.rxBuffers[head] packet.val packet.property)
      rxDescs := nic.rxDescs.set head
        { length := UInt16.ofNat packet.val.length
          status := nic.rxDescs[head].status ||| 1 }
      regs := { nic.regs with rdh := head + 1 } })

/-!
The receive ring of the network card.  The card writes a packet into the descriptor at
its head and sets the descriptor-done bit; the driver takes the packet, clears the bit
and gives the descriptor back by moving the tail onto it.  The tail stays one
descriptor behind the driver, so the card never writes over a packet that is pending.
-/

variable {nic : E1000}

/-- The card and its driver, with the packets the card has accepted and the packets
`receive_packet` has returned. -/
structure Reception where
  nic : E1000
  accepted : List (List UInt8)
  received : List (List UInt8)

def Reception.boot : Reception :=
  { nic := E1000.init, accepted := [], received := [] }

inductive RxEvent where
  | arrive (packet : Packet)
  | receive

def Reception.step (m : Reception) : RxEvent → Checked Reception
  | .arrive packet =>
    let (ok, nic) := m.nic.accept packet
    pure { m with nic, accepted := if ok then m.accepted ++ [packet.val] else m.accepted }
  | .receive => do
      let (packet, nic) ← m.nic.receivePacket
      pure { m with nic, received := m.received ++ packet.toList }

def Reception.after (m : Reception) (events : List RxEvent) : Checked Reception :=
  events.foldlM Reception.step m

/-- The descriptors the card may write: from its head up to but excluding the tail. -/
def E1000.CardOwns (nic : E1000) (i : Fin rxDescCount) : Prop :=
  (i - nic.regs.rdh).val < (nic.regs.rdt - nic.regs.rdh).val

def E1000.RxFits (nic : E1000) (i : Fin rxDescCount) : Prop :=
  nic.rxDescs[i].length.toNat ≤ packetBufferSize

/-- The descriptor whose packet the next call of `receive_packet` takes. -/
def E1000.taken (nic : E1000) : Option (Fin rxDescCount) :=
  if nic.isInitialized = true ∧ nic.rxDone nic.rxCur = true then some nic.rxCur else none

/-- What the receive path keeps: the packets returned are the first of those accepted, the
next call returns the next of them, and it reads and resets no descriptor of the card. -/
structure Reception.InOrder (m : Reception) : Prop where
  returned : m.received <+: m.accepted
  next : ∃ nic, m.nic.receivePacket = .ok (m.accepted[m.received.length]?, nic) ∧
    ∀ i, m.nic.taken ≠ some i → nic.rxDescs[i] = m.nic.rxDescs[i]
  owned : ∀ i, m.nic.taken = some i → ¬ m.nic.CardOwns i

theorem done_or_one (status : UInt8) : (status ||| 1) &&& 1 ≠ 0 := by
  have hand : (status ||| 1) &&& 1 = 1 := by
    refine UInt8.toBitVec_inj.mp (BitVec.eq_of_getElem_eq fun i hi => ?_)
    cases hbit : (1#8)[i] <;> simp [hbit]
  rw [hand]
  decide

theorem accept_of_ne (packet : Packet) (h : nic.regs.rdh ≠ nic.regs.rdt) :
    (nic.accept packet).1 = true ∧
      (nic.accept packet).2.isInitialized = nic.isInitialized ∧
      (nic.accept packet).2.rxCur = nic.rxCur ∧
      (nic.accept packet).2.regs = { nic.regs with rdh := nic.regs.rdh + 1 } ∧
      (nic.accept packet).2.rxContent nic.regs.rdh = packet.val ∧
      (nic.accept packet).2.rxDone nic.regs.rdh = true ∧
      (nic.accept packet).2.RxFits nic.regs.rdh ∧
      ∀ i, i ≠ nic.regs.rdh →
        (nic.accept packet).2.rxContent i = nic.rxContent i ∧
          (nic.accept packet).2.rxDescs[i] = nic.rxDescs[i] := by
  have hlength : (UInt16.ofNat packet.val.length).toNat = packet.val.length :=
    UInt16.toNat_ofNat_of_lt' (Nat.lt_of_le_of_lt packet.property (by decide))
  simp only [E1000.accept, if_neg h, true_and]
  refine ⟨?_, ?_, ?_, ?_⟩
  · simp [E1000.rxContent, hlength]
  · simpa [E1000.rxDone] using done_or_one _
  · simpa [E1000.RxFits, hlength] using packet.property
  · intro i hi
    have hne : nic.regs.rdh.val ≠ i.val := fun heq => hi (Fin.ext heq.symm)
    simp [E1000.rxContent, Vector.getElem_set_ne _ _ hne]

theorem accept_of_eq (packet : Packet) (h : nic.regs.rdh = nic.regs.rdt) :
    nic.accept packet = (false, nic) :=
  if_pos h

theorem receivePacket_of_not_done (h : nic.rxDone nic.rxCur = false) :
    nic.receivePacket = .ok (none, nic) := by
  have hstatus : nic.rxDescs[nic.rxCur].status &&& 1 = 0 := by
    simpa [E1000.rxDone] using h
  simp only [E1000.receivePacket, hstatus]
  split <;> rfl

theorem receivePacket_of_done (hinit : nic.isInitialized = true) (h : nic.rxDone nic.rxCur = true)
    (hfits : nic.RxFits nic.rxCur) :
    ∃ nic', nic.receivePacket = .ok (some (nic.rxContent nic.rxCur), nic') ∧
      nic'.isInitialized = true ∧ nic'.rxCur = nic.rxCur + 1 ∧
      nic'.regs = { nic.regs with rdt := nic.rxCur } ∧
      nic'.rxDone nic.rxCur = false ∧
      nic'.rxContent = nic.rxContent ∧
      (∀ i : Fin rxDescCount, nic'.rxDescs[i].length = nic.rxDescs[i].length) ∧
      ∀ i, i ≠ nic.rxCur → nic'.rxDescs[i] = nic.rxDescs[i] := by
  have hstatus : nic.rxDescs[nic.rxCur].status &&& 1 ≠ 0 := by
    simpa [E1000.rxDone] using h
  have hslice : slice nic.rxBuffers[nic.rxCur].toList 0 nic.rxDescs[nic.rxCur].length.toNat =
      .ok (nic.rxContent nic.rxCur) :=
    slice_of_le (Nat.zero_le _) (by simpa [E1000.RxFits] using hfits)
  have hlengths : ∀ i : Fin rxDescCount,
      (nic.rxDescs.set nic.rxCur { nic.rxDescs[nic.rxCur] with status := 0 })[i].length =
        nic.rxDescs[i].length := by
    intro i
    by_cases hi : nic.rxCur.val = i.val
    · obtain rfl : nic.rxCur = i := Fin.ext hi
      simp
    · simp [Vector.getElem_set_ne _ _ hi]
  simp only [E1000.receivePacket, hinit, Bool.true_eq_false, if_false, if_neg hstatus, hslice,
    ok_bind]
  refine ⟨_, rfl, rfl, rfl, rfl, ?_, ?_, hlengths, ?_⟩
  · simp [E1000.rxDone]
  · funext i
    simp only [E1000.rxContent, hlengths]
  · intro i hi
    have hne : nic.rxCur.val ≠ i.val := fun heq => hi (Fin.ext heq.symm)
    simp [Vector.getElem_set_ne _ _ hne]

/-- The driver and the card's head count the packets received and accepted, and the tail is
one descriptor behind the driver.  Of the next eight descriptors, exactly those of pending
packets are done. -/
structure Reception.Ordered (m : Reception) : Prop where
  initialized : m.nic.isInitialized = true
  returned : m.received = m.accepted.take m.received.length
  le : m.received.length ≤ m.accepted.length
  turn : m.accepted.length < m.received.length + rxDescCount
  cur : m.nic.rxCur = slot rxDescCount m.received.length
  head : m.nic.regs.rdh = slot rxDescCount m.accepted.length
  tail : m.nic.regs.rdt = slot rxDescCount (m.received.length + (rxDescCount - 1))
  holds : Holds m.nic.rxContent m.accepted m.received.length
  done : ∀ i, m.received.length ≤ i → i < m.received.length + rxDescCount →
    m.nic.rxDone (slot rxDescCount i) = decide (i < m.accepted.length)
  fits : ∀ i, m.nic.RxFits i

theorem ordered_reception_boot : Reception.boot.Ordered where
  initialized := rfl
  returned := rfl
  le := le_rfl
  turn := by decide
  cur := rfl
  head := rfl
  tail := rfl
  holds := Holds.nil
  done := by
    intro i _ _
    simp [Reception.boot, E1000.init, E1000.rxDone]
  fits := by
    intro i
    simp [Reception.boot, E1000.init, E1000.RxFits]

namespace Reception.Ordered

variable {m : Reception}

variable (h : m.Ordered)
include h

theorem done_cur : m.nic.rxDone m.nic.rxCur = decide (m.received.length < m.accepted.length) := by
  rw [h.cur]
  exact h.done _ le_rfl (by simp)

theorem full_iff :
    m.nic.regs.rdh = m.nic.regs.rdt ↔
      m.accepted.length = m.received.length + (rxDescCount - 1) := by
  have hle := h.le
  have hturn := h.turn
  rw [h.head, h.tail]
  exact slot_eq_iff_of_le (by omega) (by omega)

theorem taken_eq :
    m.nic.taken = if m.received.length < m.accepted.length then some m.nic.rxCur else none := by
  simp [E1000.taken, h.initialized, h.done_cur]

/-- The card's descriptors start behind the last pending packet and end before the driver. -/
theorem not_cardOwns_cur (hpending : m.received.length < m.accepted.length) :
    ¬ m.nic.CardOwns m.nic.rxCur := by
  have hturn := h.turn
  have hcur : m.nic.rxCur - m.nic.regs.rdh =
      slot rxDescCount (m.received.length + rxDescCount - m.accepted.length) := by
    rw [h.cur, h.head, sub_eq_iff_eq_add', slot_add, slot_eq_iff]
    grind
  have htail : m.nic.regs.rdt - m.nic.regs.rdh =
      slot rxDescCount (m.received.length + (rxDescCount - 1) - m.accepted.length) := by
    rw [h.tail, h.head, sub_eq_iff_eq_add', slot_add, slot_eq_iff]
    grind
  rw [E1000.CardOwns, hcur, htail]
  simp only [slot, Fin.ofNat, rxDescCount] at *
  omega

theorem inOrder : m.InOrder where
  returned := h.returned ▸ List.take_prefix _ _
  next := by
    by_cases hpending : m.received.length < m.accepted.length
    · have hdone := h.done_cur.trans (decide_eq_true hpending)
      obtain ⟨nic, hreceive, -, -, -, -, -, -, hold⟩ :=
        receivePacket_of_done h.initialized hdone (h.fits _)
      have hcontent : m.nic.rxContent m.nic.rxCur = m.accepted[m.received.length] := by
        rw [h.cur]
        exact h.holds _ le_rfl hpending
      refine ⟨nic, by rw [hreceive, hcontent, List.getElem?_eq_getElem hpending], fun i hi => ?_⟩
      rw [h.taken_eq, if_pos hpending] at hi
      exact hold i fun heq => hi (congrArg some heq.symm)
    · have hdone := h.done_cur.trans (decide_eq_false hpending)
      refine ⟨m.nic, ?_, fun _ _ => rfl⟩
      rw [receivePacket_of_not_done hdone, List.getElem?_eq_none (Nat.le_of_not_lt hpending)]
  owned := by
    intro i hi
    rw [h.taken_eq] at hi
    split at hi
    · rename_i hpending
      cases hi
      exact h.not_cardOwns_cur hpending
    · cases hi

theorem arrive (packet : Packet) : ∃ m', m.step (.arrive packet) = .ok m' ∧ m'.Ordered := by
  by_cases hfull : m.nic.regs.rdh = m.nic.regs.rdt
  · refine ⟨m, ?_, h⟩
    simp [Reception.step, accept_of_eq packet hfull, pure, Except.pure]
  · obtain ⟨htrue, hinit, hcur, hregs, hnew, hdone, hfits, hold⟩ := accept_of_ne packet hfull
    refine ⟨{ m with
      nic := (m.nic.accept packet).2
      accepted := m.accepted ++ [packet.val] }, ?_, ?_⟩
    · simp only [Reception.step, htrue, if_true]
      rfl
    have hle := h.le
    have hturn := h.turn
    have hroom := mt h.full_iff.mpr hfull
    rw [h.head] at hnew hdone hfits hold
    constructor
    · exact hinit.trans h.initialized
    · show m.received = _
      rw [List.take_append_of_le_length hle]
      exact h.returned
    · grind
    · grind
    · exact hcur.trans h.cur
    · simp [hregs, h.head]
    · simp [hregs, h.tail]
    · exact h.holds.concat hturn hnew fun i hi => (hold i hi).1
    · intro i (hfirst : m.received.length ≤ i) (hi : i < m.received.length + rxDescCount)
      rw [List.length_append, List.length_singleton]
      by_cases hlast : i = m.accepted.length
      · subst hlast
        simpa using hdone
      · have hne : slot rxDescCount i ≠ slot rxDescCount m.accepted.length := by
          rcases Nat.lt_or_gt_of_ne hlast with hlt | hgt
          · exact slot_ne hlt (by omega)
          · exact (slot_ne hgt (by omega)).symm
        have hsame := (hold _ hne).2
        rw [E1000.rxDone] at *
        rw [hsame]
        exact (h.done i hfirst hi).trans (decide_eq_decide.mpr (by omega))
    · intro i
      by_cases hi : i = slot rxDescCount m.accepted.length
      · rwa [hi]
      · rw [E1000.RxFits, (hold i hi).2]
        exact h.fits i

theorem receive : ∃ m', m.step .receive = .ok m' ∧ m'.Ordered := by
  have hturn := h.turn
  by_cases hpending : m.received.length < m.accepted.length
  · have hdone := h.done_cur.trans (decide_eq_true hpending)
    obtain ⟨nic, hreceive, hinit, hcur, hregs, hclear, hcontent, hlengths, hold⟩ :=
      receivePacket_of_done h.initialized hdone (h.fits _)
    have hnext : m.nic.rxContent m.nic.rxCur = m.accepted[m.received.length] := by
      rw [h.cur]
      exact h.holds _ le_rfl hpending
    refine ⟨{ m with nic, received := m.received ++ [m.accepted[m.received.length]] }, ?_, ?_⟩
    · simp only [Reception.step, hreceive, ok_bind, hnext, Option.toList_some]
      rfl
    · constructor
      · exact hinit
      · show m.received ++ [m.accepted[m.received.length]] = _
        rw [List.length_append, List.length_singleton,
          List.take_succ_eq_append_getElem hpending, ← h.returned]
      · rw [List.length_append, List.length_singleton]
        exact hpending
      · grind
      · simp [hcur, h.cur]
      · simp [hregs, h.head]
      · -- the tail is moved onto the descriptor just taken
        rw [hregs, h.cur, List.length_append, List.length_singleton, slot_eq_iff]
        exact (Nat.add_mod_right _ _).symm
      · rw [hcontent]
        exact h.holds.of_le (by simp)
      · intro i hfirst hi
        rw [List.length_append, List.length_singleton] at hfirst hi
        show _ = decide (i < m.accepted.length)
        by_cases hlast : i = m.received.length + rxDescCount
        · have hsame : slot rxDescCount i = m.nic.rxCur := by
            rw [h.cur, slot_eq_iff, hlast, Nat.add_mod_right]
          rw [hsame, hclear]
          exact (decide_eq_false (by omega)).symm
        · have hne : slot rxDescCount i ≠ m.nic.rxCur := by
            rw [h.cur]
            exact (slot_ne (by omega) (by omega)).symm
          rw [E1000.rxDone, hold _ hne]
          exact h.done i (by omega) (by omega)
      · intro i
        rw [E1000.RxFits, hlengths]
        exact h.fits i
  · have hdone := h.done_cur.trans (decide_eq_false hpending)
    refine ⟨m, ?_, h⟩
    simp [Reception.step, receivePacket_of_not_done hdone, pure, Except.pure]

theorem step (event : RxEvent) : ∃ m', m.step event = .ok m' ∧ m'.Ordered :=
  match event with
  | .arrive packet => h.arrive packet
  | .receive => h.receive

end Reception.Ordered

/-- Every interleaving of arriving packets and calls of `receive_packet` runs, and in the
state it reaches the packets have been received in order and the next call takes the next
pending packet, from a descriptor that the card has given up. -/
theorem received_in_order (events : List RxEvent) :
    ∃ m, Reception.boot.after events = .ok m ∧ m.InOrder := by
  obtain ⟨m, hrun, hordered⟩ :=
    foldlM_returns (fun _ event h => h.step event) events ordered_reception_boot
  exact ⟨m, hrun, hordered.inOrder⟩

/-!
The transmit ring of the network card.  The driver does not look at the card's head
before it moves the tail.  As long as a call leaves one descriptor free, the card
transmits the packets of the successful calls, in order; the call that makes the
tail meet the head hides everything outstanding from the card.
-/

variable {packet : List UInt8} {m : Transmission}

/-- The card and its driver, with the packets of the calls that returned true and the
packets the card has transmitted. -/
structure Transmission where
  nic : E1000
  accepted : List (List UInt8)
  transmitted : List (List UInt8)

def Transmission.boot : Transmission :=
  { nic := E1000.init, accepted := [], transmitted := [] }

inductive TxEvent where
  | send (packet : List UInt8)
  | transmit

section Transmissions

variable (m : Transmission)

def Transmission.step : TxEvent → Transmission
  | .send packet =>
    let (ok, nic) := m.nic.sendPacket packet
    { m with nic, accepted := if ok then m.accepted ++ [packet] else m.accepted }
  | .transmit =>
    let (packet, nic) := m.nic.transmitNext
    { m with nic, transmitted := m.transmitted ++ packet.toList }

def Transmission.after (events : List TxEvent) : Transmission :=
  events.foldl Transmission.step m

def Transmission.drain : Transmission :=
  m.after (List.replicate txDescCount .transmit)

/-- Once the card has worked off the ring, it has transmitted each packet of a successful
call once, with its bytes and in the order of the calls. -/
def Transmission.LosesNothing : Prop :=
  m.drain.transmitted = m.accepted

def Transmission.LeavesRoom : TxEvent → Prop
  | .send packet => m.nic.Accepts packet → m.nic.txCur + 1 ≠ m.nic.regs.tdh
  | .transmit => True

def Transmission.outstanding : List (List UInt8) :=
  between m.nic.txContent m.nic.regs.tdh m.nic.regs.tdt

theorem sendPacket_of_accepts (h : nic.Accepts packet) :
    (nic.sendPacket packet).1 = true ∧
      (nic.sendPacket packet).2.txCur = nic.txCur + 1 ∧
      (nic.sendPacket packet).2.regs = { nic.regs with tdt := nic.txCur + 1 } ∧
      (nic.sendPacket packet).2.txContent nic.txCur = packet ∧
      ∀ i, i ≠ nic.txCur → (nic.sendPacket packet).2.txContent i = nic.txContent i := by
  have hlength : (UInt16.ofNat packet.length).toNat = packet.length := by
    have := h.2.2
    exact UInt16.toNat_ofNat_of_lt' (Nat.lt_of_le_of_lt this (by decide))
  simp only [E1000.sendPacket, dif_pos h, true_and]
  constructor
  · simp [E1000.txContent, hlength]
  · intro i hi
    have hne : nic.txCur.val ≠ i.val := fun heq => hi (Fin.ext heq.symm)
    simp [E1000.txContent, Vector.getElem_set_ne _ _ hne]

theorem sendPacket_of_not_accepts (h : ¬ nic.Accepts packet) :
    nic.sendPacket packet = (false, nic) :=
  dif_neg h

theorem transmitNext_of_ne (h : nic.regs.tdh ≠ nic.regs.tdt) :
    nic.transmitNext.1 = some (nic.txContent nic.regs.tdh) ∧
      nic.transmitNext.2.txCur = nic.txCur ∧
      nic.transmitNext.2.regs = { nic.regs with tdh := nic.regs.tdh + 1 } ∧
      nic.transmitNext.2.txContent = nic.txContent := by
  simp only [E1000.transmitNext, if_neg h, true_and]
  funext i
  by_cases hi : nic.regs.tdh.val = i.val
  · obtain rfl : nic.regs.tdh = i := Fin.ext hi
    simp [E1000.txContent]
  · simp [E1000.txContent, Vector.getElem_set_ne _ _ hi]

theorem transmitNext_of_eq (h : nic.regs.tdh = nic.regs.tdt) : nic.transmitNext = (none, nic) :=
  if_pos h

theorem step_transmit :
    (m.step .transmit).transmitted = m.transmitted ++ m.outstanding.take 1 ∧
      (m.step .transmit).outstanding = m.outstanding.drop 1 := by
  by_cases h : m.nic.regs.tdh = m.nic.regs.tdt
  · have hempty : m.outstanding = [] := by
      rw [Transmission.outstanding, h, between_self]
    simp [Transmission.step, transmitNext_of_eq h, hempty]
  · obtain ⟨hpacket, -, hregs, hcontent⟩ := transmitNext_of_ne h
    have hcons := between_of_ne m.nic.txContent h
    simp only [Transmission.step, Transmission.outstanding, hpacket, hregs, hcontent, hcons]
    simp

theorem transmitted_replicate (k : Nat) :
    (m.after (List.replicate k .transmit)).transmitted = m.transmitted ++ m.outstanding.take k := by
  induction k generalizing m with
  | zero => simp [Transmission.after]
  | succ k ih =>
    obtain ⟨htransmitted, houtstanding⟩ := step_transmit m
    calc (m.after (List.replicate (k + 1) .transmit)).transmitted
        = ((m.step .transmit).after (List.replicate k .transmit)).transmitted := rfl
      _ = m.transmitted ++ (m.outstanding.take 1 ++ (m.outstanding.drop 1).take k) := by
          rw [ih, htransmitted, houtstanding, List.append_assoc]
      _ = m.transmitted ++ m.outstanding.take (k + 1) := by
          rw [Nat.add_comm k 1, List.take_add]

end Transmissions

theorem losesNothing_iff : m.LosesNothing ↔ m.transmitted ++ m.outstanding = m.accepted := by
  have hshort : m.outstanding.length ≤ txDescCount := Nat.le_of_lt (length_between ..)
  rw [Transmission.LosesNothing, Transmission.drain, transmitted_replicate,
    List.take_of_length_le hshort]

structure Transmission.Ordered (m : Transmission) : Prop where
  sent : m.transmitted = m.accepted.take m.transmitted.length
  le : m.transmitted.length ≤ m.accepted.length
  turn : m.accepted.length < m.transmitted.length + txDescCount
  head : m.nic.regs.tdh = slot txDescCount m.transmitted.length
  tail : m.nic.regs.tdt = slot txDescCount m.accepted.length
  cur : m.nic.txCur = slot txDescCount m.accepted.length
  holds : Holds m.nic.txContent m.accepted m.transmitted.length

theorem ordered_boot : Transmission.boot.Ordered where
  sent := rfl
  le := le_rfl
  turn := by decide
  head := rfl
  tail := rfl
  cur := rfl
  holds := Holds.nil

variable (h : m.Ordered)
include h

theorem Transmission.Ordered.outstanding_eq :
    m.outstanding = m.accepted.drop m.transmitted.length := by
  rw [Transmission.outstanding, h.head, h.tail]
  exact h.holds.between h.le h.turn

theorem Transmission.Ordered.losesNothing : m.LosesNothing := by
  rw [losesNothing_iff, h.outstanding_eq]
  nth_rewrite 1 [h.sent]
  exact List.take_append_drop _ _

theorem Transmission.Ordered.full_iff :
    m.nic.txCur + 1 = m.nic.regs.tdh ↔
      m.accepted.length + 1 = m.transmitted.length + txDescCount := by
  rw [h.cur, h.head, slot_succ, slot_eq_iff]
  have hturn := h.turn
  have hle := h.le
  constructor <;> intro heq <;> grind

theorem Transmission.Ordered.transmit : (m.step .transmit).Ordered := by
  by_cases hempty : m.nic.regs.tdh = m.nic.regs.tdt
  · have hstay : m.step .transmit = m := by
      simp [Transmission.step, transmitNext_of_eq hempty]
    rwa [hstay]
  · obtain ⟨hpacket, hcur, hregs, hcontent⟩ := transmitNext_of_ne hempty
    have hlt : m.transmitted.length < m.accepted.length := by
      refine Nat.lt_of_le_of_ne h.le fun heq => hempty ?_
      rw [h.head, h.tail, heq]
    have hnext : m.nic.txContent m.nic.regs.tdh = m.accepted[m.transmitted.length] := by
      rw [h.head]
      exact h.holds _ le_rfl hlt
    have hstep : m.step .transmit =
        { m with
          nic := m.nic.transmitNext.2
          transmitted := m.transmitted ++ [m.accepted[m.transmitted.length]] } := by
      simp only [Transmission.step, hpacket, hnext, Option.toList_some]
    rw [hstep]
    constructor
    · show m.transmitted ++ [m.accepted[m.transmitted.length]] = _
      rw [List.length_append, List.length_singleton, List.take_succ_eq_append_getElem hlt, ← h.sent]
    · rw [List.length_append, List.length_singleton]
      exact hlt
    · have := h.turn
      grind
    · simp [hregs, h.head]
    · simp [hregs, h.tail]
    · simp [hcur, h.cur]
    · rw [hcontent]
      exact h.holds.of_le (by simp)

theorem Transmission.Ordered.send (hroom : m.LeavesRoom (.send packet)) :
    (m.step (.send packet)).Ordered := by
  by_cases haccepts : m.nic.Accepts packet
  · obtain ⟨htrue, hcur, hregs, hnew, hold⟩ := sendPacket_of_accepts haccepts
    have hturn := h.turn
    have hfull := mt h.full_iff.mpr (hroom haccepts)
    have hstep : m.step (.send packet) =
        { m with nic := (m.nic.sendPacket packet).2, accepted := m.accepted ++ [packet] } := by
      simp [Transmission.step, htrue]
    rw [hstep]
    constructor
    · show m.transmitted = _
      rw [List.take_append_of_le_length h.le]
      exact h.sent
    · have := h.le
      grind
    · grind
    · simp [hregs, h.head]
    · simp [hregs, h.cur]
    · simp [hcur, h.cur]
    · rw [h.cur] at hnew hold
      exact h.holds.concat hturn hnew hold
  · have hstay : m.step (.send packet) = m := by
      simp [Transmission.step, sendPacket_of_not_accepts haccepts]
    rwa [hstay]

theorem Transmission.Ordered.step (event : TxEvent) (hroom : m.LeavesRoom event) :
    (m.step event).Ordered :=
  match event with
  | .send _ => h.send hroom
  | .transmit => h.transmit

theorem Transmission.Ordered.leavesRoom_of_losesNothing (event : TxEvent)
    (hgood : (m.step event).LosesNothing) : m.LeavesRoom event := by
  cases event with
  | transmit => trivial
  | send packet =>
    intro haccepts hfull
    obtain ⟨htrue, -, hregs, -⟩ := sendPacket_of_accepts haccepts
    have hempty : (m.step (.send packet)).outstanding = [] := by
      simp [Transmission.outstanding, Transmission.step, hregs, hfull]
    have haccepted : (m.step (.send packet)).accepted = m.accepted ++ [packet] := by
      simp [Transmission.step, htrue]
    rw [losesNothing_iff, hempty, List.append_nil, haccepted] at hgood
    have hlengths := congrArg List.length hgood
    have hle := h.le
    have hsame : (m.step (.send packet)).transmitted = m.transmitted := rfl
    rw [hsame, List.length_append, List.length_singleton] at hlengths
    omega

omit h in
/-- The transmit ring loses nothing in any state of a run exactly if every call that takes
its packet leaves a descriptor free. -/
theorem losesNothing_iff_leavesRoom (events : List TxEvent) :
    Guarded Transmission.step Transmission.LeavesRoom .boot events ↔
      ∀ k, (Transmission.boot.after (events.take k)).LosesNothing :=
  guarded_iff_forall_take (fun _ event h => h.step event)
    (fun _ h => h.losesNothing) (fun _ event h => h.leavesRoom_of_losesNothing event) ordered_boot

omit h in
def burst : List TxEvent :=
  (List.range txDescCount).map fun i => .send [UInt8.ofNat i]

omit h in
/-- All eight calls return true, and the card transmits none of the packets. -/
theorem burst_lost :
    (Transmission.boot.after burst).accepted = (List.range 8).map (fun i => [UInt8.ofNat i]) ∧
      (Transmission.boot.after burst).drain.transmitted = [] := by
  decide +kernel

end AuraOS.Drivers
