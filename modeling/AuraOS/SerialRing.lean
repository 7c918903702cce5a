import AuraOS.SerialBuffers

/-!
A serial buffer between one producer that runs `push_byte` and one consumer that runs
`pop_byte`, load by load and store by store.
-/

namespace AuraOS.SerialOutput

open RingSlots

/-- Where `push_byte` stands, with what it has loaded. -/
inductive Producer where
  | idle
  | loadedTail (byte : UInt8) (tail : Fin serialBufSize)
  | full
  | room (byte : UInt8) (tail : Fin serialBufSize)
  | written (byte : UInt8) (tail : Fin serialBufSize)

def Producer.pending : Producer → Nat
  | .idle => 0
  | _ => 1

/-- Where `pop_byte` stands, with what it has loaded. -/
inductive Consumer where
  | idle
  | loadedHead (head : Fin serialBufSize)
  | filled (head : Fin serialBufSize)
  | loadedByte (head : Fin serialBufSize) (byte : UInt8)

/-- The buffer and its two users, with the number of calls of `push_byte`, the bytes accepted,
the bytes popped, the number of bytes rejected and the sum of what `take_dropped` returned. -/
structure SharedBuffer where
  buf : PerCpuSerialBuffer
  producer : Producer
  consumer : Consumer
  offered : Nat
  accepted : List UInt8
  popped : List UInt8
  rejected : Nat
  reported : Nat

inductive RingAccess where
  | startPush (byte : UInt8)
  | produce
  | consume
  | takeDropped

namespace SharedBuffer

def init : SharedBuffer := ⟨.new, .idle, .idle, 0, [], [], 0, 0⟩

/-- A call of `push_byte` begins with the load of `tail`. -/
def startPush (s : SharedBuffer) (byte : UInt8) : SharedBuffer :=
  match s.producer with
  | .idle => { s with producer := .loadedTail byte s.buf.tail, offered := s.offered + 1 }
  | _ => s

/-- The next access of `push_byte`; a byte is accepted with the store of `tail`. -/
def produce (s : SharedBuffer) : SharedBuffer :=
  match s.producer with
  | .idle => s
  | .loadedTail byte tail =>
    { s with producer := if tail + 1 = s.buf.head then .full else .room byte tail }
  | .full =>
    { s with
      buf := { s.buf with dropped := (s.buf.dropped + 1) % 2 ^ 64 }
      producer := .idle
      rejected := s.rejected + 1 }
  | .room byte tail =>
    { s with
      buf := { s.buf with data := Function.update s.buf.data tail byte }
      producer := .written byte tail }
  | .written byte tail =>
    { s with
      buf := { s.buf with tail := tail + 1 }, producer := .idle, accepted := s.accepted ++ [byte] }

/-- The next access of `pop_byte`, which begins anew when it is done; a byte is popped with the
store of `head`. -/
def consume (s : SharedBuffer) : SharedBuffer :=
  match s.consumer with
  | .idle => { s with consumer := .loadedHead s.buf.head }
  | .loadedHead head => { s with consumer := if head = s.buf.tail then .idle else .filled head }
  | .filled head => { s with consumer := .loadedByte head (s.buf.data head) }
  | .loadedByte head byte =>
    { s with
      buf := { s.buf with head := head + 1 }, consumer := .idle, popped := s.popped ++ [byte] }

def step (s : SharedBuffer) : RingAccess → SharedBuffer
  | .startPush byte => s.startPush byte
  | .produce => s.produce
  | .consume => s.consume
  | .takeDropped =>
    { s with buf := s.buf.takeDropped.2, reported := s.reported + s.buf.takeDropped.1 }

end SharedBuffer

/-- The accepted bytes that are not popped are in the slots from `head` to `tail`. -/
structure Queued (data : Fin serialBufSize → UInt8) (head tail : Fin serialBufSize)
    (accepted popped : List UInt8) : Prop where
  fifo : popped <+: accepted
  turn : accepted.length < popped.length + serialBufSize
  head_eq : head = slot serialBufSize popped.length
  tail_eq : tail = slot serialBufSize accepted.length
  holds : Holds data accepted popped.length

namespace Queued

variable {byte : UInt8} (h : Queued data head tail accepted popped)
include h

theorem full_iff : tail + 1 = head ↔ accepted.length - popped.length = 8191 := by
  have hle := h.fifo.length_le
  have hturn := h.turn
  rw [h.tail_eq, h.head_eq, slot_succ, slot_eq_iff]
  simp only [serialBufSize] at *
  omega

theorem empty_iff : head = tail ↔ popped.length = accepted.length := by
  rw [h.head_eq, h.tail_eq]
  exact slot_eq_iff_of_le h.fifo.length_le h.turn

theorem write : Queued (Function.update data tail byte) head tail accepted popped := by
  refine ⟨h.fifo, h.turn, h.head_eq, h.tail_eq, fun i hi hlt => ?_⟩
  have hne : slot serialBufSize i ≠ tail := by
    rw [h.tail_eq]
    exact slot_ne hlt (h.turn.trans_le (Nat.add_le_add_right hi _))
  exact (Function.update_of_ne hne _ _).trans (h.holds i hi hlt)

theorem push (hbyte : data tail = byte)
    (hroom : accepted.length + 1 < popped.length + serialBufSize) :
    Queued data head (tail + 1) (accepted ++ [byte]) popped := by
  have hslot : data (slot serialBufSize accepted.length) = byte := by
    rw [← h.tail_eq]
    exact hbyte
  constructor
  · exact h.fifo.trans (List.prefix_append _ _)
  · simpa using hroom
  · exact h.head_eq
  · rw [h.tail_eq, slot_succ, List.length_append, List.length_singleton]
  · exact h.holds.concat h.turn hslot fun _ _ => rfl

theorem pop (hbyte : accepted[popped.length]? = some byte) :
    Queued data (head + 1) tail accepted (popped ++ [byte]) := by
  have hnext := List.take_prefix (popped.length + 1) accepted
  rw [List.take_add_one, hbyte, ← List.prefix_iff_eq_take.mp h.fifo] at hnext
  exact ⟨hnext, h.turn.trans (by simp), by simp [h.head_eq], h.tail_eq, h.holds.of_le (by simp)⟩

end Queued

/-- What the two users have loaded still holds, and every byte offered is accounted for. -/
structure RingInvariant (s : SharedBuffer) : Prop where
  queued : Queued s.buf.data s.buf.head s.buf.tail s.accepted s.popped
  producer : match s.producer with
    | .idle | .full => True
    | .loadedTail _ tail => tail = s.buf.tail
    | .room _ tail => tail = s.buf.tail ∧ s.accepted.length + 1 < s.popped.length + serialBufSize
    | .written byte tail => tail = s.buf.tail ∧ s.buf.data tail = byte ∧
        s.accepted.length + 1 < s.popped.length + serialBufSize
  consumer : match s.consumer with
    | .idle => True
    | .loadedHead head => head = s.buf.head
    | .filled head => head = s.buf.head ∧ s.popped.length < s.accepted.length
    | .loadedByte head byte => head = s.buf.head ∧ s.accepted[s.popped.length]? = some byte
  offered : s.offered = s.accepted.length + s.rejected + s.producer.pending
  reported : (s.reported + s.buf.dropped) % 2 ^ 64 = s.rejected % 2 ^ 64

namespace RingInvariant

variable {s : SharedBuffer} (h : RingInvariant s)
include h

theorem produce : RingInvariant s.produce := by
  obtain ⟨buf, producer, consumer⟩ := s
  obtain ⟨hqueued, hproducer, hconsumer, hoffered, hreported⟩ := id h
  cases producer with
  | idle => exact h
  | full =>
    refine ⟨hqueued, trivial, hconsumer, hoffered, ?_⟩
    simp only [SharedBuffer.produce] at *
    omega
  | loadedTail byte tail =>
    obtain rfl : tail = buf.tail := hproducer
    simp only [SharedBuffer.produce]
    split_ifs with hfull
    · exact ⟨hqueued, trivial, hconsumer, hoffered, hreported⟩
    · refine ⟨hqueued, ⟨rfl, ?_⟩, hconsumer, hoffered, hreported⟩
      have hroom := mt hqueued.full_iff.mpr hfull
      have hturn := hqueued.turn
      simp only [serialBufSize] at *
      omega
  | room byte tail =>
    obtain ⟨(rfl : tail = buf.tail), hroom⟩ := hproducer
    exact ⟨hqueued.write, ⟨rfl, Function.update_self _ _ _, hroom⟩, hconsumer, hoffered, hreported⟩
  | written byte tail =>
    obtain ⟨(rfl : tail = buf.tail), hbyte, hroom⟩ := hproducer
    refine ⟨hqueued.push hbyte hroom, trivial, ?_, ?_, hreported⟩
    · -- another byte behind the ones that `pop_byte` has seen
      cases consumer with
      | idle | loadedHead => exact hconsumer
      | filled => exact ⟨hconsumer.1, hconsumer.2.trans (by simp [SharedBuffer.produce])⟩
      | loadedByte =>
        have hlt := (List.getElem?_eq_some_iff.mp hconsumer.2).1
        exact ⟨hconsumer.1, (List.getElem?_append_left hlt).trans hconsumer.2⟩
    · simp only [SharedBuffer.produce, Producer.pending, List.length_append] at *
      grind

theorem consume : RingInvariant s.consume := by
  obtain ⟨buf, producer, consumer⟩ := s
  obtain ⟨hqueued, hproducer, hconsumer, hoffered, hreported⟩ := h
  cases consumer with
  | idle => exact ⟨hqueued, hproducer, rfl, hoffered, hreported⟩
  | loadedHead head =>
    refine ⟨hqueued, hproducer, ?_, hoffered, hreported⟩
    obtain rfl : head = buf.head := hconsumer
    simp only [SharedBuffer.consume]
    split_ifs with hempty
    · trivial
    · exact ⟨rfl, hqueued.fifo.length_le.lt_of_ne (mt hqueued.empty_iff.mpr hempty)⟩
  | filled head =>
    obtain ⟨(rfl : head = buf.head), hlt⟩ := hconsumer
    refine ⟨hqueued, hproducer, ⟨rfl, ?_⟩, hoffered, hreported⟩
    rw [hqueued.head_eq, hqueued.holds _ le_rfl hlt]
    exact List.getElem?_eq_getElem hlt
  | loadedByte head byte =>
    obtain ⟨(rfl : head = buf.head), hbyte⟩ := hconsumer
    refine ⟨hqueued.pop hbyte, ?_, trivial, hoffered, hreported⟩
    -- more room than `push_byte` has seen
    cases producer with
    | idle | full | loadedTail => exact hproducer
    | room => exact ⟨hproducer.1, hproducer.2.trans (by simp [SharedBuffer.consume])⟩
    | written =>
      exact ⟨hproducer.1, hproducer.2.1, hproducer.2.2.trans (by simp [SharedBuffer.consume])⟩

theorem step (access : RingAccess) : RingInvariant (s.step access) := by
  cases access with
  | startPush byte =>
    obtain ⟨buf, producer⟩ := s
    cases producer with
    | idle => exact ⟨h.queued, rfl, h.consumer, congrArg (· + 1) h.offered, h.reported⟩
    | _ => exact h
  | produce => exact h.produce
  | consume => exact h.consume
  | takeDropped => exact ⟨h.queued, h.producer, h.consumer, h.offered, h.reported⟩

theorem len_eq : s.buf.len = s.accepted.length - s.popped.length := by
  have hle := h.queued.fifo.length_le
  have hturn := h.queued.turn
  have hhead : s.buf.head.val = s.popped.length % 8192 := congrArg Fin.val h.queued.head_eq
  have htail : s.buf.tail.val = s.accepted.length % 8192 := congrArg Fin.val h.queued.tail_eq
  simp only [PerCpuSerialBuffer.len, serialBufSize] at *
  split <;> omega

end RingInvariant

theorem ringInvariant_init : RingInvariant .init where
  queued := ⟨List.prefix_rfl, by decide, rfl, rfl, .nil⟩
  producer := trivial
  consumer := trivial
  offered := rfl
  reported := rfl

theorem ringInvariant_run (accesses : List RingAccess) :
    RingInvariant (accesses.foldl SharedBuffer.step .init) := by
  refine List.foldlRecOn accesses _ ringInvariant_init ?_
  intro s h access _
  exact h.step access

/-- In every order of the accesses the buffer is a queue of at most 8191 bytes. -/
theorem serial_ring_fifo (accesses : List RingAccess) :
    let s := accesses.foldl SharedBuffer.step .init
    s.popped <+: s.accepted ∧ s.buf.head.val < 8192 ∧ s.buf.tail.val < 8192 ∧
      (∀ byte tail, s.producer = .loadedTail byte tail →
        ((s.step .produce).producer = .full ↔ s.accepted.length - s.popped.length = 8191)) ∧
      (s.producer = .full → s.step .produce =
        { s with
          buf := { s.buf with dropped := (s.buf.dropped + 1) % 2 ^ 64 }
          producer := .idle
          rejected := s.rejected + 1 }) ∧
      s.buf.len = s.accepted.length - s.popped.length := by
  intro s
  have h : RingInvariant s := ringInvariant_run accesses
  refine ⟨h.queued.fifo, s.buf.head.isLt, s.buf.tail.isLt, fun byte tail hloaded => ?_,
    fun hfull => ?_, h.len_eq⟩
  · have hproducer := h.producer
    rw [hloaded] at hproducer
    obtain rfl : tail = s.buf.tail := hproducer
    rw [SharedBuffer.step, SharedBuffer.produce, hloaded, ← h.queued.full_iff]
    simp
  · rw [SharedBuffer.step, SharedBuffer.produce, hfull]

/-- Every byte offered is accepted, rejected or in the hands of `push_byte`, and every rejected
byte is in `dropped` or has been reported. -/
theorem serial_ring_accounted (accesses : List RingAccess) :
    let s := accesses.foldl SharedBuffer.step .init
    s.offered = s.accepted.length + s.rejected + s.producer.pending ∧
      (s.reported + s.buf.dropped) % 2 ^ 64 = s.rejected % 2 ^ 64 :=
  have h := ringInvariant_run accesses
  ⟨h.offered, h.reported⟩

end AuraOS.SerialOutput
