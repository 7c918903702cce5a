import AuraOS.RingSlots

/-!
Serial output with a ring buffer for each processor.  `_print` pushes the bytes of a
message one by one under the lock of the buffer; `serial_flush_all` drains the buffers
in turn to the UART and takes no buffer's lock.
-/

namespace AuraOS.SerialOutput

open RingSlots

def serialBufSize : Nat := 8192

instance : NeZero serialBufSize := ⟨by decide⟩

def maxCpus : Nat := 8

instance : NeZero maxCpus := ⟨by decide⟩

structure PerCpuSerialBuffer where
  data : Fin serialBufSize → UInt8
  head : Fin serialBufSize
  tail : Fin serialBufSize
  dropped : Nat

def PerCpuSerialBuffer.new : PerCpuSerialBuffer :=
  ⟨fun _ => 0, 0, 0, 0⟩

section Buffer

variable (buf : PerCpuSerialBuffer)

def PerCpuSerialBuffer.isFull : Bool :=
  buf.tail + 1 = buf.head

def PerCpuSerialBuffer.isEmpty : Bool :=
  buf.head = buf.tail

def PerCpuSerialBuffer.len : Nat :=
  if buf.head ≤ buf.tail then buf.tail.val - buf.head.val
  else serialBufSize - buf.head.val + buf.tail.val

def PerCpuSerialBuffer.pushByte (byte : UInt8) : PerCpuSerialBuffer :=
  if buf.isFull then { buf with dropped := (buf.dropped + 1) % 2 ^ 64 }
  else { buf with data := Function.update buf.data buf.tail byte, tail := buf.tail + 1 }

def PerCpuSerialBuffer.popByte : Option UInt8 × PerCpuSerialBuffer :=
  if buf.isEmpty then (none, buf)
  else (some (buf.data buf.head), { buf with head := buf.head + 1 })

def PerCpuSerialBuffer.takeDropped : Nat × PerCpuSerialBuffer :=
  (buf.dropped, { buf with dropped := 0 })

def PerCpuSerialBuffer.contents : List UInt8 :=
  between buf.data buf.head buf.tail

end Buffer

section Ring

variable (buf : PerCpuSerialBuffer)

theorem contents_pushByte (h : buf.isFull = false) (byte : UInt8) :
    (buf.pushByte byte).contents = buf.contents ++ [byte] := by
  have hroom : buf.tail + 1 ≠ buf.head := by simpa [PerCpuSerialBuffer.isFull] using h
  rw [PerCpuSerialBuffer.pushByte, h]
  exact between_concat buf.data hroom byte

theorem contents_pushByte_full (h : buf.isFull = true) (byte : UInt8) :
    (buf.pushByte byte).contents = buf.contents := by
  rw [PerCpuSerialBuffer.pushByte, h]
  rfl

theorem contents_empty (h : buf.isEmpty = true) : buf.contents = [] := by
  have hends : buf.head = buf.tail := by simpa [PerCpuSerialBuffer.isEmpty] using h
  rw [PerCpuSerialBuffer.contents, hends, between_self]

theorem contents_popByte (h : buf.isEmpty = false) :
    buf.contents = buf.data buf.head :: buf.popByte.2.contents := by
  have hends : buf.head ≠ buf.tail := by simpa [PerCpuSerialBuffer.isEmpty] using h
  rw [PerCpuSerialBuffer.popByte, h]
  exact between_of_ne buf.data hends

theorem val_tail_succ : (buf.tail + 1).val = (buf.tail.val + 1) % 8192 :=
  rfl

theorem isFull_iff : buf.isFull = true ↔ (buf.tail.val + 1) % 8192 = buf.head.val := by
  rw [PerCpuSerialBuffer.isFull, decide_eq_true_iff, Fin.ext_iff, val_tail_succ]

theorem isFull_eq_false (h : buf.len + 1 < serialBufSize) : buf.isFull = false := by
  have hhead : buf.head.val < 8192 := buf.head.isLt
  have htail : buf.tail.val < 8192 := buf.tail.isLt
  rw [← Bool.not_eq_true, isFull_iff]
  have hsize : serialBufSize = 8192 := rfl
  simp only [PerCpuSerialBuffer.len, Fin.le_def] at h
  split at h <;> omega

theorem len_pushByte (h : buf.isFull = false) (byte : UInt8) :
    (buf.pushByte byte).len = buf.len + 1 := by
  have hhead : buf.head.val < 8192 := buf.head.isLt
  have htail : buf.tail.val < 8192 := buf.tail.isLt
  have hroom : ¬ (buf.tail.val + 1) % 8192 = buf.head.val := by
    rw [← isFull_iff, h]
    exact Bool.false_ne_true
  rw [PerCpuSerialBuffer.pushByte, h]
  simp only [PerCpuSerialBuffer.len, Bool.false_eq_true, if_false, Fin.le_def, val_tail_succ]
  have hsize : serialBufSize = 8192 := rfl
  split <;> split <;> omega

@[simp] theorem contents_takeDropped : buf.takeDropped.2.contents = buf.contents :=
  rfl

end Ring

/-- `write_str`: a line feed goes out after a carriage return. -/
def expand (text : List UInt8) : List UInt8 :=
  text.flatMap fun byte => if byte = 0x0A then [0x0D, byte] else [byte]

/-- `[DROPPED]` and the end of the line. -/
def droppedMarker : List UInt8 :=
  [0x5B, 0x44, 0x52, 0x4F, 0x50, 0x50, 0x45, 0x44, 0x5D, 0x0D, 0x0A]

/-- Where `serial_flush_all` stands, with the buffers it has still to visit. -/
inductive Flusher where
  | idle
  | visit (cpus : List (Fin maxCpus))
  | marker (cpu : Fin maxCpus) (rest : List UInt8) (cpus : List (Fin maxCpus))
  | drain (cpu : Fin maxCpus) (cpus : List (Fin maxCpus))

/-- The buffers, what the holder of each lock has still to push, the flusher, which
holds the lock of the UART unless it is idle, and the bytes sent. -/
structure Serial where
  buffers : Fin maxCpus → PerCpuSerialBuffer
  prints : Fin maxCpus → Option (List UInt8)
  flusher : Flusher
  sent : List UInt8

inductive Action where
  /-- A call of `_print` on a processor takes the lock of its buffer, if it is free. -/
  | print (currentCpu : Nat) (text : List UInt8)
  /-- The holder of the lock pushes its next byte, or is done and releases the lock. -/
  | push (cpu : Fin maxCpus)
  /-- A call of `serial_flush_all`. -/
  | flush (cpuCount : Nat)
  /-- The next step of the flusher. -/
  | advance

def bufferOf (currentCpu : Nat) : Fin maxCpus :=
  if h : currentCpu < maxCpus then ⟨currentCpu, h⟩ else 0

/-- The buffers `0..online` of `serial_flush_all`. -/
def onlineBuffers (cpuCount : Nat) : List (Fin maxCpus) :=
  (List.finRange maxCpus).take (max 1 (min cpuCount maxCpus))

def Serial.setBuffer (s : Serial) (cpu : Fin maxCpus) (buf : PerCpuSerialBuffer) : Serial :=
  { s with buffers := Function.update s.buffers cpu buf }

def Serial.setPrint (s : Serial) (cpu : Fin maxCpus) (print : Option (List UInt8)) : Serial :=
  { s with prints := Function.update s.prints cpu print }

/-- One step of the loop in `serial_flush_all`. -/
def Serial.advance (s : Serial) : Serial :=
  match s.flusher with
  | .idle => s
  | .visit [] => { s with flusher := .idle }
  | .visit (cpu :: cpus) =>
    let (dropped, buf) := (s.buffers cpu).takeDropped
    { s.setBuffer cpu buf with
      flusher := if 0 < dropped then .marker cpu droppedMarker cpus else .drain cpu cpus }
  | .marker cpu [] cpus => { s with flusher := .drain cpu cpus }
  | .marker cpu (byte :: rest) cpus =>
    { s with flusher := .marker cpu rest cpus, sent := s.sent ++ [byte] }
  | .drain cpu cpus =>
    match (s.buffers cpu).popByte with
    | (none, _) => { s with flusher := .visit cpus }
    | (some byte, buf) => { s.setBuffer cpu buf with sent := s.sent ++ [byte] }

def Serial.step (s : Serial) : Action → Serial
  | .print currentCpu text =>
    match s.prints (bufferOf currentCpu) with
    | some _ => s
    | none => s.setPrint (bufferOf currentCpu) (some (expand text))
  | .push cpu =>
    match s.prints cpu with
    | none => s
    | some [] => s.setPrint cpu none
    | some (byte :: rest) =>
      (s.setBuffer cpu ((s.buffers cpu).pushByte byte)).setPrint cpu (some rest)
  | .flush cpuCount =>
    match s.flusher with
    | .idle =>
      if (onlineBuffers cpuCount).any fun cpu => !(s.buffers cpu).isEmpty then
        { s with flusher := .visit (onlineBuffers cpuCount) }
      else s
    | _ => s
  | .advance => s.advance

def Serial.init : Serial :=
  ⟨fun _ => .new, fun _ => none, .idle, []⟩

end AuraOS.SerialOutput
