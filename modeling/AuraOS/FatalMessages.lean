import AuraOS.SerialBuffers

namespace AuraOS.SerialOutput

inductive Handler where
  | panic
  | divideByZero
  | invalidOpcode
  | doubleFault
  | generalProtectionFault
  | pageFault (inGuard : Bool)
deriving DecidableEq

def Handler.heading : Handler → String
  | .panic => "\n[KERNEL PANIC] "
  | .divideByZero => "\n[FATAL CPU EXCEPTION] Divide by Zero (#DE) at RIP: "
  | .invalidOpcode => "\n[FATAL CPU EXCEPTION] Invalid Opcode (#UD) at RIP: "
  | .doubleFault => "\n[CRITICAL CPU EXCEPTION] Double Fault (#DF) Code: "
  | .generalProtectionFault => "\n[FATAL CPU EXCEPTION] General Protection Fault (#GP) Code: "
  | .pageFault false => "\n[FATAL CPU EXCEPTION] Page Fault (#PF) at Addr: "
  | .pageFault true => "\n[GUARD PAGE VIOLATION] Stack Overflow detected at "

def Handler.message (handler : Handler) (values : List UInt8) : List UInt8 :=
  handler.heading.toList.map (fun c => UInt8.ofNat c.toNat) ++ values ++ [0x0A]

inductive Stage where
  | entered
  | unlocking
  | locking
  | printing
  | halted
deriving DecidableEq

/-- The serial output and the flag `PANICKING` while a handler runs. -/
structure Fault where
  serial : Serial
  panicking : Bool
  stage : Stage

section Handling

variable (handler : Handler) (cpu : Nat) (text : List UInt8)

/-- The next step of the handler; interrupts are off, so its processor does nothing else.
The lines that it prints with `println!` before it halts, to the screen and into the same
buffer, are left out: like the message, they are not sent. -/
def Fault.advance (s : Fault) : Fault :=
  match s.stage with
  | .entered =>
    if handler = .panic then
      if s.panicking then { s with stage := .halted }
      else { s with panicking := true, stage := .unlocking }
    else { s with stage := .unlocking }
  | .unlocking =>
    -- `force_unlock` of the UART; a flush that the handler interrupted does not go on
    { s with
      serial := if cpu = 0 then { s.serial with flusher := .idle } else s.serial
      stage := .locking }
  | .locking =>
    if (s.serial.prints (bufferOf cpu)).isSome then s
    else { s with serial := s.serial.step (.print cpu text), stage := .printing }
  | .printing =>
    let serial := s.serial.step (.push (bufferOf cpu))
    { s with serial, stage := if (serial.prints (bufferOf cpu)).isSome then .printing else .halted }
  | .halted => s

def foreign : Action → Bool
  | .print currentCpu _ => bufferOf currentCpu ≠ bufferOf cpu
  | .push buffer => buffer ≠ bufferOf cpu
  | .flush _ | .advance => cpu ≠ 0

def Fault.step (s : Fault) : Option Action → Fault
  | none => s.advance handler cpu text
  | some action => if foreign cpu action then { s with serial := s.serial.step action } else s

/-- However the processors interleave, after enough steps of its own the handler has halted
and the bytes of the message have been sent. -/
def ReachesUart (s : Fault) : Prop :=
  ∃ steps, ∀ events : List (Option Action), steps ≤ events.countP Option.isNone →
    let after := events.foldl (Fault.step handler cpu text) s
    after.stage = .halted ∧
      ∃ sent, after.serial.sent = s.serial.sent ++ sent ∧ (expand text).Sublist sent

theorem advance_sent (s : Fault) : (s.advance handler cpu text).serial.sent = s.serial.sent := by
  unfold Fault.advance
  split
  · split
    · split <;> rfl
    · rfl
  · simp only
    split <;> rfl
  · split
    · rfl
    · simp only [Serial.step]
      split <;> rfl
  · simp only [Serial.step]
    split <;> rfl
  · rfl

theorem foldl_advance_sent (s : Fault) (steps : Nat) :
    ((List.replicate steps none).foldl (Fault.step handler cpu text) s).serial.sent =
      s.serial.sent := by
  induction steps generalizing s with
  | zero => rfl
  | succ steps ih => exact (ih _).trans (advance_sent handler cpu text s)

end Handling

theorem not_reachesUart (handler : Handler) (cpu : Nat) (values : List UInt8) (s : Fault) :
    ¬ ReachesUart handler cpu (handler.message values) s := by
  rintro ⟨steps, h⟩
  obtain ⟨-, sent, hsent, hmessage⟩ :=
    h (List.replicate steps none) (by simp [List.countP_replicate])
  rw [foldl_advance_sent, List.self_eq_append_right] at hsent
  rw [hsent, List.sublist_nil] at hmessage
  simp [Handler.message, expand] at hmessage

/-- In no state, on no processor and for no message does a handler see to it that its
message is sent before it halts. -/
theorem fatal_message_not_sent (handler : Handler) (cpu : Nat) (values : List UInt8)
    (serial : Serial) (panicking : Bool) :
    ¬ ReachesUart handler cpu (handler.message values) ⟨serial, panicking, .entered⟩ :=
  not_reachesUart handler cpu values _

/-- A division by zero on the first processor, all buffers empty and all locks free: the
handler halts with the message in its buffer and nothing sent. -/
theorem divide_by_zero_unsent :
    let after := (List.replicate 60 none).foldl
      (Fault.step .divideByZero 0 (Handler.message .divideByZero [0x30])) ⟨.init, false, .entered⟩
    after.stage = .halted ∧ after.serial.sent = [] ∧
      ¬ ReachesUart .divideByZero 0 (Handler.message .divideByZero [0x30])
        ⟨.init, false, .entered⟩ :=
  ⟨by decide +kernel, foldl_advance_sent _ _ _ _ _, not_reachesUart _ _ _ _⟩

end AuraOS.SerialOutput
