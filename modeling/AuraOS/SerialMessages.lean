import AuraOS.GuardedRuns
import AuraOS.SerialBuffers

namespace AuraOS.SerialOutput

open GuardedRuns RingSlots Function

variable {rest : List UInt8} {t : Serial}

inductive Chunk where
  | message (cpu : Fin maxCpus) (bytes : List UInt8)
  | marker

def Chunk.bytes : Chunk → List UInt8
  | .message _ bytes => bytes
  | .marker => droppedMarker

def Chunk.messageOf (cpu : Fin maxCpus) : Chunk → Option (List UInt8)
  | .message sender bytes => if sender = cpu then some bytes else none
  | .marker => none

def messagesOf (cpu : Fin maxCpus) (chunks : List Chunk) : List (List UInt8) :=
  chunks.filterMap (Chunk.messageOf cpu)

/-- What has happened so far, for each buffer: the messages printed; whether a byte of the
last one was stored, and whether one was dropped; the stored messages of which no byte
has been sent; and what is left to send of a message sent in part. -/
structure Log where
  printed : Fin maxCpus → List (List UInt8)
  kept : Fin maxCpus → Bool
  lost : Fin maxCpus → Bool
  waiting : Fin maxCpus → List (List UInt8)
  unsent : Fin maxCpus → List UInt8
  chunks : List Chunk

structure State where
  serial : Serial
  log : Log

section Recording

def Log.print (log : Log) (cpu : Fin maxCpus) (message : List UInt8) : Log :=
  { log with
    printed := update log.printed cpu (log.printed cpu ++ [message])
    kept := update log.kept cpu false
    lost := update log.lost cpu false }

def Log.drop (log : Log) (cpu : Fin maxCpus) : Log :=
  { log with lost := update log.lost cpu true }

def Log.store (log : Log) (cpu : Fin maxCpus) : Log :=
  { log with
    kept := update log.kept cpu true
    waiting := if log.kept cpu then log.waiting else
      update log.waiting cpu (log.waiting cpu ++ [(log.printed cpu).getLastD []]) }

/-- A byte of a buffer is sent: of the message that was begun, or the first one of the
next message. -/
def Log.send (log : Log) (cpu : Fin maxCpus) : Log :=
  match log.unsent cpu, log.waiting cpu with
  | _ :: rest, _ => { log with unsent := update log.unsent cpu rest }
  | [], message :: messages =>
    { log with
      unsent := update log.unsent cpu message.tail
      waiting := update log.waiting cpu messages
      chunks := log.chunks ++ [.message cpu message] }
  | [], [] => log

def Log.record (log : Log) (s : Serial) : Action → Log
  | .print currentCpu text =>
    match s.prints (bufferOf currentCpu) with
    | some _ => log
    | none => log.print (bufferOf currentCpu) (expand text)
  | .push cpu =>
    match s.prints cpu with
    | some (_ :: _) => if (s.buffers cpu).isFull then log.drop cpu else log.store cpu
    | _ => log
  | .flush _ => log
  | .advance =>
    match s.flusher with
    | .visit (cpu :: _) =>
      if 0 < (s.buffers cpu).dropped then { log with chunks := log.chunks ++ [.marker] } else log
    | .drain cpu _ => if (s.buffers cpu).isEmpty then log else log.send cpu
    | _ => log

def State.step (s : State) (action : Action) : State :=
  ⟨s.serial.step action, s.log.record s.serial action⟩

def State.init : State :=
  ⟨.init, fun _ => [], fun _ => false, fun _ => false, fun _ => [], fun _ => [], []⟩

end Recording

def Quiet (s : Serial) : Prop :=
  (∀ cpu, s.prints cpu = none) ∧ (∀ cpu, (s.buffers cpu).isEmpty = true) ∧ s.flusher = .idle

/-- The bytes sent are whole messages and markers, up to the rest of the last one; the
messages of each buffer are in the order in which they were printed. -/
def WholeMessages (s : State) : Prop :=
  ∃ chunks rest, s.serial.sent ++ rest = chunks.flatMap Chunk.bytes ∧
    (∀ cpu, (messagesOf cpu chunks).Sublist (s.log.printed cpu)) ∧
    (Quiet s.serial → rest = [])

/-- A byte is dropped only if no byte of its message was stored, and stored only if none
was dropped. -/
def StoresWhole (s : State) (cpu : Fin maxCpus) : Prop :=
  match s.serial.prints cpu with
  | some (_ :: _) =>
    if (s.serial.buffers cpu).isFull then s.log.kept cpu = false else s.log.lost cpu = false
  | _ => True

/-- A marker or a byte of a buffer is sent only if no message of another buffer has been
sent in part. -/
def SendsWhole (s : State) : Prop :=
  match s.serial.flusher with
  | .visit (cpu :: _) => 0 < (s.serial.buffers cpu).dropped → ∀ c, s.log.unsent c = []
  | .drain cpu _ => (s.serial.buffers cpu).isEmpty = false → ∀ c, c ≠ cpu → s.log.unsent c = []
  | _ => True

def Undivided (s : State) : Action → Prop
  | .print _ _ => True
  | .push cpu => StoresWhole s cpu
  | .flush _ => True
  | .advance => SendsWhole s

section Invariant

structure Recorded (buf : PerCpuSerialBuffer) (print : Option (List UInt8))
    (printed : List (List UInt8)) (kept lost : Bool) (waiting sent : List (List UInt8))
    (unsent : List UInt8) : Prop where
  order : (sent ++ waiting).Sublist
    (if print.isSome ∧ kept = false then printed.dropLast else printed)
  queue : unsent ++ waiting.flatten = buf.contents ++ if kept then print.getD [] else []
  whole : ∀ rest, print = some rest → kept = false → lost = false → printed.getLast? = some rest
  nonempty : ∀ message ∈ waiting, message ≠ []

def Log.Records (log : Log) (s : Serial) (cpu : Fin maxCpus) : Prop :=
  Recorded (s.buffers cpu) (s.prints cpu) (log.printed cpu) (log.kept cpu) (log.lost cpu)
    (log.waiting cpu) (messagesOf cpu log.chunks) (log.unsent cpu)

def Completes (s : Serial) (log : Log) : Prop :=
  match s.flusher with
  | .marker _ rest _ => s.sent ++ rest = log.chunks.flatMap Chunk.bytes ∧ ∀ c, log.unsent c = []
  | _ => ∃ cpu, s.sent ++ log.unsent cpu = log.chunks.flatMap Chunk.bytes ∧
      ∀ c, c ≠ cpu → log.unsent c = []

structure Faithful (s : State) : Prop where
  records : ∀ cpu, s.log.Records s.serial cpu
  completes : Completes s.serial s.log

theorem faithful_init : Faithful State.init := by
  refine ⟨fun cpu => ⟨List.Sublist.refl _, ?_, nofun, nofun⟩, 0, rfl, fun _ _ => rfl⟩
  exact (contents_empty .new rfl).symm

section Buffer

variable {buf : PerCpuSerialBuffer} {print : Option (List UInt8)}
  {printed waiting sent : List (List UInt8)} {kept lost : Bool} {unsent : List UInt8}

theorem Recorded.beginPrint (h : Recorded buf none printed kept lost waiting sent unsent)
    (message : List UInt8) :
    Recorded buf (some message) (printed ++ [message]) false false waiting sent unsent := by
  refine ⟨?_, ?_, ?_, h.nonempty⟩
  · simpa using h.order
  · simpa using h.queue
  · intro rest hrest _ _
    cases hrest
    exact List.getLast?_concat

theorem Recorded.release (h : Recorded buf (some []) printed kept lost waiting sent unsent) :
    Recorded buf none printed kept lost waiting sent unsent := by
  refine ⟨?_, ?_, nofun, h.nonempty⟩
  · refine h.order.trans ?_
    split
    · exact List.dropLast_sublist printed
    · exact List.Sublist.refl printed
  · simpa using h.queue

variable {byte : UInt8} {rest : List UInt8}

theorem Recorded.drop
    (h : Recorded buf (some (byte :: rest)) printed false lost waiting sent unsent)
    (hfull : buf.isFull = true) :
    Recorded (buf.pushByte byte) (some rest) printed false true waiting sent unsent := by
  refine ⟨h.order, ?_, nofun, h.nonempty⟩
  rw [contents_pushByte_full buf hfull]
  exact h.queue

theorem Recorded.storeFirst
    (h : Recorded buf (some (byte :: rest)) printed false false waiting sent unsent)
    (hroom : buf.isFull = false) :
    Recorded (buf.pushByte byte) (some rest) printed true false
      (waiting ++ [printed.getLastD []]) sent unsent := by
  obtain ⟨earlier, rfl⟩ := List.getLast?_eq_some_iff.mp (h.whole _ rfl rfl rfl)
  have horder : (sent ++ waiting).Sublist earlier := by simpa using h.order
  have hqueue : unsent ++ waiting.flatten = buf.contents := by simpa using h.queue
  rw [List.getLastD_concat]
  refine ⟨?_, ?_, nofun, ?_⟩
  · rw [← List.append_assoc]
    exact horder.append (List.Sublist.refl _)
  · rw [contents_pushByte buf hroom, ← hqueue]
    simp
  · intro message hmessage
    rcases List.mem_append.mp hmessage with hold | hnew
    · exact h.nonempty message hold
    · rw [List.mem_singleton.mp hnew]
      exact List.cons_ne_nil byte rest

theorem Recorded.storeNext
    (h : Recorded buf (some (byte :: rest)) printed true lost waiting sent unsent)
    (hroom : buf.isFull = false) :
    Recorded (buf.pushByte byte) (some rest) printed true lost waiting sent unsent := by
  refine ⟨h.order, ?_, nofun, h.nonempty⟩
  have hqueue : unsent ++ waiting.flatten = buf.contents ++ byte :: rest := h.queue
  rw [contents_pushByte buf hroom, hqueue]
  simp

theorem Recorded.sameContents {buf' : PerCpuSerialBuffer} (hsame : buf'.contents = buf.contents)
    (h : Recorded buf print printed kept lost waiting sent unsent) :
    Recorded buf' print printed kept lost waiting sent unsent :=
  ⟨h.order, by rw [hsame]; exact h.queue, h.whole, h.nonempty⟩

theorem Recorded.sendNext {next : UInt8} {later : List UInt8}
    (h : Recorded buf print printed kept lost waiting sent (next :: later))
    (hbyte : buf.isEmpty = false) :
    next = buf.data buf.head ∧
      Recorded buf.popByte.2 print printed kept lost waiting sent later := by
  have hqueue := h.queue
  rw [contents_popByte buf hbyte, List.cons_append, List.cons_append, List.cons.injEq] at hqueue
  exact ⟨hqueue.1, h.order, hqueue.2, h.whole, h.nonempty⟩

theorem Recorded.sendFirst (h : Recorded buf print printed kept lost waiting sent [])
    (hbyte : buf.isEmpty = false) :
    ∃ later messages, waiting = (buf.data buf.head :: later) :: messages ∧
      Recorded buf.popByte.2 print printed kept lost messages
        (sent ++ [buf.data buf.head :: later]) later := by
  have hqueue := h.queue
  rw [contents_popByte buf hbyte] at hqueue
  match waiting, h with
  | [], _ => cases hqueue
  | [] :: messages, h => exact absurd rfl (h.nonempty [] (.head _))
  | (first :: later) :: messages, h =>
    rw [List.nil_append, List.flatten_cons, List.cons_append, List.cons_append,
      List.cons.injEq] at hqueue
    obtain ⟨rfl, hrest⟩ := hqueue
    refine ⟨later, messages, rfl, ?_, hrest, h.whole, fun message hmessage => ?_⟩
    · rw [List.append_assoc]
      exact h.order
    · exact h.nonempty message (.tail _ hmessage)

end Buffer

section Steps

variable {s : State}

theorem messagesOf_marker (cpu : Fin maxCpus) (chunks : List Chunk) :
    messagesOf cpu (chunks ++ [.marker]) = messagesOf cpu chunks := by
  simp [messagesOf, Chunk.messageOf]

theorem messagesOf_self (cpu : Fin maxCpus) (chunks : List Chunk) (message : List UInt8) :
    messagesOf cpu (chunks ++ [.message cpu message]) = messagesOf cpu chunks ++ [message] := by
  simp [messagesOf, Chunk.messageOf]

theorem messagesOf_of_ne {cpu c : Fin maxCpus} (h : c ≠ cpu) (chunks : List Chunk)
    (message : List UInt8) :
    messagesOf c (chunks ++ [.message cpu message]) = messagesOf c chunks := by
  simp [messagesOf, Chunk.messageOf, h.symm]

theorem faithful_print (h : Faithful s) (currentCpu : Nat) (text : List UInt8) :
    Faithful (s.step (.print currentCpu text)) := by
  simp only [State.step, Serial.step, Log.record]
  cases hprint : s.serial.prints (bufferOf currentCpu) with
  | some rest => exact h
  | none =>
    have hrecords := h.records (bufferOf currentCpu)
    simp only [Log.Records, hprint] at hrecords
    refine ⟨fun cpu => ?_, h.completes⟩
    by_cases hcpu : cpu = bufferOf currentCpu
    · subst hcpu
      simp only [Log.Records, Serial.setPrint, Log.print, update_self]
      exact hrecords.beginPrint (expand text)
    · simp only [Log.Records, Serial.setPrint, Log.print, update_of_ne hcpu]
      exact h.records cpu

theorem records_store {cpu : Fin maxCpus} {byte : UInt8} (h : s.log.Records s.serial cpu)
    (hprint : s.serial.prints cpu = some (byte :: rest))
    (hroom : (s.serial.buffers cpu).isFull = false) (hlost : s.log.lost cpu = false) :
    Recorded ((s.serial.buffers cpu).pushByte byte) (some rest) (s.log.printed cpu)
      ((s.log.store cpu).kept cpu) (s.log.lost cpu) ((s.log.store cpu).waiting cpu)
      (messagesOf cpu s.log.chunks) (s.log.unsent cpu) := by
  simp only [Log.Records, hprint, hlost] at h
  simp only [Log.store, update_self, hlost]
  cases hkept : s.log.kept cpu with
  | true =>
    rw [hkept] at h
    exact h.storeNext hroom
  | false =>
    rw [hkept] at h
    simp only [Bool.false_eq_true, if_false, update_self]
    exact h.storeFirst hroom

theorem store_of_ne (log : Log) {cpu c : Fin maxCpus} (h : c ≠ cpu) :
    (log.store cpu).kept c = log.kept c ∧ (log.store cpu).waiting c = log.waiting c := by
  refine ⟨update_of_ne h _ _, ?_⟩
  simp only [Log.store]
  split
  · rfl
  · exact update_of_ne h _ _

variable (h : Faithful s)
include h

theorem faithful_push {cpu : Fin maxCpus} (hguard : StoresWhole s cpu) :
    Faithful (s.step (.push cpu)) := by
  have hrecords := h.records cpu
  simp only [State.step, Serial.step, Log.record]
  rcases hprint : s.serial.prints cpu with _ | _ | ⟨byte, rest⟩
  · exact h
  · simp only [Log.Records, hprint] at hrecords
    refine ⟨fun c => ?_, h.completes⟩
    by_cases hc : c = cpu
    · subst hc
      simp only [Log.Records, Serial.setPrint, update_self]
      exact hrecords.release
    · simp only [Log.Records, Serial.setPrint, update_of_ne hc]
      exact h.records c
  · simp only [StoresWhole, hprint] at hguard
    cases hfull : (s.serial.buffers cpu).isFull with
    | true =>
      rw [hfull, if_pos rfl] at hguard
      simp only [Log.Records, hprint, hguard] at hrecords
      refine ⟨fun c => ?_, h.completes⟩
      by_cases hc : c = cpu
      · subst hc
        simp only [Log.Records, Serial.setPrint, Serial.setBuffer, Log.drop, if_true,
          update_self, hguard]
        exact hrecords.drop hfull
      · simp only [Log.Records, Serial.setPrint, Serial.setBuffer, Log.drop, if_true,
          update_of_ne hc]
        exact h.records c
    | false =>
      rw [hfull, if_neg (by simp)] at hguard
      refine ⟨fun c => ?_, h.completes⟩
      simp only [Bool.false_eq_true, if_false]
      by_cases hc : c = cpu
      · subst hc
        simp only [Log.Records, Serial.setPrint, Serial.setBuffer, update_self]
        exact records_store hrecords hprint hfull hguard
      · obtain ⟨hkept, hwaiting⟩ := store_of_ne s.log hc
        simp only [Log.Records, Serial.setPrint, Serial.setBuffer, update_of_ne hc, hkept, hwaiting]
        exact h.records c

omit h in
theorem step_flush_cases (t : Serial) (cpuCount : Nat) :
    t.step (.flush cpuCount) = t ∨
      t.flusher = .idle ∧
        t.step (.flush cpuCount) = { t with flusher := .visit (onlineBuffers cpuCount) } := by
  cases hflusher : t.flusher <;> simp only [Serial.step, hflusher, true_or]
  split
  · exact .inr ⟨trivial, rfl⟩
  · exact .inl rfl

theorem faithful_flush (cpuCount : Nat) : Faithful (s.step (.flush cpuCount)) := by
  rcases step_flush_cases s.serial cpuCount with hstep | ⟨hidle, hstep⟩
  · rw [State.step, hstep]
    exact h
  · have hcompletes := h.completes
    simp only [Completes, hidle] at hcompletes
    rw [State.step, hstep]
    exact ⟨h.records, hcompletes⟩

theorem Faithful.quietly {chunks : List Chunk} (hprints : t.prints = s.serial.prints)
    (hcontents : ∀ cpu, (t.buffers cpu).contents = (s.serial.buffers cpu).contents)
    (hchunks : ∀ cpu, messagesOf cpu chunks = messagesOf cpu s.log.chunks)
    (hcompletes : Completes t { s.log with chunks }) : Faithful ⟨t, { s.log with chunks }⟩ := by
  refine ⟨fun cpu => ?_, hcompletes⟩
  simp only [Log.Records, hprints, hchunks]
  exact (h.records cpu).sameContents (hcontents cpu)

omit h in
theorem contents_setBuffer_takeDropped (t : Serial) (cpu c : Fin maxCpus) :
    ((t.setBuffer cpu (t.buffers cpu).takeDropped.2).buffers c).contents =
      (t.buffers c).contents := by
  by_cases hc : c = cpu
  · subst hc
    simp only [Serial.setBuffer, update_self, contents_takeDropped]
  · simp only [Serial.setBuffer, update_of_ne hc]

theorem faithful_visit {cpu : Fin maxCpus} {cpus : List (Fin maxCpus)}
    (hflusher : s.serial.flusher = .visit (cpu :: cpus)) (hguard : SendsWhole s) :
    Faithful (s.step .advance) := by
  have hcompletes := h.completes
  simp only [Completes, hflusher] at hcompletes
  simp only [SendsWhole, hflusher] at hguard
  simp only [State.step, Serial.step, Serial.advance, Log.record, hflusher]
  by_cases hdropped : 0 < (s.serial.buffers cpu).dropped
  · have hwhole := hguard hdropped
    obtain ⟨last, hsent, _⟩ := hcompletes
    rw [hwhole last, List.append_nil] at hsent
    simp only [PerCpuSerialBuffer.takeDropped, hdropped, if_true]
    refine h.quietly rfl (contents_setBuffer_takeDropped s.serial cpu)
      (fun c => messagesOf_marker c s.log.chunks) ⟨?_, hwhole⟩
    simp only [Serial.setBuffer, hsent, List.flatMap_append, List.flatMap_singleton]
    rfl
  · simp only [PerCpuSerialBuffer.takeDropped, hdropped, if_false]
    exact h.quietly rfl (contents_setBuffer_takeDropped s.serial cpu) (fun _ => rfl) hcompletes

theorem faithful_marker {cpu : Fin maxCpus} {cpus : List (Fin maxCpus)}
    (hflusher : s.serial.flusher = .marker cpu rest cpus) : Faithful (s.step .advance) := by
  have hcompletes := h.completes
  simp only [Completes, hflusher] at hcompletes
  obtain ⟨hsent, hwhole⟩ := hcompletes
  cases rest with
  | nil =>
    simp only [State.step, Serial.step, Serial.advance, Log.record, hflusher]
    refine h.quietly rfl (fun _ => rfl) (fun _ => rfl) ⟨cpu, ?_, fun c _ => hwhole c⟩
    rw [hwhole cpu]
    exact hsent
  | cons byte rest =>
    simp only [State.step, Serial.step, Serial.advance, Log.record, hflusher]
    refine h.quietly rfl (fun _ => rfl) (fun _ => rfl) ⟨?_, hwhole⟩
    rw [List.append_assoc]
    exact hsent

omit h in
theorem advance_drain {cpu : Fin maxCpus} {cpus : List (Fin maxCpus)}
    (hflusher : t.flusher = .drain cpu cpus) (hbyte : (t.buffers cpu).isEmpty = false) :
    t.advance = { t.setBuffer cpu (t.buffers cpu).popByte.2 with
      sent := t.sent ++ [(t.buffers cpu).data (t.buffers cpu).head] } := by
  simp only [Serial.advance, hflusher, PerCpuSerialBuffer.popByte, hbyte, Bool.false_eq_true,
    if_false]

theorem faithful_send {cpu : Fin maxCpus} {cpus : List (Fin maxCpus)}
    (hflusher : s.serial.flusher = .drain cpu cpus) (hbyte : (s.serial.buffers cpu).isEmpty = false)
    (hothers : ∀ c, c ≠ cpu → s.log.unsent c = []) :
    Faithful ⟨s.serial.advance, s.log.send cpu⟩ := by
  have hrecords := h.records cpu
  have hsent : s.serial.sent ++ s.log.unsent cpu = s.log.chunks.flatMap Chunk.bytes := by
    have hcompletes := h.completes
    simp only [Completes, hflusher] at hcompletes
    obtain ⟨last, hsent, hrest⟩ := hcompletes
    by_cases hlast : last = cpu
    · rw [← hlast]
      exact hsent
    · rw [hrest cpu (Ne.symm hlast), ← hothers last hlast]
      exact hsent
  rw [advance_drain hflusher hbyte]
  match hunsent : s.log.unsent cpu with
  | next :: later =>
    simp only [Log.Records, hunsent] at hrecords
    obtain ⟨rfl, hsend⟩ := hrecords.sendNext hbyte
    simp only [Log.send, hunsent]
    refine ⟨fun c => ?_, ?_⟩
    · by_cases hc : c = cpu
      · subst hc
        simp only [Log.Records, Serial.setBuffer, update_self]
        exact hsend
      · simp only [Log.Records, Serial.setBuffer, update_of_ne hc]
        exact h.records c
    · simp only [Completes, Serial.setBuffer, hflusher]
      refine ⟨cpu, ?_, fun c hc => ?_⟩
      · rw [update_self, ← hsent, hunsent, List.append_assoc]
        rfl
      · rw [update_of_ne hc]
        exact hothers c hc
  | [] =>
    simp only [Log.Records, hunsent] at hrecords
    obtain ⟨later, messages, hwaiting, hsend⟩ := hrecords.sendFirst hbyte
    simp only [Log.send, hunsent, hwaiting]
    refine ⟨fun c => ?_, ?_⟩
    · by_cases hc : c = cpu
      · subst hc
        simp only [Log.Records, Serial.setBuffer, update_self, messagesOf_self]
        exact hsend
      · simp only [Log.Records, Serial.setBuffer, update_of_ne hc, messagesOf_of_ne hc]
        exact h.records c
    · simp only [Completes, Serial.setBuffer, hflusher]
      refine ⟨cpu, ?_, fun c hc => ?_⟩
      · rw [hunsent, List.append_nil] at hsent
        rw [update_self, hsent, List.flatMap_append, List.flatMap_singleton, List.append_assoc]
        rfl
      · rw [update_of_ne hc]
        exact hothers c hc

theorem faithful_advance (hguard : SendsWhole s) : Faithful (s.step .advance) := by
  have hcompletes := h.completes
  match hflusher : s.serial.flusher with
  | .idle =>
    simp only [State.step, Serial.step, Serial.advance, Log.record, hflusher]
    exact h
  | .visit [] =>
    simp only [Completes, hflusher] at hcompletes
    simp only [State.step, Serial.step, Serial.advance, Log.record, hflusher]
    exact h.quietly rfl (fun _ => rfl) (fun _ => rfl) hcompletes
  | .visit (cpu :: cpus) => exact faithful_visit h hflusher hguard
  | .marker cpu rest cpus => exact faithful_marker h hflusher
  | .drain cpu cpus =>
    simp only [SendsWhole, hflusher] at hguard
    cases hbyte : (s.serial.buffers cpu).isEmpty with
    | false =>
      simp only [State.step, Serial.step, Log.record, hflusher, hbyte, Bool.false_eq_true, if_false]
      exact faithful_send h hflusher hbyte (hguard hbyte)
    | true =>
      simp only [Completes, hflusher] at hcompletes
      simp only [State.step, Serial.step, Serial.advance, Log.record, hflusher,
        PerCpuSerialBuffer.popByte, hbyte, if_true]
      exact h.quietly rfl (fun _ => rfl) (fun _ => rfl) hcompletes

theorem faithful_step {action : Action} (hguard : Undivided s action) :
    Faithful (s.step action) := by
  cases action with
  | print currentCpu text => exact faithful_print h currentCpu text
  | push cpu => exact faithful_push h hguard
  | flush cpuCount => exact faithful_flush h cpuCount
  | advance => exact faithful_advance h hguard

theorem Faithful.unsent_of_quiet (hquiet : Quiet s.serial) (cpu : Fin maxCpus) :
    s.log.unsent cpu = [] := by
  obtain ⟨hprints, hempty, _⟩ := hquiet
  have hqueue := (h.records cpu).queue
  rw [contents_empty _ (hempty cpu), hprints cpu] at hqueue
  simp only [Option.getD_none, ite_self, List.append_nil] at hqueue
  exact (List.append_eq_nil_iff.mp hqueue).1

theorem Faithful.wholeMessages : WholeMessages s := by
  have horder (cpu : Fin maxCpus) : (messagesOf cpu s.log.chunks).Sublist (s.log.printed cpu) := by
    refine (List.sublist_append_left _ (s.log.waiting cpu)).trans ?_
    refine (h.records cpu).order.trans ?_
    split
    · exact List.dropLast_sublist _
    · exact List.Sublist.refl _
  have hcompletes := h.completes
  cases hflusher : s.serial.flusher with
  | marker cpu rest cpus =>
    simp only [Completes, hflusher] at hcompletes
    refine ⟨s.log.chunks, rest, hcompletes.1, horder, ?_⟩
    rintro ⟨_, _, hidle⟩
    cases hflusher.symm.trans hidle
  | _ =>
    simp only [Completes, hflusher] at hcompletes
    obtain ⟨cpu, hsent, _⟩ := hcompletes
    exact ⟨s.log.chunks, s.log.unsent cpu, hsent, horder, fun hquiet =>
      h.unsent_of_quiet hquiet cpu⟩

end Steps

end Invariant

/-- If no message is stored in part, and none is sent in part before a byte of another
buffer or a marker, then the stream is made of whole messages. -/
theorem wholeMessages_of_undivided {actions : List Action}
    (h : Guarded State.step Undivided State.init actions) :
    WholeMessages (actions.foldl State.step State.init) := by
  refine Faithful.wholeMessages (invariant_of_guarded ?_ faithful_init h)
  intro s action hs hguard
  exact faithful_step hs hguard

end AuraOS.SerialOutput
