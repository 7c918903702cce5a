import AuraOS.SerialMessages

namespace AuraOS.SerialOutput

open GuardedRuns Function

variable {rest : List UInt8}

def Flusher.buffer : Flusher → Option (Fin maxCpus)
  | .marker cpu _ _ | .drain cpu _ => some cpu
  | .idle | .visit _ => none

def BeginsFree (t : Serial) : Prop :=
  match t.flusher with
  | .visit (cpu :: _) => t.prints cpu = none
  | _ => True

/-- A message is printed only into a buffer that has room for all of it and that the flusher
has not begun. -/
def Apart (t : Serial) : Action → Prop
  | .print currentCpu text =>
    t.prints (bufferOf currentCpu) = none →
      (t.buffers (bufferOf currentCpu)).len + (expand text).length < serialBufSize ∧
        t.flusher.buffer ≠ some (bufferOf currentCpu)
  | .push _ => True
  | .flush _ => True
  | .advance => BeginsFree t

instance instDecidableBeginsFree (t : Serial) : Decidable (BeginsFree t) := by
  unfold BeginsFree
  split <;> infer_instance

instance instDecidableApart (t : Serial) : DecidablePred (Apart t)
  | .print currentCpu text => inferInstanceAs (Decidable (t.prints (bufferOf currentCpu) = none →
      (t.buffers (bufferOf currentCpu)).len + (expand text).length < serialBufSize ∧
        t.flusher.buffer ≠ some (bufferOf currentCpu)))
  | .push _ => isTrue trivial
  | .flush _ => isTrue trivial
  | .advance => inferInstanceAs (Decidable (BeginsFree t))

section Invariant

/-- A message that is being printed has lost nothing, has room for what is left of it and is
not in the way of the flusher; only the buffer that is being drained has sent a message in
part. -/
structure Ordered (s : State) : Prop where
  faithful : Faithful s
  kept : ∀ cpu rest, s.serial.prints cpu = some rest → s.log.lost cpu = false
  room : ∀ cpu rest, s.serial.prints cpu = some rest →
    (s.serial.buffers cpu).len + rest.length < serialBufSize
  apart : ∀ cpu rest, s.serial.prints cpu = some rest → s.serial.flusher.buffer ≠ some cpu
  sent : ∀ cpu, s.serial.flusher.buffer ≠ some cpu → s.log.unsent cpu = []

variable {s : State}

theorem ordered_init : Ordered State.init where
  faithful := faithful_init
  kept := by rintro _ _ ⟨⟩
  room := by rintro _ _ ⟨⟩
  apart := by rintro _ _ ⟨⟩
  sent := fun _ _ => rfl

section Step

variable (h : Ordered s)
include h

theorem Ordered.not_full {cpu : Fin maxCpus} {byte : UInt8}
    (hprint : s.serial.prints cpu = some (byte :: rest)) :
    (s.serial.buffers cpu).isFull = false := by
  have hroom := h.room cpu _ hprint
  rw [List.length_cons] at hroom
  exact isFull_eq_false _ (by omega)

theorem Ordered.undivided (action : Action) : Undivided s action := by
  cases action with
  | print _ _ | flush _ => trivial
  | push cpu =>
    simp only [Undivided, StoresWhole]
    split
    · rename_i hprint
      rw [h.not_full hprint, if_neg (by simp)]
      exact h.kept cpu _ hprint
    · trivial
  | advance =>
    simp only [Undivided, SendsWhole]
    split
    · rename_i hflusher
      intro _ c
      exact h.sent c (by simp [hflusher, Flusher.buffer])
    · rename_i hflusher
      intro _ c hc
      exact h.sent c (by simpa [hflusher, Flusher.buffer] using hc.symm)
    · trivial

theorem Ordered.print {currentCpu : Nat} {text : List UInt8}
    (hguard : Apart s.serial (.print currentCpu text)) :
    Ordered (s.step (.print currentCpu text)) := by
  have hfaithful := faithful_step h.faithful (h.undivided (.print currentCpu text))
  simp only [State.step, Serial.step, Log.record] at hfaithful ⊢
  cases hprint : s.serial.prints (bufferOf currentCpu) with
  | some rest => exact h
  | none =>
    obtain ⟨hroom, hapart⟩ := hguard hprint
    rw [hprint] at hfaithful
    have hcases : ∀ cpu rest,
        update s.serial.prints (bufferOf currentCpu) (some (expand text)) cpu = some rest →
        cpu = bufferOf currentCpu ∧ rest = expand text ∨
          cpu ≠ bufferOf currentCpu ∧ s.serial.prints cpu = some rest := by
      intro cpu rest hrest
      by_cases hcpu : cpu = bufferOf currentCpu
      · rw [hcpu, update_self, Option.some.injEq] at hrest
        exact .inl ⟨hcpu, hrest.symm⟩
      · rw [update_of_ne hcpu] at hrest
        exact .inr ⟨hcpu, hrest⟩
    refine ⟨hfaithful, fun cpu rest hrest => ?_, fun cpu rest hrest => ?_,
      fun cpu rest hrest => ?_, h.sent⟩
    · rcases hcases cpu rest hrest with ⟨rfl, -⟩ | ⟨hne, hold⟩
      · exact update_self _ _ _
      · exact (update_of_ne hne _ _).trans (h.kept cpu rest hold)
    · rcases hcases cpu rest hrest with ⟨rfl, rfl⟩ | ⟨-, hold⟩
      · exact hroom
      · exact h.room cpu rest hold
    · rcases hcases cpu rest hrest with ⟨rfl, -⟩ | ⟨-, hold⟩
      · exact hapart
      · exact h.apart cpu rest hold

theorem Ordered.push (cpu : Fin maxCpus) : Ordered (s.step (.push cpu)) := by
  have hfaithful := faithful_step h.faithful (h.undivided (.push cpu))
  simp only [State.step, Serial.step, Log.record] at hfaithful ⊢
  rcases hprint : s.serial.prints cpu with _ | _ | ⟨byte, rest⟩
  · exact h
  · rw [hprint] at hfaithful
    have hold : ∀ c rest, update s.serial.prints cpu none c = some rest →
        s.serial.prints c = some rest := by
      intro c rest hrest
      by_cases hc : c = cpu
      · rw [hc, update_self] at hrest
        cases hrest
      · rwa [update_of_ne hc] at hrest
    exact ⟨hfaithful, fun c rest hrest => h.kept c rest (hold c rest hrest),
      fun c rest hrest => h.room c rest (hold c rest hrest),
      fun c rest hrest => h.apart c rest (hold c rest hrest), h.sent⟩
  · have hfull := h.not_full hprint
    rw [hprint] at hfaithful
    simp only [hfull, Bool.false_eq_true, if_false] at hfaithful ⊢
    refine ⟨hfaithful, fun c left hleft => ?_, fun c left hleft => ?_, fun c left hleft => ?_,
      h.sent⟩
    all_goals
      simp only [Serial.setPrint, Serial.setBuffer] at hleft ⊢
      by_cases hc : c = cpu
    · rw [hc]
      exact h.kept cpu _ hprint
    · rw [update_of_ne hc] at hleft
      exact h.kept c left hleft
    · subst hc
      rw [update_self, Option.some.injEq] at hleft
      have hroom := h.room c _ hprint
      rw [List.length_cons] at hroom
      rw [update_self, len_pushByte _ hfull, ← hleft]
      omega
    · rw [update_of_ne hc] at hleft
      rw [update_of_ne hc]
      exact h.room c left hleft
    · rw [hc]
      exact h.apart cpu _ hprint
    · rw [update_of_ne hc] at hleft
      exact h.apart c left hleft

/-- A step of the flusher that changes only the counts of lost bytes and where the flusher
stands. -/
theorem Ordered.moved {t : Serial} {chunks : List Chunk}
    (hfaithful : Faithful ⟨t, { s.log with chunks }⟩) (hprints : t.prints = s.serial.prints)
    (hlen : ∀ cpu, (t.buffers cpu).len = (s.serial.buffers cpu).len)
    (hapart : ∀ cpu rest, s.serial.prints cpu = some rest → t.flusher.buffer ≠ some cpu)
    (hsent : ∀ cpu, t.flusher.buffer ≠ some cpu → s.log.unsent cpu = []) :
    Ordered ⟨t, { s.log with chunks }⟩ := by
  refine ⟨hfaithful, ?_, ?_, ?_, hsent⟩
  · rw [hprints]
    exact h.kept
  · rw [hprints]
    intro cpu rest hrest
    rw [hlen cpu]
    exact h.room cpu rest hrest
  · rw [hprints]
    exact hapart

theorem Ordered.flush (cpuCount : Nat) : Ordered (s.step (.flush cpuCount)) := by
  have hfaithful := faithful_flush h.faithful cpuCount
  rcases step_flush_cases s.serial cpuCount with hstep | ⟨hidle, hstep⟩
  · rw [State.step, hstep]
    exact h
  · rw [State.step, hstep] at hfaithful ⊢
    refine h.moved hfaithful rfl (fun _ => rfl)
      (fun _ _ _ => by simp [Flusher.buffer]) fun cpu _ => ?_
    exact h.sent cpu (by simp [hidle, Flusher.buffer])

theorem Ordered.visit {cpu : Fin maxCpus} {cpus : List (Fin maxCpus)}
    (hflusher : s.serial.flusher = .visit (cpu :: cpus)) (hfree : s.serial.prints cpu = none) :
    Ordered (s.step .advance) := by
  have hfaithful := faithful_visit h.faithful hflusher (h.undivided .advance)
  have hsent : ∀ c, s.log.unsent c = [] := fun c => h.sent c (by simp [hflusher, Flusher.buffer])
  have hlen : ∀ c, ((s.serial.setBuffer cpu (s.serial.buffers cpu).takeDropped.2).buffers c).len =
      (s.serial.buffers c).len := by
    intro c
    by_cases hc : c = cpu
    · subst hc
      simp only [Serial.setBuffer, update_self]
      rfl
    · simp only [Serial.setBuffer, update_of_ne hc]
  have hapart : ∀ c rest, s.serial.prints c = some rest → some cpu ≠ some c := by
    rintro c rest hrest ⟨⟩
    rw [hfree] at hrest
    cases hrest
  simp only [State.step, Serial.step, Serial.advance, Log.record, hflusher] at hfaithful ⊢
  by_cases hdropped : 0 < (s.serial.buffers cpu).dropped
  · simp only [PerCpuSerialBuffer.takeDropped, hdropped, if_true] at hfaithful ⊢
    exact h.moved hfaithful rfl hlen hapart fun c _ => hsent c
  · simp only [PerCpuSerialBuffer.takeDropped, hdropped, if_false] at hfaithful ⊢
    exact h.moved hfaithful rfl hlen hapart fun c _ => hsent c

theorem Ordered.not_printing {cpu : Fin maxCpus} (hbuffer : s.serial.flusher.buffer = some cpu) :
    s.serial.prints cpu = none := by
  cases hprint : s.serial.prints cpu with
  | none => rfl
  | some rest => exact absurd hbuffer (h.apart cpu rest hprint)

omit h in
theorem send_of_ne (log : Log) {cpu c : Fin maxCpus} (hc : c ≠ cpu) :
    (log.send cpu).unsent c = log.unsent c := by
  simp only [Log.send]
  split
  · exact update_of_ne hc _ _
  · exact update_of_ne hc _ _
  · rfl

omit h in
theorem lost_send (log : Log) (cpu : Fin maxCpus) : (log.send cpu).lost = log.lost := by
  simp only [Log.send]
  split <;> rfl

theorem Ordered.drain {cpu : Fin maxCpus} {cpus : List (Fin maxCpus)}
    (hflusher : s.serial.flusher = .drain cpu cpus) : Ordered (s.step .advance) := by
  have hfaithful := faithful_advance h.faithful (h.undivided .advance)
  have hbuffer : s.serial.flusher.buffer = some cpu := by rw [hflusher, Flusher.buffer]
  have hidle := h.not_printing hbuffer
  cases hbyte : (s.serial.buffers cpu).isEmpty with
  | true =>
    have hqueue := (h.faithful.records cpu).queue
    rw [contents_empty _ hbyte, hidle, Option.getD_none, ite_self, List.append_nil] at hqueue
    simp only [State.step, Serial.step, Serial.advance, Log.record, hflusher,
      PerCpuSerialBuffer.popByte, hbyte, if_true] at hfaithful ⊢
    refine h.moved hfaithful rfl (fun _ => rfl)
      (fun _ _ _ => by simp [Flusher.buffer]) fun c _ => ?_
    by_cases hc : c = cpu
    · rw [hc]
      exact (List.append_eq_nil_iff.mp hqueue).1
    · exact h.sent c (by simpa [hbuffer] using Ne.symm hc)
  | false =>
    simp only [State.step, Serial.step, Log.record, hflusher, hbyte, Bool.false_eq_true, if_false,
      advance_drain hflusher hbyte] at hfaithful ⊢
    have hother : ∀ c rest, s.serial.prints c = some rest → c ≠ cpu := by
      rintro c rest hrest rfl
      rw [hidle] at hrest
      cases hrest
    refine ⟨hfaithful, ?_, fun c rest hrest => ?_, h.apart, fun c hc => ?_⟩
    · rw [lost_send]
      exact h.kept
    · simp only [Serial.setBuffer, update_of_ne (hother c rest hrest)]
      exact h.room c rest hrest
    · have hne : c ≠ cpu := by
        rintro rfl
        exact hc hbuffer
      exact (send_of_ne s.log hne).trans (h.sent c hc)

theorem Ordered.advance (hguard : Apart s.serial .advance) : Ordered (s.step .advance) := by
  have hfaithful := faithful_advance h.faithful (h.undivided .advance)
  cases hflusher : s.serial.flusher with
  | idle =>
    simp only [State.step, Serial.step, Serial.advance, Log.record, hflusher]
    exact h
  | visit cpus =>
    cases cpus with
    | nil =>
      simp only [State.step, Serial.step, Serial.advance, Log.record, hflusher] at hfaithful ⊢
      refine h.moved hfaithful rfl (fun _ => rfl)
        (fun _ _ _ => by simp [Flusher.buffer]) fun c _ => ?_
      exact h.sent c (by simp [hflusher, Flusher.buffer])
    | cons cpu cpus =>
      simp only [Apart, BeginsFree, hflusher] at hguard
      exact h.visit hflusher hguard
  | marker cpu rest cpus =>
    have hbuffer : s.serial.flusher.buffer = some cpu := by rw [hflusher, Flusher.buffer]
    have hapart := h.apart
    have hsent := h.sent
    rw [hbuffer] at hapart hsent
    cases rest <;>
      simp only [State.step, Serial.step, Serial.advance, Log.record, hflusher] at hfaithful ⊢ <;>
      exact h.moved hfaithful rfl (fun _ => rfl) hapart hsent
  | drain cpu cpus => exact h.drain hflusher

theorem Ordered.step {action : Action} (hguard : Apart s.serial action) :
    Ordered (s.step action) := by
  cases action with
  | print currentCpu text => exact h.print hguard
  | push cpu => exact h.push cpu
  | flush cpuCount => exact h.flush cpuCount
  | advance => exact h.advance hguard

end Step

theorem undivided_of_apart {actions : List Action} (h : Ordered s)
    (hrun : Guarded Serial.step Apart s.serial actions) :
    Guarded State.step Undivided s actions := by
  induction actions generalizing s with
  | nil => trivial
  | cons action rest ih => exact ⟨h.undivided action, ih (h.step hrun.1) hrun.2⟩

end Invariant

/-- If every message finds room for all of it in a buffer that is not being drained, and the
flusher begins a buffer only while nothing is being printed into it, then the stream is made
of whole messages at every time. -/
theorem wholeMessages_of_apart (actions : List Action)
    (h : Guarded Serial.step Apart Serial.init actions) (time : Nat) :
    WholeMessages ((actions.take time).foldl State.step State.init) := by
  rw [← List.take_append_drop time actions, guarded_append] at h
  exact wholeMessages_of_undivided (undivided_of_apart ordered_init h.1)

/-- Processors 1 and 2 print `ab` and `c`, and all three buffers are flushed. -/
def flushedRun : List Action :=
  [.print 1 [0x61, 0x62], .print 2 [0x63], .push 1, .push 2, .push 1, .push 2, .push 1, .flush 3] ++
    List.replicate 10 .advance

theorem wholeMessages_flushedRun :
    (flushedRun.foldl State.step State.init).serial.sent = [0x61, 0x62, 0x63] ∧
      WholeMessages ((flushedRun.take 18).foldl State.step State.init) := by
  exact ⟨by decide +kernel, wholeMessages_of_apart flushedRun (by decide +kernel) 18⟩

def dividedRun : List Action :=
  [.print 1 [0x61, 0x62], .print 2 [0x63], .push 1, .push 2, .flush 3] ++ List.replicate 7 .advance

theorem message_divided : ¬ WholeMessages (dividedRun.foldl State.step State.init) := by
  rintro ⟨chunks, rest, hbytes, horder, _⟩
  have hsent : (dividedRun.foldl State.step State.init).serial.sent = [0x61, 0x63] := by
    decide +kernel
  have hprinted : ∀ cpu, ∀ message ∈ (dividedRun.foldl State.step State.init).log.printed cpu,
      message = [0x61, 0x62] ∨ message = [0x63] := by
    decide +kernel
  rw [hsent] at hbytes
  match chunks with
  | [] => cases hbytes
  | .marker :: _ => simp [Chunk.bytes, droppedMarker] at hbytes
  | .message cpu message :: later =>
    have hmem : message ∈ messagesOf cpu (.message cpu message :: later) := by
      simp [messagesOf, Chunk.messageOf]
    rcases hprinted cpu message ((horder cpu).subset hmem) with rfl | rfl
    · simp [Chunk.bytes] at hbytes
    · simp [Chunk.bytes] at hbytes

end AuraOS.SerialOutput
