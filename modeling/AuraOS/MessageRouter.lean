import AuraOS.KeyedQueues

/-!
The message router between processes.  Every call locks the router, so an
interleaving of calls by any processes is a list of calls.  For each process
the messages accepted for it are, in order, those it has received followed by
those in its mailbox.
-/

namespace AuraOS.MessageRouter

open KeyedQueues

variable {router : IpcRouter} {pid : Nat}

def ipcPayloadMax : Nat := 64
def mailboxCapacity : Nat := 32

structure Message where
  sender : Nat
  target : Nat
  msgType : BitVec 32
  payload : Vector UInt8 ipcPayloadMax
  length : BitVec 32
deriving DecidableEq

def payloadOf (data : List UInt8) : Vector UInt8 ipcPayloadMax :=
  let length := min data.length ipcPayloadMax
  ⟨(data.take length ++ List.replicate (ipcPayloadMax - length) 0).toArray, by
    grind⟩

def Message.new (sender target : Nat) (msgType : BitVec 32) (data : List UInt8) : Message :=
  { sender, target, msgType
    payload := payloadOf data
    length := BitVec.ofNat 32 (min data.length ipcPayloadMax) }

structure IpcRouter where
  mailboxes : AList fun _ : Nat => List Message
  totalSent : UInt64
  totalDelivered : UInt64

def IpcRouter.new : IpcRouter :=
  { mailboxes := ∅, totalSent := 0, totalDelivered := 0 }

section Router

variable (router : IpcRouter)

/-- The mailboxes with one for `pid` among them. -/
def IpcRouter.getOrCreateMailbox (pid : Nat) : AList fun _ : Nat => List Message :=
  if pid ∈ router.mailboxes then router.mailboxes else router.mailboxes.insert pid []

def IpcRouter.send (msg : Message) : Bool × IpcRouter :=
  let mailboxes := router.getOrCreateMailbox msg.target
  let mailbox := queue mailboxes msg.target
  if mailbox.length ≥ mailboxCapacity then (false, { router with mailboxes })
  else
    (true, { router with
      mailboxes := mailboxes.insert msg.target (mailbox ++ [msg])
      totalSent := router.totalSent + 1 })

def IpcRouter.receive (myPid : Nat) : Option Message × IpcRouter :=
  match router.mailboxes.lookup myPid with
  | some (msg :: rest) =>
    (some msg, { router with
      mailboxes := router.mailboxes.insert myPid rest
      totalDelivered := router.totalDelivered + 1 })
  | some [] => (none, router)
  | none => (none, router)

def IpcRouter.mailbox (pid : Nat) : List Message :=
  queue router.mailboxes pid

theorem queue_getOrCreateMailbox (pid other : Nat) :
    queue (router.getOrCreateMailbox pid) other = router.mailbox other := by
  simp only [IpcRouter.getOrCreateMailbox, IpcRouter.mailbox]
  split
  · rfl
  · rename_i hnew
    by_cases h : other = pid
    · rw [h, queue_insert_self, queue_of_notMem hnew]
    · exact queue_insert_ne _ _ h

theorem pending_getOrCreateMailbox (pid : Nat) :
    pending (router.getOrCreateMailbox pid) = pending router.mailboxes := by
  rw [IpcRouter.getOrCreateMailbox]
  split
  · rfl
  · rename_i hnew
    have hcount := pending_insert router.mailboxes pid []
    rw [queue_of_notMem hnew] at hcount
    exact hcount

structure Queued (router router' : IpcRouter) (msg : Message) : Prop where
  target : router'.mailbox msg.target = router.mailbox msg.target ++ [msg]
  others : ∀ pid, pid ≠ msg.target → router'.mailbox pid = router.mailbox pid
  pending : pending router'.mailboxes = pending router.mailboxes + 1
  sent : router'.totalSent = router.totalSent + 1
  delivered : router'.totalDelivered = router.totalDelivered

structure Dequeued (router router' : IpcRouter) (pid : Nat) (msg : Message) : Prop where
  target : router.mailbox pid = msg :: router'.mailbox pid
  others : ∀ other, other ≠ pid → router'.mailbox other = router.mailbox other
  pending : pending router.mailboxes = pending router'.mailboxes + 1
  sent : router'.totalSent = router.totalSent
  delivered : router'.totalDelivered = router.totalDelivered + 1

theorem send_refused (msg : Message) (h : mailboxCapacity ≤ (router.mailbox msg.target).length) :
    router.send msg = (false, router) := by
  -- a full mailbox exists already, so none is created on the way
  have hmem : msg.target ∈ router.mailboxes := by
    by_contra hnew
    rw [IpcRouter.mailbox, queue_of_notMem hnew] at h
    cases h
  have hsame : router.getOrCreateMailbox msg.target = router.mailboxes := if_pos hmem
  simp only [IpcRouter.send, hsame]
  exact if_pos h

theorem send_queued (msg : Message) (h : (router.mailbox msg.target).length < mailboxCapacity) :
    ∃ router', router.send msg = (true, router') ∧ Queued router router' msg := by
  have hroom : ¬ (router.mailbox msg.target).length ≥ mailboxCapacity := Nat.not_le.mpr h
  refine ⟨_, by simp only [IpcRouter.send, queue_getOrCreateMailbox, if_neg hroom]; rfl, ?_⟩
  have hcount := pending_insert (router.getOrCreateMailbox msg.target) msg.target
    (router.mailbox msg.target ++ [msg])
  rw [queue_getOrCreateMailbox, pending_getOrCreateMailbox, List.length_append,
    List.length_singleton] at hcount
  refine ⟨queue_insert_self _ _ _, fun pid hpid => ?_, by simpa only using by omega, rfl, rfl⟩
  exact (queue_insert_ne _ _ hpid).trans (queue_getOrCreateMailbox _ _ _)

end Router

theorem receive_empty (h : router.mailbox pid = []) : router.receive pid = (none, router) := by
  cases hlookup : router.mailboxes.lookup pid with
  | none => simp only [IpcRouter.receive, hlookup]
  | some mailbox =>
    have hnil : mailbox = [] := by simpa [IpcRouter.mailbox, queue, hlookup] using h
    simp only [IpcRouter.receive, hlookup, hnil]

theorem receive_front {msg : Message} {rest : List Message} (h : router.mailbox pid = msg :: rest) :
    ∃ router', router.receive pid = (some msg, router') ∧ Dequeued router router' pid msg := by
  have hlookup : router.mailboxes.lookup pid = some (msg :: rest) := by
    cases hfound : router.mailboxes.lookup pid with
    | none => simp [IpcRouter.mailbox, queue, hfound] at h
    | some mailbox => simpa [IpcRouter.mailbox, queue, hfound] using h
  refine ⟨_, by simp only [IpcRouter.receive, hlookup]; rfl, ?_⟩
  have hcount := pending_insert router.mailboxes pid rest
  have hqueue : queue router.mailboxes pid = msg :: rest := h
  rw [hqueue, List.length_cons] at hcount
  refine ⟨?_, fun other hother => queue_insert_ne _ _ hother, by simpa only using by omega, rfl,
    rfl⟩
  rw [h]
  exact congrArg (msg :: ·) (queue_insert_self _ _ _).symm

/-- The arguments of `send_message`. -/
structure Send where
  sender : Nat
  target : Nat
  msgType : BitVec 32
  data : List UInt8
deriving DecidableEq

def Send.message (send : Send) : Message :=
  Message.new send.sender send.target send.msgType send.data

inductive IpcCall where
  | sendMessage (send : Send)
  | receiveMessage (myPid : Nat)
deriving DecidableEq

inductive IpcReply where
  | sent (queued : Bool)
  | received (msg : Option Message)
deriving DecidableEq

def IpcRouter.perform (router : IpcRouter) : IpcCall → IpcReply × IpcRouter
  | .sendMessage send => (.sent (router.send send.message).1, (router.send send.message).2)
  | .receiveMessage myPid => (.received (router.receive myPid).1, (router.receive myPid).2)

def IpcRouter.next (router : IpcRouter) (call : IpcCall) : IpcRouter :=
  (router.perform call).2

/-- The sends that a call of a history adds to those accepted for `pid`. -/
def acceptedBy (pid : Nat) (router : IpcRouter) (call : IpcCall) : List Send :=
  match call, (router.perform call).1 with
  | .sendMessage send, .sent true => if send.target = pid then [send] else []
  | _, _ => []

/-- The messages that a call of a history adds to those received by `pid`. -/
def receivedBy (pid : Nat) (router : IpcRouter) (call : IpcCall) : List Message :=
  match call, (router.perform call).1 with
  | .receiveMessage myPid, .received (some msg) => if myPid = pid then [msg] else []
  | _, _ => []

def routerAfter (calls : List IpcCall) : IpcRouter :=
  calls.foldl IpcRouter.next IpcRouter.new

def acceptedSends (pid : Nat) (calls : List IpcCall) : List Send :=
  logged IpcRouter.next (acceptedBy pid) IpcRouter.new calls

def receivedMessages (pid : Nat) (calls : List IpcCall) : List Message :=
  logged IpcRouter.next (receivedBy pid) IpcRouter.new calls

inductive Outcome (router : IpcRouter) : IpcCall → IpcReply × IpcRouter → Prop
  | refused {send : Send} (h : mailboxCapacity ≤ (router.mailbox send.target).length) :
      Outcome router (.sendMessage send) (.sent false, router)
  | queued {send : Send} {router' : IpcRouter}
      (hroom : (router.mailbox send.target).length < mailboxCapacity)
      (h : Queued router router' send.message) :
      Outcome router (.sendMessage send) (.sent true, router')
  | idle {pid : Nat} (h : router.mailbox pid = []) :
      Outcome router (.receiveMessage pid) (.received none, router)
  | dequeued {pid : Nat} {msg : Message} {router' : IpcRouter}
      (h : Dequeued router router' pid msg) :
      Outcome router (.receiveMessage pid) (.received (some msg), router')

theorem perform_outcome (router : IpcRouter) (call : IpcCall) :
    Outcome router call (router.perform call) := by
  cases call with
  | sendMessage send =>
    rcases Nat.lt_or_ge (router.mailbox send.target).length mailboxCapacity with h | h
    · obtain ⟨router', hsend, hqueued⟩ := send_queued router send.message h
      simp only [IpcRouter.perform, hsend]
      exact .queued h hqueued
    · simp only [IpcRouter.perform, send_refused router send.message h]
      exact .refused h
  | receiveMessage pid =>
    cases hmail : router.mailbox pid with
    | nil =>
      simp only [IpcRouter.perform, receive_empty hmail]
      exact .idle hmail
    | cons msg rest =>
      obtain ⟨router', hreceive, hdequeued⟩ := receive_front hmail
      simp only [IpcRouter.perform, hreceive]
      exact .dequeued hdequeued

theorem mailbox_next (pid : Nat) (router : IpcRouter) (call : IpcCall) :
    router.mailbox pid ++ (acceptedBy pid router call).map Send.message =
      receivedBy pid router call ++ (router.next call).mailbox pid := by
  have houtcome := perform_outcome router call
  simp only [acceptedBy, receivedBy, IpcRouter.next]
  generalize router.perform call = result at houtcome ⊢
  cases houtcome with
  | refused _ => simp
  | @queued send router' _ h =>
    by_cases hpid : send.target = pid
    · subst hpid
      simpa using (show router'.mailbox send.target =
        router.mailbox send.target ++ [send.message] from h.target).symm
    · have hsame := h.others pid fun heq => hpid heq.symm
      simp [hpid, hsame]
  | idle _ => simp
  | @dequeued other msg router' h =>
    by_cases hpid : other = pid
    · subst hpid
      simpa using h.target
    · have hsame := h.others pid fun heq => hpid heq.symm
      simp [hpid, hsame]

structure Accounted (router : IpcRouter) (calls : Nat) : Prop where
  capacity : ∀ pid, (router.mailbox pid).length ≤ mailboxCapacity
  counters : ∃ delivered, router.totalDelivered = UInt64.ofNat delivered ∧
    router.totalSent = UInt64.ofNat (delivered + pending router.mailboxes) ∧
    delivered + pending router.mailboxes ≤ calls

theorem accounted_new : Accounted IpcRouter.new 0 :=
  ⟨fun _ => by simp [IpcRouter.mailbox, IpcRouter.new], 0, rfl, rfl, Nat.le_refl 0⟩

theorem accounted_next {calls : Nat} (h : Accounted router calls) (call : IpcCall) :
    Accounted (router.next call) (calls + 1) := by
  obtain ⟨hcapacity, delivered, hdelivered, hsent, hcalls⟩ := h
  have houtcome := perform_outcome router call
  simp only [IpcRouter.next]
  generalize router.perform call = result at houtcome ⊢
  obtain ⟨reply, router'⟩ := result
  show Accounted router' (calls + 1)
  cases houtcome with
  | refused _ => exact ⟨hcapacity, delivered, hdelivered, hsent, by omega⟩
  | @queued send _ hroom h =>
    refine ⟨fun pid => ?_, delivered, h.delivered.trans hdelivered, ?_, ?_⟩
    · by_cases hpid : pid = send.message.target
      · rw [hpid, h.target, List.length_append, List.length_singleton]
        exact hroom
      · rw [h.others pid hpid]
        exact hcapacity pid
    · rw [h.sent, hsent, h.pending, ← Nat.add_assoc, UInt64.ofNat_add (_ + _)]
      rfl
    · rw [h.pending]
      omega
  | idle _ => exact ⟨hcapacity, delivered, hdelivered, hsent, by omega⟩
  | @dequeued pid msg _ h =>
    have hpending := h.pending
    refine ⟨fun other => ?_, delivered + 1, ?_, ?_, by omega⟩
    · by_cases hother : other = pid
      · have hlen := hcapacity pid
        rw [h.target, List.length_cons] at hlen
        rw [hother]
        omega
      · rw [h.others other hother]
        exact hcapacity other
    · rw [h.delivered, hdelivered, UInt64.ofNat_add]
      rfl
    · rw [h.sent, hsent, hpending]
      congr 1
      omega

theorem accounted_after (calls : List IpcCall) : Accounted (routerAfter calls) calls.length := by
  have hrun : ∀ (router : IpcRouter) (n : Nat), Accounted router n →
      Accounted (calls.foldl IpcRouter.next router) (n + calls.length) := by
    induction calls with
    | nil => exact fun _ _ h => h
    | cons call rest ih =>
      intro router n h
      rw [List.length_cons, Nat.add_comm rest.length, ← Nat.add_assoc]
      exact ih _ _ (accounted_next h call)
  simpa [routerAfter] using hrun _ _ accounted_new

structure Carries (send : Send) (msg : Message) : Prop where
  sender : msg.sender = send.sender
  target : msg.target = send.target
  msgType : msg.msgType = send.msgType
  length : msg.length.toNat = min send.data.length ipcPayloadMax
  payload : msg.payload.toList.take msg.length.toNat = send.data.take msg.length.toNat
  padding : ∀ i (h : i < ipcPayloadMax), msg.length.toNat ≤ i → msg.payload[i] = 0

theorem carries_message (send : Send) : Carries send send.message := by
  have hlength : send.message.length.toNat = min send.data.length ipcPayloadMax := by
    have hsmall : min send.data.length ipcPayloadMax < 2 ^ 32 :=
      Nat.lt_of_le_of_lt (Nat.min_le_right _ _) (by decide)
    simpa [Send.message, Message.new] using Nat.mod_eq_of_lt hsmall
  refine ⟨rfl, rfl, rfl, hlength, ?_, ?_⟩
  · rw [hlength]
    simp [Send.message, Message.new, payloadOf]
  · intro i hi hpast
    rw [hlength] at hpast
    simp only [Send.message, Message.new, payloadOf, Vector.getElem_mk, List.getElem_toArray]
    rw [List.getElem_append_right (by simpa using hpast)]
    exact List.getElem_replicate _

theorem mem_acceptedBy {call : IpcCall} {send : Send} (h : send ∈ acceptedBy pid router call) :
    send.target = pid ∧ call = .sendMessage send := by
  simp only [acceptedBy] at h
  split at h
  · split at h
    · rename_i htarget
      rw [List.mem_singleton] at h
      subst h
      exact ⟨htarget, rfl⟩
    · cases h
  · cases h

/-- Every interleaving of sends and receives delivers each accepted message
once and in order, within the capacity and with the counters in step. -/
theorem delivered_once_in_order (calls : List IpcCall) :
    (∀ pid, (acceptedSends pid calls).map Send.message =
      receivedMessages pid calls ++ (routerAfter calls).mailbox pid) ∧
    (∀ pid, ((routerAfter calls).mailbox pid).length ≤ 32) ∧
    (∀ send : Send,
      (((routerAfter calls).send send.message).1 = false ↔
        ((routerAfter calls).mailbox send.target).length = 32) ∧
      (((routerAfter calls).send send.message).1 = false →
        ((routerAfter calls).send send.message).2 = routerAfter calls)) ∧
    ((routerAfter calls).totalSent - (routerAfter calls).totalDelivered =
        UInt64.ofNat (pending (routerAfter calls).mailboxes) ∧
      (calls.length < 2 ^ 64 → (routerAfter calls).totalSent.toNat =
        (routerAfter calls).totalDelivered.toNat + pending (routerAfter calls).mailboxes)) ∧
    ∀ pid, ∀ send ∈ acceptedSends pid calls,
      send.target = pid ∧ .sendMessage send ∈ calls ∧ Carries send send.message := by
  have haccounted := accounted_after calls
  obtain ⟨delivered, hdelivered, hsent, hcalls⟩ := haccounted.counters
  refine ⟨fun pid => ?_, haccounted.capacity, fun send => ?_, ⟨?_, fun hshort => ?_⟩, ?_⟩
  · have hrun := logged_conserved (mailbox_next pid) IpcRouter.new calls
    rw [logged_map] at hrun
    exact hrun
  · have hbound := haccounted.capacity send.target
    rcases Nat.lt_or_ge ((routerAfter calls).mailbox send.target).length mailboxCapacity with h | h
    · obtain ⟨router', hsend, -⟩ := send_queued _ send.message h
      rw [hsend]
      simp only [Bool.true_eq_false, false_iff, false_implies, and_true]
      exact Nat.ne_of_lt h
    · rw [send_refused _ send.message h]
      exact ⟨⟨fun _ => Nat.le_antisymm hbound h, fun _ => rfl⟩, fun _ => rfl⟩
  · rw [hsent, hdelivered, UInt64.ofNat_add]
    rw [UInt64.add_comm]
    exact UInt64.add_sub_cancel _ _
  · have hsmall : delivered + pending (routerAfter calls).mailboxes < UInt64.size :=
      Nat.lt_of_le_of_lt hcalls hshort
    rw [hsent, hdelivered, UInt64.toNat_ofNat_of_lt' hsmall,
      UInt64.toNat_ofNat_of_lt' (Nat.lt_of_le_of_lt (Nat.le_add_right _ _) hsmall)]
  · intro pid send hmem
    obtain ⟨router, call, hcall, hlogged⟩ := mem_logged hmem
    obtain ⟨htarget, rfl⟩ := mem_acceptedBy hlogged
    exact ⟨htarget, hcall, carries_message send⟩

def IpcCall.owner : IpcCall → Nat
  | .sendMessage send => send.target
  | .receiveMessage myPid => myPid

def IpcCall.onMailbox (mail : List Message) : IpcCall → List Message
  | .sendMessage send => if mail.length < mailboxCapacity then mail ++ [send.message] else mail
  | .receiveMessage _ => mail.tail

theorem mailbox_next_eq (call : IpcCall) : (router.next call).mailbox pid =
    if call.owner = pid then call.onMailbox (router.mailbox pid) else router.mailbox pid := by
  have houtcome := perform_outcome router call
  rw [IpcRouter.next]
  generalize router.perform call = result at houtcome ⊢
  split_ifs with hpid
  · subst hpid
    cases houtcome with
    | refused h => exact (if_neg (Nat.not_lt.mpr h)).symm
    | queued hroom h => exact h.target.trans (if_pos hroom).symm
    | idle h => simp [IpcCall.onMailbox, IpcCall.owner, h]
    | dequeued h => exact (congrArg List.tail h.target).symm
  · cases houtcome with
    | refused | idle => rfl
    | queued _ h => exact h.others pid (Ne.symm hpid)
    | dequeued h => exact h.others pid (Ne.symm hpid)

/-- A mailbox is a bounded queue that only the calls about its own process work on. -/
theorem mailboxes_independent (pid : Nat) (calls : List IpcCall) : (routerAfter calls).mailbox pid =
    (calls.filter (·.owner = pid)).foldl IpcCall.onMailbox [] := by
  have hrun (router : IpcRouter) : (calls.foldl IpcRouter.next router).mailbox pid =
      (calls.filter (·.owner = pid)).foldl IpcCall.onMailbox (router.mailbox pid) := by
    induction calls generalizing router with
    | nil => rfl
    | cons call rest ih =>
      rw [List.foldl_cons, ih, mailbox_next_eq, List.filter_cons]
      split_ifs <;> simp_all
  exact hrun .new

end AuraOS.MessageRouter
