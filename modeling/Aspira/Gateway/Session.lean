import Aspira.Support.Text

/-!
# Gateway — Session

`execution_gateway.c` from `gw_init` on: any calls in any order, with whatever the callback calls in
turn.  `gw_send_order` calls the callback in the middle, when the order is counted as acknowledged
and not yet as sent, so a call is a tree: `onAck` are the calls that the callback makes if it is
called.

`GwEvent`s are what a session does, in order.  `Lawful` says when each of them may come, by what has
come before, and `Answers` says which calls they come from: an order that is accepted is written and
sent, one that is not is refused, and the calls of the callback are answered in between.
-/

namespace Aspira

/-- `gw_conn_state_t`, less the states that nothing sets. -/
inductive GwConnState where
  | disconnected
  | connected
  deriving DecidableEq

/-- What a gateway does. -/
inductive GwEvent (K : Type) where
  /-- A line for an order is written to the log. -/
  | written (now : UInt64) (msg : List UInt8) (orderId : Int32)
  /-- The callback is called, to accept an order. -/
  | ack (cb : K) (orderId : Int32)
  /-- `gw_send_order` returns 0. -/
  | sent
  /-- `gw_send_order` returns -1. -/
  | refused (msg : Option (List UInt8)) (msgLen : UInt32)
  /-- `gw_shutdown` reports its counters. -/
  | shutdown (ordersSent ordersAcked ordersRejected : UInt64)
  /-- `gw_set_ack_callback` sets a callback, or none. -/
  | callback (cb : Option K)
  /-- `gw_pending_acks` returns. -/
  | pending (acks : UInt32)
  deriving DecidableEq

/-- `execution_gateway_t`; `simFile` is what the log file has, and `log` is a record of the session. -/
structure ExecutionGateway (K : Type) where
  state : GwConnState
  simFile : Option (List UInt8)
  ackCb : Option K
  ordersSent : UInt64
  ordersAcked : UInt64
  ordersRejected : UInt64
  log : List (GwEvent K)

/-- A call; `onAck` are the calls of the callback. -/
inductive GwCall (K : Type) where
  | sendOrder (msg : Option (List UInt8)) (msgLen : UInt32) (orderId : Int32) (now : UInt64)
      (onAck : List (GwCall K))
  | shutdown
  | setAckCallback (cb : Option K)
  | pendingAcks

/-- What `gw_init` is given: the mode, whether there is a host, and the log file, if it can be
opened. -/
structure GwConfig where
  simulationMode : Bool
  host : Bool
  simLogFile : Option (List UInt8)

namespace ExecutionGateway

variable {K : Type}

/-- What `gw_init` writes to the log. -/
def startText (now : UInt64) : List UInt8 :=
  text "=== Execution Gateway Started at " ++ decimal now.toNat ++ text " ===\n"

/-- What `gw_send_order` writes to the log. -/
def sendText (now : UInt64) (msg : List UInt8) : List UInt8 :=
  text "SEND | " ++ decimal now.toNat ++ text " | " ++ msg ++ text "\n"

/-- What `gw_shutdown` writes to the log. -/
def shutdownText (ordersSent ordersAcked ordersRejected : UInt64) : List UInt8 :=
  text "=== Execution Gateway Shutdown ===\n" ++
    text "  Orders sent:     " ++ decimal ordersSent.toNat ++ text "\n" ++
    text "  Orders acked:    " ++ decimal ordersAcked.toNat ++ text "\n" ++
    text "  Orders rejected: " ++ decimal ordersRejected.toNat ++ text "\n"

/-- `gw_init`. -/
def init (config : GwConfig) (now : UInt64) : ExecutionGateway K where
  state := if config.simulationMode || config.host then .connected else .disconnected
  simFile := if config.simulationMode then config.simLogFile.map (· ++ startText now) else none
  ackCb := none
  ordersSent := 0
  ordersAcked := 0
  ordersRejected := 0
  log := []

/-- One more event. -/
def note (gw : ExecutionGateway K) (e : GwEvent K) : ExecutionGateway K :=
  { gw with log := gw.log ++ [e] }

/-- The message that `gw_send_order` would send. -/
def admits (gw : ExecutionGateway K) (msg : Option (List UInt8)) (msgLen : UInt32) :
    Option (List UInt8) :=
  if msgLen = 0 ∨ gw.state ≠ .connected then none else msg

/-- `gw_send_order` up to the callback. -/
def write (gw : ExecutionGateway K) (file : List UInt8) (now : UInt64) (msg : List UInt8)
    (orderId : Int32) : ExecutionGateway K :=
  { gw with
    simFile := some (file ++ sendText now (cstr msg))
    ordersAcked := gw.ordersAcked + 1
    log := gw.log ++ [.written now (cstr msg) orderId] }

/-- The rest of `gw_send_order`. -/
def count (gw : ExecutionGateway K) : ExecutionGateway K :=
  { gw with ordersSent := gw.ordersSent + 1, log := gw.log ++ [.sent] }

/-- `gw_shutdown`. -/
def shutdown (gw : ExecutionGateway K) : ExecutionGateway K :=
  { gw with
    simFile := gw.simFile.map
      (· ++ shutdownText gw.ordersSent gw.ordersAcked gw.ordersRejected)
    state := .disconnected
    log := gw.log ++ [.shutdown gw.ordersSent gw.ordersAcked gw.ordersRejected] }

/-- `gw_pending_acks`. -/
def pendingAcks (gw : ExecutionGateway K) : UInt32 := (gw.ordersSent - gw.ordersAcked).toUInt32

mutual

/-- A call. -/
def call (gw : ExecutionGateway K) : GwCall K → ExecutionGateway K
  | .sendOrder msg msgLen orderId now onAck =>
      match gw.admits msg msgLen with
      | none => gw.note (.refused msg msgLen)
      | some m =>
          match gw.simFile with
          | none => gw.count
          | some file =>
              let gw := gw.write file now m orderId
              match gw.ackCb with
              | none => gw.count
              | some cb => (calls (gw.note (.ack cb orderId)) onAck).count
  | .shutdown => gw.shutdown
  | .setAckCallback cb => { gw with ackCb := cb, log := gw.log ++ [.callback cb] }
  | .pendingAcks => gw.note (.pending gw.pendingAcks)

/-- Calls one after the other. -/
def calls (gw : ExecutionGateway K) : List (GwCall K) → ExecutionGateway K
  | [] => gw
  | c :: cs => calls (gw.call c) cs

end

end ExecutionGateway

/-! ### The events of a session -/

namespace GwEvent

variable {K : Type}

/-- What an event writes to the log file. -/
def bytes : GwEvent K → List UInt8
  | .written now msg _ => ExecutionGateway.sendText now msg
  | .shutdown s a r => ExecutionGateway.shutdownText s a r
  | .ack .. | .sent | .refused .. | .callback _ | .pending _ => []

def isWritten : GwEvent K → Bool
  | .written .. => true
  | .ack .. | .sent | .refused .. | .shutdown .. | .callback _ | .pending _ => false

def isSent : GwEvent K → Bool
  | .sent => true
  | .written .. | .ack .. | .refused .. | .shutdown .. | .callback _ | .pending _ => false

def isShutdown : GwEvent K → Bool
  | .shutdown .. => true
  | .written .. | .ack .. | .sent | .refused .. | .callback _ | .pending _ => false

/-- The callback after an event. -/
def callbackAfter (cb : Option K) : GwEvent K → Option K
  | .callback cb' => cb'
  | .written .. | .ack .. | .sent | .refused .. | .shutdown .. | .pending _ => cb

/-- The callback after some events. -/
def current (es : List (GwEvent K)) : Option K := es.foldl callbackAfter none

/-- The right moment for an event: the line for an order is followed by its acknowledgement, or if
there is no callback by the return, and an acknowledgement follows nothing else. -/
def Follows (es : List (GwEvent K)) (e : GwEvent K) : Prop :=
  match es.getLast? with
  | some (.written _ _ orderId) =>
      match current es with
      | some cb => e = .ack cb orderId
      | none => e = .sent
  | _ => ∀ cb orderId, e ≠ .ack cb orderId

/-- What an event says is right; `file` and `connected` are what `gw_init` left. -/
def Right (file connected : Bool) (es : List (GwEvent K)) : GwEvent K → Prop
  | .written .. => file = true ∧ connected = true ∧ es.any isShutdown = false
  | .ack .. | .callback _ => True
  | .sent =>
      if file then es.countP isSent < es.countP isWritten
      else connected = true ∧ es.any isShutdown = false
  | .refused msg msgLen =>
      msg = none ∨ msgLen = 0 ∨ connected = false ∨ es.any isShutdown = true
  | .shutdown s a r =>
      s = UInt64.ofNat (es.countP isSent) ∧ a = UInt64.ofNat (es.countP isWritten) ∧ r = 0
  | .pending acks =>
      acks = UInt32.ofNat (es.countP isSent) - UInt32.ofNat (es.countP isWritten)

/-- Every event comes at the right moment, and what it says is right. -/
def Lawful (file connected : Bool) (es : List (GwEvent K)) : Prop :=
  ∀ pre e post, es = pre ++ e :: post → Follows pre e ∧ Right file connected pre e

theorem Lawful.concat {file connected : Bool} {es : List (GwEvent K)} {e : GwEvent K}
    (h : Lawful file connected es) (hf : Follows es e) (hr : Right file connected es e) :
    Lawful file connected (es ++ [e]) := by
  intro pre e' post heq
  rcases List.eq_nil_or_concat post with rfl | ⟨post, last, rfl⟩
  · obtain ⟨rfl, he⟩ := List.append_inj' heq rfl
    cases he
    exact ⟨hf, hr⟩
  · have heq' : es ++ [e] = pre ++ e' :: post ++ [last] := by
      rw [heq, List.append_assoc, List.cons_append, List.concat_eq_append]
    obtain ⟨hes, -⟩ := List.append_inj' heq' rfl
    exact h pre e' post hes

theorem current_concat (es : List (GwEvent K)) (e : GwEvent K) :
    current (es ++ [e]) = callbackAfter (current es) e := by
  rw [current, List.foldl_append]
  rfl

/-- `gw_send_order` accepts the message `m`: it is given one, the gateway was connected, and there has
been no `gw_shutdown`. -/
structure Accepts (connected : Bool) (pre : List (GwEvent K)) (msg : Option (List UInt8))
    (msgLen : UInt32) (m : List UInt8) : Prop where
  msg : msg = some m
  msgLen : msgLen ≠ 0
  connected : connected = true
  running : pre.any isShutdown = false

mutual

/-- The events of a call that comes after `pre`. -/
inductive Answer (file connected : Bool) : List (GwEvent K) → GwCall K → List (GwEvent K) → Prop
  | refused {pre msg msgLen orderId now onAck} (h : ∀ m, ¬ Accepts connected pre msg msgLen m) :
      Answer file connected pre (.sendOrder msg msgLen orderId now onAck) [.refused msg msgLen]
  /-- There is no log file, and then nothing is acknowledged. -/
  | silent {pre msg msgLen orderId now onAck m} (h : Accepts connected pre msg msgLen m)
      (hfile : file = false) :
      Answer file connected pre (.sendOrder msg msgLen orderId now onAck) [.sent]
  | unacked {pre msg msgLen orderId now onAck m} (h : Accepts connected pre msg msgLen m)
      (hfile : file = true) (hcb : current pre = none) :
      Answer file connected pre (.sendOrder msg msgLen orderId now onAck)
        [.written now (cstr m) orderId, .sent]
  /-- The order is acknowledged to the callback, which makes its calls. -/
  | acked {pre msg msgLen orderId now onAck m cb es} (h : Accepts connected pre msg msgLen m)
      (hfile : file = true) (hcb : current pre = some cb)
      (hes : Answers file connected (pre ++ [.written now (cstr m) orderId, .ack cb orderId])
        onAck es) :
      Answer file connected pre (.sendOrder msg msgLen orderId now onAck)
        (.written now (cstr m) orderId :: .ack cb orderId :: es ++ [.sent])
  | shutdown {pre s a r} : Answer file connected pre .shutdown [.shutdown s a r]
  | callback {pre cb} : Answer file connected pre (.setAckCallback cb) [.callback cb]
  | pending {pre acks} : Answer file connected pre .pendingAcks [.pending acks]

/-- The events of calls, one after the other. -/
inductive Answers (file connected : Bool) :
    List (GwEvent K) → List (GwCall K) → List (GwEvent K) → Prop
  | nil {pre} : Answers file connected pre [] []
  | cons {pre c cs es es'} (h : Answer file connected pre c es)
      (hs : Answers file connected (pre ++ es) cs es') :
      Answers file connected pre (c :: cs) (es ++ es')

end

theorem Answer.single {file connected : Bool} {pre es : List (GwEvent K)} {c : GwCall K}
    (h : Answer file connected pre c es) : Answers file connected pre [c] es := by
  have hs := Answers.cons h .nil
  rw [List.append_nil] at hs
  exact hs

end GwEvent

namespace ExecutionGateway

open GwEvent

variable {K : Type} {base : Option (List UInt8)} {connected : Bool} {gw gw' : ExecutionGateway K}

/-- The gateway is what its events say; `base` is what `gw_init` left in the log file. -/
structure Kept (base : Option (List UInt8)) (connected : Bool) (gw : ExecutionGateway K) : Prop where
  simFile : gw.simFile = base.map (· ++ gw.log.flatMap bytes)
  sent : gw.ordersSent = UInt64.ofNat (gw.log.countP isSent)
  acked : gw.ordersAcked = UInt64.ofNat (gw.log.countP isWritten)
  rejected : gw.ordersRejected = 0
  ackCb : gw.ackCb = current gw.log
  state : gw.state =
    if connected = true ∧ gw.log.any isShutdown = false then .connected else .disconnected
  open_le : base.isSome = true → gw.log.countP isSent ≤ gw.log.countP isWritten
  lawful : Lawful base.isSome connected gw.log

/-- No order is between its line and what follows it. -/
def Settled (gw : ExecutionGateway K) : Prop :=
  ∀ now msg orderId, gw.log.getLast? ≠ some (.written now msg orderId)

/-- What an event does to the gateway. -/
structure Notes (gw : ExecutionGateway K) (e : GwEvent K) (gw' : ExecutionGateway K) : Prop where
  log : gw'.log = gw.log ++ [e]
  simFile : gw'.simFile = gw.simFile.map (· ++ e.bytes)
  sent : gw'.ordersSent = gw.ordersSent + if e.isSent then 1 else 0
  acked : gw'.ordersAcked = gw.ordersAcked + if e.isWritten then 1 else 0
  rejected : gw'.ordersRejected = gw.ordersRejected
  ackCb : gw'.ackCb = callbackAfter gw.ackCb e
  state : gw'.state = if e.isShutdown then .disconnected else gw.state

theorem ofNat_countP (p : GwEvent K → Bool) (es : List (GwEvent K)) (e : GwEvent K) :
    UInt64.ofNat ((es ++ [e]).countP p) = UInt64.ofNat (es.countP p) + if p e then 1 else 0 := by
  rw [List.countP_append, List.countP_singleton]
  split
  · exact UInt64.ofNat_add ..
  · exact (UInt64.add_zero _).symm

/-- **An event** at its moment keeps the gateway what its events say. -/
theorem Kept.notes {e : GwEvent K} (h : Kept base connected gw) (hn : Notes gw e gw')
    (hf : Follows gw.log e) (hr : Right base.isSome connected gw.log e) :
    Kept base connected gw' where
  simFile := by
    rw [hn.simFile, h.simFile, hn.log, Option.map_map, List.flatMap_append, List.flatMap_singleton]
    congr 1
    funext bytes
    exact List.append_assoc ..
  sent := by rw [hn.sent, h.sent, hn.log, ofNat_countP]
  acked := by rw [hn.acked, h.acked, hn.log, ofNat_countP]
  rejected := hn.rejected.trans h.rejected
  ackCb := by rw [hn.ackCb, h.ackCb, hn.log, current_concat]
  state := by
    rw [hn.state, h.state, hn.log, List.any_append]
    cases he : e.isShutdown <;> simp [he]
  open_le := by
    intro hfile
    have hle := h.open_le hfile
    rw [hn.log, List.countP_append, List.countP_append, List.countP_singleton,
      List.countP_singleton]
    cases e with
    | sent =>
      have hlt : gw.log.countP isSent < gw.log.countP isWritten := by
        rw [Right, if_pos hfile] at hr
        exact hr
      simp only [isSent, isWritten, if_true, Bool.false_eq_true, if_false]
      omega
    | written | ack | refused | shutdown | callback | pending =>
      simp only [isSent, isWritten, Bool.false_eq_true, if_false]
      omega
  lawful := by
    rw [hn.log]
    exact h.lawful.concat hf hr

theorem Settled.follows {e : GwEvent K} (h : gw.Settled) (he : ∀ cb orderId, e ≠ .ack cb orderId) :
    Follows gw.log e := by
  unfold Follows
  split
  · rename_i hlast
    exact absurd hlast (h _ _ _)
  · exact he

theorem Notes.settled {e : GwEvent K} (h : Notes gw e gw')
    (he : ∀ now msg orderId, e ≠ .written now msg orderId) : gw'.Settled := by
  intro now msg orderId hlast
  rw [h.log, List.getLast?_concat] at hlast
  exact he _ _ _ (Option.some.inj hlast)

/-! ### Calls -/

/-- What calls do: their events are theirs and leave no order open, and the gateway is what its events
say. -/
structure Goes (base : Option (List UInt8)) (connected : Bool) (cs : List (GwCall K))
    (gw gw' : ExecutionGateway K) : Prop where
  kept : Kept base connected gw'
  settled : gw'.Settled
  log : ∃ es, gw'.log = gw.log ++ es ∧ Answers base.isSome connected gw.log cs es ∧
    (base.isSome = true → es.countP isWritten = es.countP isSent)

theorem Goes.refl (h : Kept base connected gw) (hs : gw.Settled) : Goes base connected [] gw gw :=
  ⟨h, hs, [], (List.append_nil _).symm, .nil, fun _ => rfl⟩

theorem Goes.cons {gw'' : ExecutionGateway K} {c : GwCall K} {cs : List (GwCall K)}
    (h : Goes base connected [c] gw gw') (h' : Goes base connected cs gw' gw'') :
    Goes base connected (c :: cs) gw gw'' := by
  obtain ⟨es, hlog, hans, hes⟩ := h.log
  obtain ⟨es', hlog', hans', hes'⟩ := h'.log
  rw [hlog] at hans'
  cases hans with
  | @cons _ _ _ es _ hc hnil =>
    cases hnil
    rw [List.append_nil] at hlog hans' hes
    refine ⟨h'.kept, h'.settled, es ++ es', ?_, .cons hc hans', fun hfile => ?_⟩
    · rw [hlog', hlog, List.append_assoc]
    · rw [List.countP_append, List.countP_append, hes hfile, hes' hfile]

/-- A call that is one event. -/
theorem Kept.goes {c : GwCall K} {e : GwEvent K} (h : Kept base connected gw) (hs : gw.Settled)
    (hc : Answer base.isSome connected gw.log c [e]) (hn : Notes gw e gw') (hack : ∀ cb orderId, e ≠ .ack cb orderId)
    (hr : Right base.isSome connected gw.log e)
    (hw : base.isSome = true → e.isWritten = false ∧ e.isSent = false)
    (hw' : e.isWritten = false) : Goes base connected [c] gw gw' := by
  refine ⟨h.notes hn (hs.follows hack) hr, hn.settled fun now msg orderId he => ?_, [e], hn.log,
    hc.single, fun hfile => ?_⟩
  · rw [he] at hw'
    cases hw'
  · rw [List.countP_singleton, List.countP_singleton, (hw hfile).1, (hw hfile).2]

theorem Kept.pending (h : Kept base connected gw) :
    gw.pendingAcks =
      UInt32.ofNat (gw.log.countP isSent) - UInt32.ofNat (gw.log.countP isWritten) := by
  rw [pendingAcks, h.sent, h.acked, UInt64.toUInt32_sub, UInt64.toUInt32_ofNat', UInt64.toUInt32_ofNat']

theorem notes_note {e : GwEvent K} (hb : e.bytes = []) (hs : e.isSent = false)
    (hw : e.isWritten = false) (hd : e.isShutdown = false)
    (hc : callbackAfter gw.ackCb e = gw.ackCb) : Notes gw e (gw.note e) where
  log := rfl
  simFile := by
    show gw.simFile = _
    rw [hb]
    cases gw.simFile with
    | none => rfl
    | some file => simp
  sent := by
    rw [hs]
    exact (UInt64.add_zero _).symm
  acked := by
    rw [hw]
    exact (UInt64.add_zero _).symm
  rejected := rfl
  ackCb := hc.symm
  state := by
    rw [hd]
    rfl

theorem notes_count : Notes gw .sent gw.count where
  log := rfl
  simFile := by
    show gw.simFile = gw.simFile.map (· ++ [])
    cases gw.simFile with
    | none => rfl
    | some file => simp
  sent := rfl
  acked := (UInt64.add_zero _).symm
  rejected := rfl
  ackCb := rfl
  state := rfl

theorem notes_write {file msg : List UInt8} {now : UInt64} {orderId : Int32}
    (hfile : gw.simFile = some file) :
    Notes gw (.written now (cstr msg) orderId) (gw.write file now msg orderId) where
  log := rfl
  simFile := by
    rw [hfile]
    rfl
  sent := (UInt64.add_zero _).symm
  acked := rfl
  rejected := rfl
  ackCb := rfl
  state := rfl

theorem notes_shutdown :
    Notes gw (.shutdown gw.ordersSent gw.ordersAcked gw.ordersRejected) gw.shutdown where
  log := rfl
  simFile := rfl
  sent := (UInt64.add_zero _).symm
  acked := (UInt64.add_zero _).symm
  rejected := rfl
  ackCb := rfl
  state := rfl

/-- The gateway is connected. -/
theorem Kept.connected_of (h : Kept base connected gw) (hstate : gw.state = .connected) :
    connected = true ∧ gw.log.any isShutdown = false := by
  have hs := h.state
  rw [hstate] at hs
  by_contra hno
  rw [if_neg hno] at hs
  cases hs

/-- `gw_send_order` accepts what the events before say. -/
theorem Kept.admits_iff (h : Kept base connected gw) {msg : Option (List UInt8)} {msgLen : UInt32}
    {m : List UInt8} : gw.admits msg msgLen = some m ↔ Accepts connected gw.log msg msgLen m := by
  constructor
  · intro hadm
    unfold admits at hadm
    split at hadm
    · cases hadm
    · rename_i hno
      obtain ⟨hlen, hstate⟩ := not_or.mp hno
      obtain ⟨hconn, hrun⟩ := h.connected_of (not_not.mp hstate)
      exact ⟨hadm, hlen, hconn, hrun⟩
  · intro ha
    have hstate : gw.state = .connected := by
      rw [h.state, if_pos ⟨ha.connected, ha.running⟩]
    rw [admits, if_neg (not_or.mpr ⟨ha.msgLen, not_not_intro hstate⟩), ha.msg]

/-- A call of `gw_send_order` that is refused. -/
theorem Kept.refused (h : Kept base connected gw) (hs : gw.Settled) {msg : Option (List UInt8)}
    {msgLen : UInt32} (hadm : gw.admits msg msgLen = none) (orderId : Int32) (now : UInt64)
    (onAck : List (GwCall K)) :
    Goes base connected [.sendOrder msg msgLen orderId now onAck] gw
      (gw.note (.refused msg msgLen)) := by
  have hno : ∀ m, ¬ Accepts connected gw.log msg msgLen m := fun m ha => by
    rw [h.admits_iff.mpr ha] at hadm
    cases hadm
  refine h.goes hs (.refused hno) (notes_note rfl rfl rfl rfl rfl) (fun _ _ he => by cases he) ?_
    (fun _ => ⟨rfl, rfl⟩) rfl
  unfold admits at hadm
  split at hadm
  · rename_i hno
    rcases hno with hlen | hstate
    · exact .inr (.inl hlen)
    · have hst := h.state
      by_cases hc : connected = true ∧ gw.log.any isShutdown = false
      · rw [if_pos hc] at hst
        exact absurd hst hstate
      · rcases not_and_or.mp hc with hc | hc
        · exact .inr (.inr (.inl (Bool.eq_false_iff.mpr hc)))
        · exact .inr (.inr (.inr (Bool.not_eq_false _ ▸ hc)))
  · exact .inl hadm

/-- A call of `gw_send_order` without a log file. -/
theorem Kept.sent_silently (h : Kept base connected gw) (hs : gw.Settled)
    {msg : Option (List UInt8)} {msgLen : UInt32} {m : List UInt8}
    (hadm : gw.admits msg msgLen = some m) (hfile : gw.simFile = none) (orderId : Int32)
    (now : UInt64) (onAck : List (GwCall K)) :
    Goes base connected [.sendOrder msg msgLen orderId now onAck] gw gw.count := by
  have hacc := h.admits_iff.mp hadm
  have hbase : base = none := by
    have hf := h.simFile
    rw [hfile] at hf
    exact Option.map_eq_none_iff.mp hf.symm
  subst hbase
  exact h.goes hs (.silent hacc rfl) notes_count (fun _ _ he => by cases he)
    ⟨hacc.connected, hacc.running⟩ (fun he => by cases he) rfl

/-- A call of `gw_send_order` with one; `hcalls` is about the calls of the callback. -/
theorem Kept.sent_logged (h : Kept base connected gw) (hs : gw.Settled)
    {msg : Option (List UInt8)} {msgLen : UInt32} {m : List UInt8}
    (hadm : gw.admits msg msgLen = some m) {file : List UInt8} (hfile : gw.simFile = some file)
    (orderId : Int32) (now : UInt64) {onAck : List (GwCall K)}
    (hcalls : ∀ gw : ExecutionGateway K, Kept base connected gw → gw.Settled →
      Goes base connected onAck gw (gw.calls onAck)) :
    Goes base connected [.sendOrder msg msgLen orderId now onAck] gw
      (match (gw.write file now m orderId).ackCb with
        | none => (gw.write file now m orderId).count
        | some cb => (((gw.write file now m orderId).note (.ack cb orderId)).calls onAck).count) := by
  obtain ⟨bytes, rfl⟩ : ∃ bytes, base = some bytes := by
    have hf := h.simFile
    rw [hfile] at hf
    obtain ⟨bytes, hb, -⟩ := Option.map_eq_some_iff.mp hf.symm
    exact ⟨bytes, hb⟩
  have hacc := h.admits_iff.mp hadm
  have hle := h.open_le rfl
  -- the line, and then either the return or the callback
  have hwrite : Notes gw (.written now (cstr m) orderId) (gw.write file now m orderId) :=
    notes_write hfile
  have hwritten := h.notes hwrite (hs.follows fun _ _ he => by cases he)
    ⟨rfl, hacc.connected, hacc.running⟩
  have hcb := hwritten.ackCb
  have hlast : (gw.write file now m orderId).log.getLast? =
      some (.written now (cstr m) orderId) := by
    rw [hwrite.log, List.getLast?_concat]
  have hsame : (gw.write file now m orderId).ackCb = current gw.log := h.ackCb
  generalize gw.write file now m orderId = gw₁ at hwrite hwritten hcb hlast hsame
  have hlt : gw₁.log.countP isSent < gw₁.log.countP isWritten := by
    rw [hwrite.log, List.countP_append, List.countP_append]
    show _ + 0 < _ + 1
    omega
  cases hack : gw₁.ackCb with
  | none =>
    have hcount : Notes gw₁ .sent gw₁.count := notes_count
    refine ⟨hwritten.notes hcount ?_ hlt, hcount.settled (fun _ _ _ he => by cases he),
      [.written now (cstr m) orderId, .sent], ?_, (Answer.unacked hacc rfl ?_).single, fun _ => rfl⟩
    · simp only [Follows, hlast, ← hcb, hack]
    · rw [hcount.log, hwrite.log, List.append_assoc]
      rfl
    · rw [← hsame, hack]
  | some cb =>
    have hn : Notes gw₁ (.ack cb orderId) (gw₁.note (.ack cb orderId)) :=
      notes_note rfl rfl rfl rfl rfl
    have hacked : Kept (some bytes) connected (gw₁.note (.ack cb orderId)) := by
      refine hwritten.notes hn ?_ trivial
      simp only [Follows, hlast, ← hcb, hack]
    have hgoes := hcalls _ hacked (hn.settled fun _ _ _ he => by cases he)
    obtain ⟨es, hlog, hans, hes⟩ := hgoes.log
    have hbal := hes rfl
    rw [hn.log, hwrite.log, List.append_assoc] at hans
    have hcount : Notes ((gw₁.note (.ack cb orderId)).calls onAck) .sent
      ((gw₁.note (.ack cb orderId)).calls onAck).count := notes_count
    refine ⟨hgoes.kept.notes hcount (hgoes.settled.follows fun _ _ he => by cases he) ?_,
      hcount.settled (fun _ _ _ he => by cases he),
      .written now (cstr m) orderId :: .ack cb orderId :: es ++ [.sent], ?_, ?_, fun _ => ?_⟩
    · show _ < _
      rw [hlog, hn.log]
      simp only [List.countP_append, List.countP_singleton, hbal]
      show _ + 0 + _ < _ + 0 + _
      omega
    · rw [hcount.log, hlog, hn.log, hwrite.log]
      simp only [List.append_assoc, List.cons_append, List.nil_append]
    · exact (Answer.acked hacc rfl (by rw [← hsame, hack]) hans).single
    · rw [List.cons_append, List.cons_append, List.countP_cons, List.countP_cons, List.countP_cons,
        List.countP_cons, List.countP_append, List.countP_append, hbal]
      show _ + 0 + 0 + 1 = _ + 1 + 0 + 0
      omega

mutual

/-- **A call**, with what the callback does. -/
theorem Kept.call {gw : ExecutionGateway K} (h : Kept base connected gw) (hs : gw.Settled) :
    ∀ c : GwCall K, Goes base connected [c] gw (gw.call c)
  | .sendOrder msg msgLen orderId now onAck => by
      cases hadm : gw.admits msg msgLen with
      | none =>
        simp only [ExecutionGateway.call, hadm]
        exact h.refused hs hadm orderId now onAck
      | some m =>
        cases hfile : gw.simFile with
        | none =>
          simp only [ExecutionGateway.call, hadm, hfile]
          exact h.sent_silently hs hadm hfile orderId now onAck
        | some file =>
          simp only [ExecutionGateway.call, hadm, hfile]
          exact h.sent_logged hs hadm hfile orderId now fun _ h' hs' => Kept.calls h' hs' onAck
  | .shutdown => by
      simp only [ExecutionGateway.call]
      refine h.goes hs .shutdown notes_shutdown (fun _ _ he => by cases he) ⟨h.sent, h.acked, h.rejected⟩
        (fun _ => ⟨rfl, rfl⟩) rfl
  | .setAckCallback cb => by
      simp only [ExecutionGateway.call]
      refine h.goes (e := .callback cb) hs .callback ⟨rfl, ?_, (UInt64.add_zero _).symm,
        (UInt64.add_zero _).symm, rfl, rfl, rfl⟩ (fun _ _ he => by cases he) trivial
        (fun _ => ⟨rfl, rfl⟩) rfl
      show gw.simFile = gw.simFile.map (· ++ [])
      cases gw.simFile with
      | none => rfl
      | some file => simp
  | .pendingAcks => by
      simp only [ExecutionGateway.call]
      exact h.goes hs .pending (notes_note rfl rfl rfl rfl rfl) (fun _ _ he => by cases he) h.pending
        (fun _ => ⟨rfl, rfl⟩) rfl

/-- Calls one after the other. -/
theorem Kept.calls {gw : ExecutionGateway K} (h : Kept base connected gw) (hs : gw.Settled) :
    ∀ cs : List (GwCall K), Goes base connected cs gw (gw.calls cs)
  | [] => by
      simp only [ExecutionGateway.calls]
      exact .refl h hs
  | c :: cs => by
      simp only [ExecutionGateway.calls]
      have hc := Kept.call h hs c
      exact hc.cons (Kept.calls hc.kept hc.settled cs)

end

/-- **Every session of the gateway**: any calls, with any calls of the callback among them.  Every
event comes at its moment and says what is right, the log file holds what was there, the first line
and what the events wrote.  The events are those of the calls, in order: each order is refused, or
written, acknowledged and sent.  Between the calls nothing is pending if there is a log file, and all
that was sent if there is none. -/
theorem session_lawful (config : GwConfig) (now : UInt64) (cs : List (GwCall K)) :
    Kept (init config now : ExecutionGateway K).simFile (config.simulationMode || config.host)
        ((init config now : ExecutionGateway K).calls cs) ∧
      Answers (init config now : ExecutionGateway K).simFile.isSome
        (config.simulationMode || config.host) [] cs
        ((init config now : ExecutionGateway K).calls cs).log ∧
      ((init config now : ExecutionGateway K).calls cs).pendingAcks =
        if (init config now : ExecutionGateway K).simFile.isSome then 0
        else UInt32.ofNat (((init config now : ExecutionGateway K).calls cs).log.countP isSent) := by
  set gw : ExecutionGateway K := init config now with hgw
  have hinit : Kept gw.simFile (config.simulationMode || config.host) gw :=
    { simFile := by
        cases gw.simFile with
        | none => rfl
        | some file =>
          show some file = some (file ++ [])
          rw [List.append_nil]
      sent := rfl
      acked := rfl
      rejected := rfl
      ackCb := rfl
      state := by
        have hopen : gw.log.any isShutdown = false := rfl
        simp only [hopen, and_true]
        rfl
      open_le := fun _ => le_rfl
      lawful := fun pre e post heq => by simp [hgw, init] at heq }
  have hgoes := hinit.calls (fun _ _ _ he => by cases he) cs
  obtain ⟨es, hlog, hans, hes⟩ := hgoes.log
  rw [show gw.log = [] from rfl] at hlog hans
  rw [List.nil_append] at hlog
  refine ⟨hgoes.kept, by rw [hlog]; exact hans, ?_⟩
  rw [hgoes.kept.pending, hlog]
  split
  · rename_i hfile
    rw [hes hfile, sub_self]
  · rename_i hfile
    have hnone : es.countP isWritten = 0 := by
      rw [List.countP_eq_zero]
      intro e he hw
      obtain ⟨pre, post, hsplit⟩ := List.append_of_mem he
      have hlaw := (hgoes.kept.lawful pre e post (hlog.trans hsplit)).2
      cases e with
      | written => exact hfile hlaw.1
      | ack | sent | refused | shutdown | callback | pending => cases hw
    rw [hnone]
    exact sub_zero _

/-- Seen by the callback, an order is acknowledged and not sent. -/
example : ((init ⟨true, false, some []⟩ 0 : ExecutionGateway Unit).calls
    [.setAckCallback (some ()), .sendOrder (some [65, 0]) 1 7 0 [.pendingAcks]]).log =
    [.callback (some ()), .written 0 [65] 7, .ack () 7, .pending 0xFFFFFFFF, .sent] := by decide

end ExecutionGateway

end Aspira
