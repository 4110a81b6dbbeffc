import Aspira.Gateway.Session
import Aspira.Pipeline.Sequential

/-!
# Pipeline — dispatch

From the counter to the gateway's log.  The hot path counts an order as executed when it has prepared
its message (`orders_executed`); the I/O thread sends the message later, from an entry of its own, and
skips one that is empty; the gateway counts what is sent, and reports it when `stop` shuts it down.

`executed_sent` puts the three together: if no event was dropped and all were processed, the log file
has one line for every order counted as executed, in order, and the report shows the same number.
-/

namespace Aspira

variable {P : Type}

/-! ### The messages -/

/-- The message that is sent for a write, if one is. -/
def IoWrite.sentMsg : IoWrite P → Option (List UInt8 × Int32)
  | .result o (some bytes) => if 1 < bytes.length then some (cstr bytes, o.id) else none
  | .result _ none | .rejected .. | .trade _ => none

/-- The message of a call of the gateway. -/
def Action.sent : Action P → Option (List UInt8 × Int32)
  | .send msg orderId => some (msg, orderId)
  | .log .. | .journalOrder .. | .journalTrade .. => none

/-- A message to be sent is a string that is not empty. -/
def IoWrite.Sendable : IoWrite P → Prop
  | .result _ (some bytes) =>
      bytes.length ≤ 512 ∧ (bytes.length = 1 ∨ 0 ∈ bytes) ∧ cstr bytes ≠ []
  | .result _ none | .rejected .. | .trade _ => True

theorem sent_journalOrder (journal : Bool) (e : IoEvent P) (type : RecordType) (filledQty : Int32)
    (status : UInt8) : (e.journalOrder journal type filledQty status).filterMap Action.sent = [] := by
  cases journal <;> rfl

/-- The calls of the gateway for the result of an order. -/
theorem sent_dispatch (e : IoEvent P) {o : Order P} {gwMsg : Option (List UInt8)}
    (hw : (IoWrite.result o gwMsg).Sendable) :
    ((IoWrite.result o gwMsg).fill e).dispatch.filterMap Action.sent =
      (IoWrite.result o gwMsg).sentMsg.toList := by
  cases gwMsg with
  | none => rfl
  | some bytes =>
      obtain ⟨hlen, hnul, -⟩ := hw
      by_cases hone : 1 < bytes.length
      · have hne : UInt32.ofNat (bytes.length - 1) ≠ 0 := by
          intro h
          have hnat := congrArg UInt32.toNat h
          rw [UInt32.toNat_ofNat_of_lt' (by rw [UInt32.size]; omega)] at hnat
          exact absurd hnat (by rw [UInt32.toNat_zero]; omega)
        have hmem : 0 ∈ bytes := hnul.resolve_left (by omega)
        have hsym : ((IoWrite.result o (some bytes)).fill e).gwMsg = memcpy e.gwMsg bytes := rfl
        rw [IoEvent.dispatch, if_pos ⟨rfl, hne⟩, hsym, cstr_memcpy hlen hmem, IoWrite.sentMsg,
          if_pos hone]
        rfl
      · have hzero : ((IoWrite.result o (some bytes)).fill e).gwMsgLen = 0 := by
          show UInt32.ofNat (bytes.length - 1) = 0
          rw [Nat.sub_eq_zero_of_le (not_lt.mp hone)]
          rfl
        rw [IoEvent.dispatch, if_neg (fun h => h.2 hzero), IoWrite.sentMsg, if_neg hone]
        rfl

/-- **What is sent for an event**, whatever its entry was last used for. -/
theorem sent_processIoEvent [Price P] (journal : Bool) {w : IoWrite P} (hw : w.Sendable)
    (e : IoEvent P) :
    ((w.fill e).processIoEvent journal).filterMap Action.sent = w.sentMsg.toList := by
  cases w with
  | rejected o reason =>
      have hj := sent_journalOrder journal ((IoWrite.rejected o reason).fill e) .orderReject 0
        OrderStatus.rejected.code
      exact hj
  | result o gwMsg =>
      have hsend := sent_dispatch e hw
      by_cases hpos : 0 < o.filledQty
      · simp only [IoEvent.processIoEvent, IoWrite.fill, if_pos hpos, List.filterMap_cons,
          List.filterMap_append, sent_journalOrder, List.nil_append, Action.sent] at hsend ⊢
        exact hsend
      · simp only [IoEvent.processIoEvent, IoWrite.fill, if_neg hpos, List.filterMap_append,
          sent_journalOrder, List.nil_append] at hsend ⊢
        exact hsend
  | trade t =>
      rw [processIoEvent_trade]
      cases journal <;> rfl

theorem sent_carried [Price P] (journal : Bool) {ws : List (IoWrite P)}
    {ps : List (Entry × IoEvent P)} (hf : List.Forall₂ (fun w p => Carries w p.2) ws ps)
    (hsend : ∀ w ∈ ws, w.Sendable) :
    (ps.flatMap fun p => p.2.processIoEvent journal).filterMap Action.sent =
      ws.filterMap IoWrite.sentMsg := by
  induction hf with
  | nil => rfl
  | @cons w p ws ps hwp _ ih =>
      obtain ⟨e₀, -, heq⟩ := hwp
      rw [List.flatMap_cons, List.filterMap_append, heq,
        sent_processIoEvent journal (hsend w (List.mem_cons_self ..)) e₀,
        ih fun w' hw' => hsend w' (List.mem_cons_of_mem w hw')]
      cases hm : w.sentMsg with
      | none =>
          rw [List.filterMap_cons_none hm]
          rfl
      | some m =>
          rw [List.filterMap_cons_some hm]
          rfl

/-! ### The counter -/

namespace HotPath

variable [Price P]

theorem gwSerializeOrder_head (past : List UInt8) (o : Order P) :
    ∃ rest, (gwSerializeOrder past o).2 = 79 :: 82 :: rest := ⟨_, rfl⟩

/-- An order that is to be sent has a message, exactly if it was serialised. -/
theorem one_lt_length_gwMsgBytes (past : List UInt8) (o : Order P) :
    1 < (gwMsgBytes past o).length ↔ (gwSerializeOrder past o).1 = true := by
  cases h : (gwSerializeOrder past o).1 with
  | false =>
      simp only [gwMsgBytes, h, Bool.false_eq_true, if_false, List.length_take, iff_false]
      omega
  | true =>
      obtain ⟨rest, hrest⟩ := gwSerializeOrder_head past o
      have hcstr : cstr (79 :: 82 :: rest) = 79 :: 82 :: cstr rest := rfl
      simp only [gwMsgBytes, h, if_true, iff_true, hrest, hcstr, List.length_take, List.length_cons]
      omega

/-- The counter, and the messages that are written. -/
def Counted (h : HotPath P) (ws : List (IoWrite P)) : Prop :=
  h.stats.ordersExecuted = UInt64.ofNat (ws.filterMap IoWrite.sentMsg).length

omit [Price P] in
theorem filterMap_sentMsg_trades (ts : List (Trade P)) :
    (ts.map IoWrite.trade).filterMap IoWrite.sentMsg = [] := by
  rw [List.filterMap_map, List.filterMap_eq_nil_iff]
  exact fun _ _ => rfl

/-- **One order.** -/
theorem Counted.processOrder {h : HotPath P} {ws : List (IoWrite P)} (hc : Counted h ws)
    (amb : Ambient) (o : Order P) :
    Counted (h.processOrder amb o).2 (ws ++ (h.processOrder amb o).1) := by
  have hc' : h.stats.ordersExecuted = UInt64.ofNat (ws.filterMap IoWrite.sentMsg).length := hc
  unfold Counted
  rw [List.filterMap_append, List.length_append, UInt64.ofNat_add, ← hc']
  unfold HotPath.processOrder
  dsimp only
  split
  · generalize h.orderBook.addOrder amb.stamps o = r
    have hsent := one_lt_length_gwMsgBytes amb.pastSymbol r.1
    dsimp only
    rw [List.filterMap_cons, filterMap_sentMsg_trades]
    cases hsend : r.1.sendToGw with
    | false => rfl
    | true =>
        cases hser : (gwSerializeOrder amb.pastSymbol r.1).1 with
        | false =>
            rw [hser, iff_false_intro Bool.false_ne_true, iff_false] at hsent
            simp only [IoWrite.sentMsg, if_neg hsent, if_true]
            rfl
        | true =>
            rw [hser, iff_true_intro rfl, iff_true] at hsent
            simp only [IoWrite.sentMsg, if_pos hsent, if_true]
            rfl
  · exact (UInt64.add_zero _).symm

/-- **A run.** -/
theorem Counted.run (ts : List (Tick P)) : ∀ {h : HotPath P} {ws : List (IoWrite P)},
    Counted h ws → Counted (h.run ts).2 (ws ++ (h.run ts).1) := by
  induction ts with
  | nil =>
      intro h ws hc
      rw [show (h.run []).1 = [] from rfl, List.append_nil]
      exact hc
  | cons t ts ih =>
      intro h ws hc
      set s := h.countMsg.strategyOnMarketData t.msg
      have hs : Counted s.2.2 ws := hc
      have hcall := (hs.processOrder t.buy s.1).processOrder t.sell s.2.1
      rw [List.append_assoc] at hcall
      have hrest := ih hcall
      rw [List.append_assoc] at hrest
      exact hrest

theorem run_sendable (symbol : List UInt8) (ts : List (Tick P)) :
    ∀ w ∈ ((HotPath.init symbol : HotPath P).run ts).1, w.Sendable := by
  intro w hw
  cases HotPath.run_wrote ts hw with
  | rejected o reason => trivial
  | @result s hs past =>
      split
      · obtain ⟨hlen, hnul⟩ := gwMsgBytes_terminated past s.result
        obtain ⟨rest, hrest⟩ := gwSerializeOrder_head past s.result
        refine ⟨hlen, hnul, ?_⟩
        simp only [gwMsgBytes, hrest, List.take_succ_cons]
        exact List.cons_ne_nil _ _
      · trivial
  | trade hs ht => trivial

end HotPath

/-! ### The gateway -/

/-- The calls of the gateway for some messages; the `n`th is made at `clock n`. -/
def gwCalls (clock : ℕ → UInt64) : ℕ → List (List UInt8 × Int32) → List (GwCall Unit)
  | _, [] => []
  | n, m :: ms => .sendOrder (some (m.1 ++ [0])) (UInt32.ofNat m.1.length) m.2 (clock n) [] ::
      gwCalls clock (n + 1) ms

/-- The lines of the log for some messages. -/
def sendLines (clock : ℕ → UInt64) : ℕ → List (List UInt8 × Int32) → List UInt8
  | _, [] => []
  | n, m :: ms => ExecutionGateway.sendText (clock n) m.1 ++ sendLines clock (n + 1) ms

/-- A message of the pipeline. -/
def ProperMsg (m : List UInt8 × Int32) : Prop := 0 < m.1.length ∧ m.1.length < 2 ^ 32 ∧ 0 ∉ m.1

theorem IoWrite.Sendable.proper {w : IoWrite P} (hw : w.Sendable) {m : List UInt8 × Int32}
    (hm : w.sentMsg = some m) : ProperMsg m := by
  cases w with
  | rejected => cases hm
  | trade => cases hm
  | result o gwMsg =>
      cases gwMsg with
      | none => cases hm
      | some bytes =>
          obtain ⟨hlen, -, hne⟩ := hw
          have hle := cstr_length_le bytes
          rw [sentMsg] at hm
          split at hm
          · cases hm
            exact ⟨List.length_pos_iff.mpr hne, by show (cstr bytes).length < _; omega,
              notMem_cstr bytes⟩
          · cases hm

namespace ExecutionGateway

/-- **The messages go to a gateway that is connected, with a log file and no callback.** -/
theorem calls_gwCalls (clock : ℕ → UInt64) (ms : List (List UInt8 × Int32))
    (hms : ∀ m ∈ ms, ProperMsg m) : ∀ (n : ℕ) (gw : ExecutionGateway Unit) {file : List UInt8},
      gw.state = .connected → gw.simFile = some file → gw.ackCb = none →
      (gw.calls (gwCalls clock n ms)).simFile = some (file ++ sendLines clock n ms) ∧
      (gw.calls (gwCalls clock n ms)).ordersSent = gw.ordersSent + UInt64.ofNat ms.length ∧
      (gw.calls (gwCalls clock n ms)).ordersAcked = gw.ordersAcked + UInt64.ofNat ms.length ∧
      (gw.calls (gwCalls clock n ms)).ordersRejected = gw.ordersRejected := by
  induction ms with
  | nil =>
      intro n gw file _ hfile _
      simp only [gwCalls, ExecutionGateway.calls, sendLines, List.append_nil]
      exact ⟨hfile, (UInt64.add_zero _).symm, (UInt64.add_zero _).symm, trivial⟩
  | cons m ms ih =>
      intro n gw file hstate hfile hcb
      obtain ⟨hpos, hlt, hnul⟩ := hms m (List.mem_cons_self ..)
      have hlen : UInt32.ofNat m.1.length ≠ 0 := by
        intro h
        have hnat := congrArg UInt32.toNat h
        rw [UInt32.toNat_ofNat_of_lt' hlt] at hnat
        exact hpos.ne' hnat
      have hcstr : cstr (m.1 ++ [0]) = m.1 := by rw [cstr_append_zero, cstr_of_notMem hnul]
      have hadm : gw.admits (some (m.1 ++ [0])) (UInt32.ofNat m.1.length) = some (m.1 ++ [0]) :=
        if_neg (not_or.mpr ⟨hlen, not_not.mpr hstate⟩)
      have hcall : gw.call (.sendOrder (some (m.1 ++ [0])) (UInt32.ofNat m.1.length) m.2 (clock n) []) =
          (gw.write file (clock n) (m.1 ++ [0]) m.2).count := by
        have hcb' : (gw.write file (clock n) (m.1 ++ [0]) m.2).ackCb = none := hcb
        simp only [ExecutionGateway.call, hadm, hfile, hcb']
      obtain ⟨hf, hs, ha, hr⟩ := ih (fun m' hm' => hms m' (List.mem_cons_of_mem m hm')) (n + 1)
        (gw.write file (clock n) (m.1 ++ [0]) m.2).count hstate rfl hcb
      simp only [gwCalls, ExecutionGateway.calls, hcall]
      refine ⟨?_, ?_, ?_, hr⟩
      · rw [hf, hcstr, sendLines, List.append_assoc]
      · rw [hs, List.length_cons, UInt64.ofNat_add, add_comm (UInt64.ofNat ms.length)]
        exact add_assoc ..
      · rw [ha, List.length_cons, UInt64.ofNat_add, add_comm (UInt64.ofNat ms.length)]
        exact add_assoc ..

theorem calls_append (cs cs' : List (GwCall Unit)) : ∀ gw : ExecutionGateway Unit,
    gw.calls (cs ++ cs') = (gw.calls cs).calls cs' := by
  induction cs with
  | nil =>
      intro gw
      simp only [List.nil_append, ExecutionGateway.calls]
  | cons c cs ih =>
      intro gw
      simp only [List.cons_append, ExecutionGateway.calls, ih]

end ExecutionGateway

namespace EventPipeline

variable [Price P] {journal : Bool} {p p' : EventPipeline P}

/-- The log file of the gateway that the pipeline makes, after the calls of the I/O thread and
`gw_shutdown`; `file` is what it had before. -/
def gatewayLog (p : EventPipeline P) (file : List UInt8) (started : UInt64) (clock : ℕ → UInt64) :
    Option (List UInt8) :=
  ((ExecutionGateway.init ⟨true, false, some file⟩ started : ExecutionGateway Unit).calls
    (gwCalls clock 0 (p.stages.actions.filterMap Action.sent) ++ [.shutdown])).simFile

/-- **What is counted as executed is sent.**  In every interleaving, when no call of
`process_market_data` is running, no event was dropped and every event pushed was processed: the log
file has a line for each message that was prepared, in order, and the report of the gateway shows the
number of orders that the pipeline counts as executed. -/
theorem executed_sent {symbol : List UInt8} {ts : List (Turn P)} {rs : List Unit}
    (file : List UInt8) (started : UInt64) (clock : ℕ → UInt64) (hstart : start symbol = some p)
    (hrun : Run.exec (step journal) p ts = some (rs, p')) (hidle : ∀ d, p'.consumer ≠ .busy d)
    (hlen : p'.writes.length < 2 ^ 64) (hdropped : p'.stages.ioEventsDropped = 0)
    (hpassed : p'.stages.passed = p'.stages.pushed) :
    p'.gatewayLog file started clock =
      some (file ++ ExecutionGateway.startText started ++
        sendLines clock 0 (p'.writes.filterMap IoWrite.sentMsg) ++
        ExecutionGateway.shutdownText p'.hotPath.stats.ordersExecuted
          p'.hotPath.stats.ordersExecuted 0) := by
  obtain ⟨p₀, rs₀, p₁, hstart₀, hrun₀, ⟨free, filled, out, hs⟩, ticks, hticks⟩ :=
    exec_called (P := P) journal symbol ts
  obtain rfl : p₀ = p := Option.some.inj (hstart₀.symm.trans hstart)
  obtain rfl : p₁ = p' := (Prod.mk.inj (Option.some.inj (hrun₀.symm.trans hrun))).2
  have hsendable := HotPath.run_sendable (P := P) symbol ticks
  have hcounted : HotPath.Counted p₁.hotPath p₁.writes := by
    have hinit : HotPath.Counted (HotPath.init symbol : HotPath P) [] := rfl
    have hrest := hinit.run ticks
    rw [hticks] at hrest
    exact hrest
  rw [hticks] at hsendable
  obtain ⟨hcarried, hactions⟩ := hs.carried (hs.hot hidle) hlen hdropped hpassed
  have hsent : p₁.stages.actions.filterMap Action.sent = p₁.writes.filterMap IoWrite.sentMsg := by
    rw [hactions]
    exact sent_carried journal hcarried hsendable
  have hproper : ∀ m ∈ p₁.writes.filterMap IoWrite.sentMsg, ProperMsg m := by
    intro m hm
    obtain ⟨w, hw, hwm⟩ := List.mem_filterMap.mp hm
    exact (hsendable w hw).proper hwm
  obtain ⟨hf, ho, ha, hr⟩ := ExecutionGateway.calls_gwCalls clock _ hproper 0
    (ExecutionGateway.init ⟨true, false, some file⟩ started) rfl rfl rfl
  rw [gatewayLog, hsent, ExecutionGateway.calls_append]
  simp only [ExecutionGateway.calls, ExecutionGateway.call, ExecutionGateway.shutdown]
  rw [hf, ho, ha, hr, hcounted]
  have hzero : ∀ n : UInt64, 0 + n = n := UInt64.zero_add
  show some (file ++ ExecutionGateway.startText started ++ _ ++
    ExecutionGateway.shutdownText (0 + _) (0 + _) 0) = _
  rw [hzero]

/-- The two orders of a calm message rest, and their messages are sent. -/
theorem executed_sent_calmTick : ∃ (p p' : EventPipeline ℚ) (rs : List Unit),
    start (text "AAPL") = some p ∧ Run.exec (step true) p (drainRun calmTick 2) = some (rs, p') ∧
    p'.gatewayLog [] 0 (fun _ => 0) =
      some (ExecutionGateway.startText 0 ++
        sendLines (fun _ => 0) 0 (p'.writes.filterMap IoWrite.sentMsg) ++
        ExecutionGateway.shutdownText p'.hotPath.stats.ordersExecuted
          p'.hotPath.stats.ordersExecuted 0) := by
  obtain ⟨p, rs, queue, s, free, out, hstart, hrun, hc, hidle, hdropped⟩ :=
    exec_drainRun true calmTick (by decide) calmTick_length
  have hlen := calmTick_length
  generalize ((HotPath.init (text "AAPL")).processMarketData calmTick).1 = ws at hrun hlen
  generalize ((HotPath.init (text "AAPL")).processMarketData calmTick).2 = hot at hrun
  have hflow := hc.flow
  rw [hidle, IoHand.unread, List.append_nil, List.map_nil, List.append_nil] at hflow
  exact ⟨p, _, rs, hstart, hrun, executed_sent [] 0 _ hstart hrun (fun d he => by cases he)
    (by rw [hlen]; decide) hdropped hflow.symm⟩

end EventPipeline

end Aspira
