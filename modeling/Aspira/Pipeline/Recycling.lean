import Aspira.Pipeline.Stages

/-!
# Pipeline — recycled entries

The two stages against one: whatever the interleaving, what the I/O thread does is a prefix of what
`process_io_event` would do if it were called at once, on a freshly zeroed entry, for each event that
gets an entry (`stages_agree`).

This needs that the pipeline's symbol, as a C string, has at most 15 characters.  A longer symbol
leaves `trade_symbol` without a terminator, and the log line of a trade then goes on with what an
earlier event left in the entry (`long_symbol_stale`).
-/

namespace Aspira

variable {P : Type}

/-! ### Terminators -/

/-- A symbol of at most 15 characters leaves room for its terminator in a trade. -/
theorem zero_mem_tradeSymbol {symbol : List UInt8} (h : (cstr symbol).length ≤ 15)
    (stack : Symbol) : (0 : UInt8) ∈ (tradeSymbol symbol stack).toList := by
  have hlt : (cstr symbol).length < (tradeSymbol symbol stack).toList.length := by
    rw [Vector.length_toList]
    omega
  have hget : (tradeSymbol symbol stack).toList[(cstr symbol).length] = 0 := by
    rw [tradeSymbol_getElem]
    split
    · rfl
    · rename_i hne
      have hin : (cstr symbol).length < symbol.length := lt_of_le_of_ne (cstr_length_le symbol) hne
      have hend := getD_cstr_length symbol
      rw [List.getD_eq_getElem _ _ hin] at hend ⊢
      exact hend
  exact hget ▸ List.getElem_mem hlt

theorem gwMsgBytes_terminated [Price P] (past : List UInt8) (o : Order P) :
    (gwMsgBytes past o).length ≤ 512 ∧
      ((gwMsgBytes past o).length = 1 ∨ (0 : UInt8) ∈ gwMsgBytes past o) := by
  have hmem : (0 : UInt8) ∈ (gwSerializeOrder past o).2 :=
    List.mem_append_right _ (List.mem_singleton_self _)
  have hlen : (gwSerializeOrder past o).2.length ≤ 512 := by
    simp only [gwSerializeOrder, gwMaxMsgSize, List.length_append, List.length_take,
      List.length_singleton]
    omega
  refine ⟨?_, ?_⟩
  · rw [gwMsgBytes, List.length_take]
    exact (Nat.min_le_right _ _).trans hlen
  · cases hok : (gwSerializeOrder past o).1 with
    | true =>
        right
        simp only [gwMsgBytes, hok, if_true]
        exact zero_mem_take_cstr hmem
    | false =>
        left
        have hpos := List.length_pos_of_mem hmem
        simp only [gwMsgBytes, hok, Bool.false_eq_true, if_false, List.length_take]
        omega

/-- The strings of every write of a run have their terminators. -/
theorem run_terminated [Price P] {symbol : List UInt8} (hsym : (cstr symbol).length ≤ 15)
    (ts : List (Tick P)) :
    ∀ w ∈ ((HotPath.init symbol : HotPath P).run ts).1, w.Terminated := by
  intro w hw
  cases HotPath.run_wrote ts hw with
  | rejected o reason => trivial
  | @result s hs past =>
      split
      · exact gwMsgBytes_terminated past s.result
      · trivial
  | @trade s hs t ht =>
      obtain ⟨hlabel, out⟩ := (run_booked symbol ts).outcome s hs
      rw [← out.executions_trade] at ht
      obtain ⟨e, he, rfl⟩ := List.mem_map.mp ht
      obtain ⟨n, -, -, -, hbet⟩ := out.mem_executions he
      obtain ⟨stack, hstack⟩ := hbet.symbol
      show (0 : UInt8) ∈ e.trade.symbol.toList
      rw [hstack, hlabel]
      exact zero_mem_tradeSymbol hsym stack

/-! ### What is passed on -/

section Faithful

variable [Price P]

/-- The write in the hands of the hot path. -/
def HotHand.pending : HotHand P → List (IoWrite P)
  | .idle => []
  | .taken _ w | .written _ w => [w]

/-- The entry holds what the write put there. -/
def Carries (w : IoWrite P) (ev : IoEvent P) : Prop := ∃ e₀ : IoEvent P, e₀.Clean ∧ ev = w.fill e₀

/-- `ws`, as pushed to the filled ring, and what became of it. -/
structure Stages.Faithful (journal : Bool) (all ws : List (IoWrite P)) (s : Stages P) : Prop where
  clean : ∀ e, (s.pool e).Clean
  written : ∀ e w, s.hot = .written e w → Carries w (s.pool e)
  pushed : List.Forall₂ (fun w p => Carries w p.2) ws s.pushed
  kept : s.kept = ws ++ s.hot.pending
  order : (s.kept ++ s.todo).Sublist all
  actions : s.actions = s.passed.flatMap fun p => p.2.processIoEvent journal

variable {journal : Bool} {all ws : List (IoWrite P)} {s s' : Stages P} {r : Option Bool}

theorem Stages.Faithful.hotMove (h : s.Faithful journal all ws) (hm : Stages.HotMove s r s') :
    ∃ ws', s'.Faithful journal all ws' := by
  have hkept := h.kept
  have horder := h.order
  cases hm with
  | rest => exact ⟨ws, h⟩
  | @drop w rest hh ht =>
      refine ⟨ws, h.clean, h.written, h.pushed, h.kept, ?_, h.actions⟩
      rw [ht] at horder
      exact (List.Sublist.append_left (List.sublist_cons_self w rest) _).trans horder
  | @take w rest e rb hh ht =>
      refine ⟨ws, h.clean, fun e' w' he => (by cases he), h.pushed, ?_, ?_, h.actions⟩
      · show s.kept ++ [w] = ws ++ [w]
        rw [hkept, hh]
        simp [HotHand.pending]
      · show ((s.kept ++ [w]) ++ rest).Sublist all
        rw [List.append_assoc]
        rw [ht] at horder
        exact horder
  | @fill e w hh =>
      refine ⟨ws, fun e' => ?_, fun e' w' he => ?_, h.pushed, ?_, h.order, h.actions⟩
      · show (Function.update s.pool e (w.fill (s.pool e)) e').Clean
        by_cases hee : e' = e
        · rw [hee, Function.update_self]
          exact w.fill_clean (h.clean e)
        · rw [Function.update_of_ne hee]
          exact h.clean e'
      · cases he
        refine ⟨s.pool e, h.clean e, ?_⟩
        exact Function.update_self ..
      · rw [hh] at hkept
        exact hkept
  | @push e w rb hh =>
      refine ⟨ws ++ [w], h.clean, fun e' w' he => (by cases he), ?_, ?_, h.order, h.actions⟩
      · exact List.rel_append h.pushed (.cons (h.written e w hh) .nil)
      · rw [hh] at hkept
        show s.kept = ws ++ [w] ++ []
        rw [hkept, List.append_nil]
        rfl

theorem Stages.Faithful.ioMove (h : s.Faithful journal all ws)
    (hm : Stages.IoMove journal s r s') : s'.Faithful journal all ws := by
  cases hm with
  | rest => exact h
  | pop => exact ⟨h.clean, h.written, h.pushed, h.kept, h.order, h.actions⟩
  | process =>
      refine ⟨h.clean, h.written, h.pushed, h.kept, h.order, ?_⟩
      show s.actions ++ _ = List.flatMap _ (s.passed ++ _)
      rw [h.actions, List.flatMap_append, List.flatMap_singleton]
  | back => exact ⟨h.clean, h.written, h.pushed, h.kept, h.order, h.actions⟩

/-- Events that hold what was written to them are processed as on zeroed entries. -/
theorem processed_carried (journal : Bool) {ws : List (IoWrite P)} {ps : List (Entry × IoEvent P)}
    (hf : List.Forall₂ (fun w p => Carries w p.2) ws ps) (hterm : ∀ w ∈ ws, w.Terminated) :
    (ps.flatMap fun p => p.2.processIoEvent journal) = ws.flatMap (synchronous journal) := by
  induction hf with
  | nil => rfl
  | @cons w p ws ps hwp _ ih =>
      obtain ⟨e₀, hclean, heq⟩ := hwp
      rw [List.flatMap_cons, List.flatMap_cons, ih fun w' hw' => hterm w' (List.mem_cons_of_mem w hw'),
        heq, processIoEvent_fill journal (hterm w (List.mem_cons_self ..)) hclean]

/-- What the I/O thread did is what a synchronous pipeline does first. -/
theorem Stages.Faithful.actions_prefix (h : s.Faithful journal all ws)
    (hall : ∀ w ∈ all, w.Terminated) {free filled out : List Entry}
    (hc : s.Circulates free filled out) :
    s.actions <+: s.kept.flatMap (synchronous journal) := by
  have hterm : ∀ w ∈ ws, w.Terminated := fun w hw =>
    hall w (h.order.subset (List.mem_append_left _ (by rw [h.kept]; exact List.mem_append_left _ hw)))
  have hpushed := processed_carried journal h.pushed hterm
  rw [hc.flow, List.flatMap_append, ← h.actions] at hpushed
  rw [h.kept, List.flatMap_append, ← hpushed, List.append_assoc]
  exact List.prefix_append _ _

/-- The state of a run from `init`. -/
def Stages.Sound (journal : Bool) (all : List (IoWrite P)) (s : Stages P) : Prop :=
  ∃ free filled ws, s.Circulates free filled [] ∧ s.Faithful journal all ws

theorem Stages.Sound.step (h : s.Sound journal all) (t : Thread) :
    ∃ r s', s.step journal t = some (r, s') ∧ s'.Sound journal all ∧ r ≠ some false := by
  obtain ⟨free, filled, ws, hc, hf⟩ := h
  cases t with
  | hot =>
      obtain ⟨r, s', free', hstep, hm, hc'⟩ := hc.hotStep
      obtain ⟨ws', hf'⟩ := hf.hotMove hm
      exact ⟨r, s', hstep, ⟨free', _, ws', hc', hf'⟩, hm.result_ne⟩
  | io =>
      obtain ⟨r, s', free', filled', hstep, hm, hc'⟩ := hc.ioStep journal
      exact ⟨r, s', hstep, ⟨free', filled', ws, hc', hf.ioMove hm⟩, hm.result_ne⟩

/-- What a step leaves: the entries are partitioned, no push failed, and what was done is a prefix
of what a synchronous pipeline does for the events that got an entry. -/
structure Stages.Agrees (journal : Bool) (all : List (IoWrite P)) (r : Option Bool) (s : Stages P) :
    Prop where
  partitioned : s.Partitioned
  push : r ≠ some false
  order : s.kept.Sublist all
  actions : s.actions <+: s.kept.flatMap (synchronous journal)

theorem Stages.Sound.agrees (h : s.Sound journal all) (hall : ∀ w ∈ all, w.Terminated)
    (hr : r ≠ some false) : Stages.Agrees journal all r s := by
  obtain ⟨free, filled, ws, hc, hf⟩ := h
  exact ⟨hc.partitioned, hr, (List.sublist_append_left _ _).trans hf.order,
    hf.actions_prefix hall hc⟩

theorem Stages.Fresh.faithful (h : s.Fresh all) (journal : Bool) : s.Faithful journal all [] where
  clean e := by
    rw [h.pool]
    exact zeroed_clean
  written e w he := by
    rw [h.hot] at he
    cases he
  pushed := by
    rw [h.pushed]
    exact .nil
  kept := by
    rw [h.kept, h.hot]
    rfl
  order := by
    rw [h.kept, h.todo]
    exact List.Sublist.refl _
  actions := by
    rw [h.actions, h.passed]
    rfl

theorem init_sound (journal : Bool) (all : List (IoWrite P)) :
    ∃ s, Stages.init all = some s ∧ s.Sound journal all := by
  obtain ⟨s, hinit, hc, hfresh⟩ := Stages.init_circulates all
  exact ⟨s, hinit, circulating, [], [], hc, hfresh.faithful journal⟩

/-- After `init` and after every step of an interleaving, the two stages agree with one. -/
def StagesAgree (journal : Bool) (all : List (IoWrite P)) (threads : List Thread) : Prop :=
  ∃ s, Stages.init all = some s ∧ Stages.Agrees journal all none s ∧
    Run.Always (Stages.step journal) (fun _ _ r s' => Stages.Agrees journal all r s') s threads

/-- **The two stages agree with one**, for every sequence of messages and every interleaving. -/
theorem stages_agree {symbol : List UInt8} (hsym : (cstr symbol).length ≤ 15) (ts : List (Tick P))
    (journal : Bool) (threads : List Thread) :
    StagesAgree journal ((HotPath.init symbol : HotPath P).run ts).1 threads := by
  have hall := run_terminated (P := P) hsym ts
  obtain ⟨s, hinit, hs⟩ := init_sound journal ((HotPath.init symbol : HotPath P).run ts).1
  refine ⟨s, hinit, hs.agrees hall (by simp), ?_⟩
  refine Run.always_of_step (I := Stages.Sound journal _) (C := fun _ _ => True)
    (fun s t h _ => ?_) hs (Run.along_of_forall (fun _ _ => trivial) s)
  obtain ⟨r, s', hstep, h', hr⟩ := h.step t
  exact ⟨r, s', hstep, h', h'.agrees hall hr⟩

/-! ### What a recycled entry can show -/

theorem Stages.lockstep_add (n m : ℕ) : lockstep (n + m) = lockstep n ++ lockstep m := by
  induction n with
  | zero => rw [Nat.zero_add]; rfl
  | succ n ih => rw [Nat.succ_add, lockstep, lockstep, ih, List.append_assoc]

/-- **An event on a used entry.**  The 4096th event uses the entry of the first one; if it is then
processed otherwise than on a zeroed entry, the stages do not agree. -/
theorem not_stagesAgree_of_reuse {w w' : IoWrite P} {ws more : List (IoWrite P)}
    (hall : all = w :: ws ++ w' :: more) (hlen : ws.length = 4094)
    (hsame : ((w'.fill (w.fill .zeroed)).processIoEvent journal).length =
      (synchronous journal w').length)
    (hdiff : (w'.fill (w.fill .zeroed)).processIoEvent journal ≠ synchronous journal w') :
    ¬ StagesAgree journal all (Stages.lockstep 4096) := by
  rintro ⟨s, hinit, -, halways⟩
  obtain ⟨s', hinit', hc, hfresh⟩ := Stages.init_circulates all
  obtain rfl : s' = s := Option.some.inj (hinit'.symm.trans hinit)
  have hquiet : s'.Quiet (circulating ++ []) := by
    rw [List.append_nil]
    exact ⟨hc, hfresh.hot, hfresh.io⟩
  have hcount : (w :: ws).length = circulating.length := by
    rw [List.length_cons, hlen, circulating_length]
  obtain ⟨rs₁, s₁, hexec₁, hq₁, ht₁, hk₁, ha₁, -, hheld⟩ :=
    hquiet.events journal circulating hcount (hfresh.todo.trans hall) fun e _ => hfresh.pool e
  rw [List.nil_append] at hq₁
  generalize circulating = es at hq₁ hheld hcount
  cases hheld with
  | @cons e _ es _ he _ =>
      obtain ⟨rs₂, s₂, hexec₂, -, -, hk₂, -, ha₂⟩ := hq₁.event journal ht₁
      have hexec : Run.exec (Stages.step journal) s' (Stages.lockstep 4096) =
          some (rs₁ ++ rs₂, s₂) := by
        have hsplit : Stages.lockstep 4096 =
            Stages.lockstep (w :: ws).length ++ Stages.lockstep 1 := by
          rw [List.length_cons, hlen, ← Stages.lockstep_add]
        rw [hsplit]
        exact Run.exec_append hexec₁ hexec₂
      have hne : Stages.lockstep 4096 ≠ [] := List.cons_ne_nil _ _
      obtain ⟨_, _, _, hagree⟩ := halways.last hne hexec
      have hpre := hagree.actions
      rw [ha₂, hk₂, ha₁, hk₁, hfresh.actions, hfresh.kept, he, List.nil_append, List.nil_append,
        List.flatMap_append, List.flatMap_singleton, List.prefix_append_right_inj] at hpre
      exact hdiff (hpre.eq_of_length hsame)

/-- A trade without a terminator in its symbol, on an entry last used for an order that was sent: the
log line goes on with the old message. -/
theorem trade_after_send (journal : Bool) {o : Order P} {bytes : List UInt8} {t : Trade P}
    (ht : (0 : UInt8) ∉ t.symbol.toList) :
    ((IoWrite.trade t).fill ((IoWrite.result o (some bytes)).fill .zeroed)).processIoEvent journal ≠
      synchronous journal (.trade t) := by
  have hold : cstr ((IoWrite.trade t).fill
      ((IoWrite.result o (some bytes)).fill .zeroed)).tradeSymbolMem =
      t.symbol.toList ++ 1 :: cstr (memcpy (IoEvent.zeroed : IoEvent P).gwMsg bytes).toList := by
    rw [IoEvent.tradeSymbolMem, List.append_assoc]
    exact cstr_append_of_notMem ht _
  have hnew : cstr ((IoWrite.trade t).fill (.zeroed : IoEvent P)).tradeSymbolMem =
      t.symbol.toList := by
    rw [IoEvent.tradeSymbolMem, List.append_assoc]
    exact (cstr_append_of_notMem ht _).trans (List.append_nil _)
  rw [synchronous, processIoEvent_trade, processIoEvent_trade, hold, hnew]
  intro heq
  have hlen := length_of_tradeActions_eq heq
  rw [List.length_append, List.length_cons] at hlen
  omega

end Faithful

/-- A message for `AAPL`, with bid 99 and ask 101. -/
def calmTick : Tick ℚ :=
  ⟨⟨0, 99, 101, aapl⟩, .still, .still⟩

/-- One message for the symbol of the pipeline. -/
def calmMarket : List (Tick ℚ) := [calmTick]

theorem stages_agree_calmMarket : (cstr (text "AAPL")).length ≤ 15 ∧
    StagesAgree true ((HotPath.init (text "AAPL")).run calmMarket).1
      [.hot, .hot, .hot, .hot, .io, .io, .hot, .io, .hot] :=
  ⟨by decide, stages_agree (by decide) calmMarket true _⟩

/-! ### A symbol of 16 characters -/

section LongSymbol

/-- A symbol that leaves no room for a terminator. -/
def longSymbol : List UInt8 := text "ABCDEFGHIJKLMNOP"

/-- A message for it. -/
def longTick (bid ask : ℚ) : Tick ℚ :=
  ⟨⟨0, bid, ask, #v[65, 66, 67, 68, 69, 70, 71, 72, 73, 74, 75, 76, 77, 78, 79, 0]⟩, .still, .still⟩

/-- Two orders that rest, 4092 that are too dear for the risk engine, and a buy order that takes the
resting sell order. -/
def longSymbolTicks : List (Tick ℚ) :=
  longTick 99 101 :: (List.replicate 2046 (longTick 10000000 10000000) ++ [longTick 100 102])

/-- The hot path after the first message. -/
def restingPair : HotPath ℚ := ((HotPath.init longSymbol).run [longTick 99 101]).2

/-- Nothing but rejections since. -/
structure Waiting (h : HotPath ℚ) : Prop where
  orderBook : h.orderBook = restingPair.orderBook
  riskEngine : ∃ x, h.riskEngine = restingPair.riskEngine.setReject x

theorem zero_notMem_tradeSymbol {symbol : List UInt8} (hlen : symbol.length = 16)
    (h₀ : (0 : UInt8) ∉ symbol) (stack : Symbol) :
    (0 : UInt8) ∉ (tradeSymbol symbol stack).toList := by
  intro hmem
  obtain ⟨i, hi, hzero⟩ := List.getElem_of_mem hmem
  have hi' : i < symbol.length := by rwa [Vector.length_toList, ← hlen] at hi
  rw [tradeSymbol_getElem, if_neg hi'.ne, List.getD_eq_getElem _ _ hi'] at hzero
  exact h₀ (hzero ▸ List.getElem_mem hi')

/-- Both orders of the dear message are rejected, whatever their ids. -/
theorem Waiting.dear {h : HotPath ℚ} (hw : Waiting h) (id : Int32) (side : Side) :
    (h.processOrder .still
      (HotPath.strategyOrder (longTick 10000000 10000000).msg id side)).1.length = 1 ∧
    Waiting (h.processOrder .still
      (HotPath.strategyOrder (longTick 10000000 10000000).msg id side)).2 := by
  obtain ⟨hb, x, hr⟩ := hw
  set o := HotPath.strategyOrder (longTick 10000000 10000000).msg id side with ho
  have hnotional : ((restingPair.riskEngine.setReject x).checkNotionalLimit o
      o.symbol.key).isSome = true := by
    have hclosed : ∀ side, (restingPair.riskEngine.checkNotionalLimit
        (HotPath.strategyOrder (longTick 10000000 10000000).msg 0 side)
        (longTick 10000000 10000000).msg.symbol.key).isSome = true := by
      intro side
      cases side <;> decide +kernel
    exact hclosed side
  obtain ⟨reason, hreason⟩ := Option.isSome_iff_exists.mp hnotional
  obtain ⟨reason', hfirst⟩ := RiskEngine.firstReject_of_notional h.orderBook.midPrice hreason
  have hval := RiskEngine.validate_of_reject (r := restingPair.riskEngine.setReject x)
    Ambient.still.nowSec (show restingPair.riskEngine.killed = false by decide +kernel)
    (show restingPair.riskEngine.limits.enabled = true by decide +kernel)
    (show restingPair.riskEngine.secWindowStart = 0 by decide +kernel) hfirst
  rw [← hr] at hval
  have hv : (h.riskEngine.validate Ambient.still.nowSec o h.orderBook.midPrice).1 = false := by
    rw [hval]
  obtain ⟨hb', hr', -⟩ := HotPath.processOrder_rejected hv
  refine ⟨?_, hb'.trans hb, snprintf 256 reason', ?_⟩
  · simp [HotPath.processOrder, hv]
  · rw [hr', hval, hr]
    rfl

theorem Waiting.run {h : HotPath ℚ} (hw : Waiting h) (n : ℕ) :
    (h.run (List.replicate n (longTick 10000000 10000000))).1.length = 2 * n ∧
    Waiting (h.run (List.replicate n (longTick 10000000 10000000))).2 := by
  induction n generalizing h with
  | zero => exact ⟨rfl, hw⟩
  | succ n ih =>
      set m := longTick 10000000 10000000 with hm
      have hw₀ : Waiting (h.countMsg.strategyOnMarketData m.msg).2.2 := ⟨hw.orderBook, hw.riskEngine⟩
      obtain ⟨hl₁, hw₁⟩ := hw₀.dear h.nextOrderId .buy
      obtain ⟨hl₂, hw₂⟩ := hw₁.dear (h.nextOrderId + 1) .sell
      obtain ⟨hl₃, hw₃⟩ := ih hw₂
      refine ⟨?_, hw₃⟩
      rw [List.replicate_succ, HotPath.run, List.length_append, HotPath.processMarketData,
        List.length_append]
      exact (congrArg₂ (· + ·) (congrArg₂ (· + ·) hl₁ hl₂) hl₃).trans (by ring)

/-- The buy order of the rising message is accepted, whatever its id. -/
theorem Waiting.accepts {h : HotPath ℚ} (hw : Waiting h) (id : Int32) :
    (h.riskEngine.validate Ambient.still.nowSec
      (HotPath.strategyOrder (longTick 100 102).msg id .buy) h.orderBook.midPrice).1 = true := by
  obtain ⟨hb, x, hr⟩ := hw
  have hclosed : (restingPair.riskEngine.validate Ambient.still.nowSec
      (HotPath.strategyOrder (longTick 100 102).msg 0 .buy) restingPair.orderBook.midPrice).1 =
      true := by decide +kernel
  rw [hr, hb]
  generalize restingPair = resting at hclosed ⊢
  exact (RiskEngine.validate_verdict _ _ (HotPath.strategyOrder (longTick 100 102).msg 0 .buy) _ x
    id).trans hclosed

/-- It takes the resting sell order. -/
theorem Waiting.takes {h : HotPath ℚ} (hw : Waiting h) (id : Int32) :
    (Submission.mk h.orderBook (HotPath.strategyOrder (longTick 100 102).msg id .buy)
      Ambient.still.stamps).hits ≠ [] := by
  have hclosed : (struck .sell (HotPath.strategyOrder (longTick 100 102).msg 0 .buy)
      (100 : Int32).toInt (restingPair.orderBook.queue .sell)).isEmpty = false := by decide +kernel
  have hsame : ∀ left q, struck .sell (HotPath.strategyOrder (longTick 100 102).msg id .buy) left q =
      struck .sell (HotPath.strategyOrder (longTick 100 102).msg 0 .buy) left q :=
    struck_congr rfl rfl
  intro hnil
  rw [Submission.hits, hw.orderBook] at hnil
  rw [← hsame] at hclosed
  have hempty := congrArg List.isEmpty hnil
  exact Bool.noConfusion (hclosed.symm.trans hempty)

/-- The rising message brings a trade, without a terminator in its symbol. -/
theorem Waiting.rising {h : HotPath ℚ} (hw : Waiting h) :
    ∃ w t more, (h.processMarketData (longTick 100 102)).1 = w :: .trade t :: more ∧
      (0 : UInt8) ∉ t.symbol.toList := by
  set o := HotPath.strategyOrder (longTick 100 102).msg h.nextOrderId .buy with ho
  set s : Submission ℚ := ⟨h.orderBook, o, Ambient.still.stamps⟩ with hs
  have hv := hw.accepts h.nextOrderId
  have booked := run_booked longSymbol [longTick 99 101]
  have hbook : s.book = restingPair.orderBook := hw.orderBook
  have hplaced : s.book.Placed := by
    rw [hbook]
    exact booked.placed
  have hdrained : s.book.trades = [] := by
    rw [hbook]
    exact booked.drained
  have hlabel : s.book.symbol = longSymbol := by
    rw [hbook]
    exact booked.labelled
  have hbet := (Submission.outcome hplaced hdrained rfl).between
  obtain ⟨n, hits, hcons⟩ := List.exists_cons_of_ne_nil (hw.takes h.nextOrderId)
  rw [hcons] at hbet
  cases htrades : s.after.trades with
  | nil =>
      rw [htrades] at hbet
      cases hbet
  | cons t ts =>
      rw [htrades] at hbet
      cases hbet with
      | cons ht _ =>
          obtain ⟨stack, hstack⟩ := ht.symbol
          have hwrites := HotPath.processOrder_writes
            (h := (h.countMsg.strategyOnMarketData (longTick 100 102).msg).2.2) hv hs
          rw [htrades, List.map_cons] at hwrites
          refine ⟨.result s.result _, t, ts.map .trade ++ (HotPath.processOrder .still _ _).1,
            congrArg (· ++ _) hwrites, ?_⟩
          rw [hstack, hlabel]
          exact zero_notMem_tradeSymbol (by decide) (by decide) stack

/-- The write is of an order that is sent. -/
def IoWrite.sends : IoWrite P → Bool
  | .result _ (some _) => true
  | _ => false

theorem IoWrite.exists_of_sends {w : IoWrite P} (h : w.sends = true) :
    ∃ o bytes, w = .result o (some bytes) := by
  cases w with
  | rejected o reason => cases h
  | trade t => cases h
  | result o gwMsg =>
      cases gwMsg with
      | none => cases h
      | some bytes => exact ⟨o, bytes, rfl⟩

/-- **A stale log line.**  With a symbol of 16 characters, the line for the trade of the 4096th event
goes on with the message of the first. -/
theorem long_symbol_stale :
    ¬ StagesAgree false ((HotPath.init longSymbol).run longSymbolTicks).1 (Stages.lockstep 4096) := by
  have hfirst : ((HotPath.init longSymbol).run [longTick 99 101]).1.map IoWrite.sends =
      [true, true] := by decide +kernel
  have hw₀ : Waiting restingPair := ⟨rfl, _, rfl⟩
  obtain ⟨hlen, hw₁⟩ := hw₀.run 2046
  obtain ⟨w', t, more, hwrites, ht⟩ := hw₁.rising
  have hall : ((HotPath.init longSymbol).run longSymbolTicks).1 =
      ((HotPath.init longSymbol).run [longTick 99 101]).1 ++
        ((restingPair.run (List.replicate 2046 (longTick 10000000 10000000))).1 ++
          ((w' :: .trade t :: more) ++ [])) := by
    have hsplit : longSymbolTicks = [longTick 99 101] ++
        (List.replicate 2046 (longTick 10000000 10000000) ++ [longTick 100 102]) := rfl
    rw [hsplit, HotPath.run_append, HotPath.run_append, HotPath.run, ← hwrites]
    rfl
  generalize ((HotPath.init longSymbol).run longSymbolTicks).1 = all at hall ⊢
  generalize ((HotPath.init longSymbol).run [longTick 99 101]).1 = first at hfirst hall
  generalize (restingPair.run (List.replicate 2046 (longTick 10000000 10000000))).1 = ws
    at hlen hall
  obtain ⟨w₀, tail, rfl, hsends, htail⟩ := List.map_eq_cons_iff.mp hfirst
  obtain ⟨w₁, rest, rfl, -, hnil⟩ := List.map_eq_cons_iff.mp htail
  obtain rfl := List.map_eq_nil_iff.mp hnil
  obtain ⟨o, bytes, rfl⟩ := IoWrite.exists_of_sends hsends
  have hreuse : all = .result o (some bytes) :: (w₁ :: ws ++ [w']) ++ .trade t :: more := by
    rw [hall]
    simp
  refine not_stagesAgree_of_reuse hreuse ?_ ?_ (trade_after_send false ht)
  · simp [hlen]
  · exact length_tradeActions ..

end LongSymbol

end Aspira
