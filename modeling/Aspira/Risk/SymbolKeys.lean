import Aspira.Risk.Operations

/-!
# Risk — SymbolKeys

The key of a symbol, from a pointer and from a `std::string`, and what the positions of a symbol are
made of.

A key is what `strncpy` would write: the first 16 bytes of the string, then zeros (`toList_ofPtr`,
`toList_ofString`, `toList_key`).  So the constructors agree on strings without a NUL, a key tells the
first 16 bytes and nothing more (`equals_iff`), and the hash, which stops at the first zero, reads
exactly these (`hash_ofString`).  Along a run, the position of a symbol is the fold of the executions
under its key (`symbols_isolated`).
-/

namespace Aspira

namespace SymbolKey

/-- `SymbolKey(const char *)`, on the memory at the pointer. -/
def ofPtr (src : List UInt8) : SymbolKey :=
  let n := strnlen src 16
  Vector.ofFn fun i => if i.val < n then src.getD i 0 else 0

/-- `SymbolKey(const std::string &)`. -/
def ofString (src : List UInt8) : SymbolKey :=
  let n := src.length
  Vector.ofFn fun i => if i.val < (if n < 16 then n else 16) then (src ++ [0]).getD i 0 else 0

/-- `operator==`. -/
def equals (key other : SymbolKey) : Bool := (List.finRange 16).all fun i => key.get i = other.get i

/-- The loop of `SymbolKeyHash`, from the hash of the bytes before. -/
def hashFrom : UInt64 → List UInt8 → UInt64
  | h, [] => h
  | h, c :: cs => if c = 0 then h else hashFrom ((h ^^^ c.toUInt64) * 1099511628211) cs

/-- `SymbolKeyHash`. -/
def hash (key : SymbolKey) : UInt64 := hashFrom 14695981039346656037 key.toList

/-! ### Keys as strings -/

/-- An array with the bytes of a string that fits, then zeros. -/
theorem toList_ofFn {l : List UInt8} (hl : l.length ≤ 16) {f : Fin 16 → UInt8}
    (h : ∀ i, f i = l.getD i 0) :
    (Vector.ofFn f).toList = l ++ List.replicate (16 - l.length) 0 := by
  refine List.ext_getElem ?_ fun i h₁ h₂ => ?_
  · rw [Vector.length_toList, List.length_append, List.length_replicate]
    omega
  · have hi : i < 16 := by rwa [Vector.length_toList] at h₁
    rw [Vector.getElem_toList, Vector.getElem_ofFn, h]
    dsimp only
    rcases Nat.lt_or_ge i l.length with hlt | hge
    · rw [List.getD_eq_getElem _ _ hlt, List.getElem_append_left hlt]
    · rw [List.getD_eq_default _ _ hge, List.getElem_append_right hge, List.getElem_replicate]

theorem toList_ofPtr (mem : List UInt8) : (ofPtr mem).toList = strncpyBytes 16 mem := by
  rw [strncpyBytes_eq]
  refine toList_ofFn (List.length_take_le ..) fun i => ?_
  have hget := getD_cstr (mem.take 16) i
  rw [cstr_take] at hget
  rw [← hget, strnlen, cstr_take]
  congr 1
  rw [List.getD_eq_getElem?_getD, List.getD_eq_getElem?_getD, List.getElem?_take_of_lt i.isLt]

theorem toList_ofString {s : List UInt8} (hs : 0 ∉ s) : (ofString s).toList = strncpyBytes 16 s := by
  rw [strncpyBytes_eq, cstr_of_notMem hs]
  refine toList_ofFn (List.length_take_le ..) fun i => ?_
  rcases Nat.lt_or_ge i.val s.length with hi | hi
  · have hcopied : i.val < (if s.length < 16 then s.length else 16) := by
      split
      · exact hi
      · exact i.isLt
    rw [if_pos hcopied, List.getD_append _ _ _ _ hi, List.getD_eq_getElem?_getD,
      List.getD_eq_getElem?_getD, List.getElem?_take_of_lt i.isLt]
  · have hpast : ¬ i.val < (if s.length < 16 then s.length else 16) := by
      split
      · exact not_lt.mpr hi
      · have hlt := i.isLt
        omega
    rw [if_neg hpast, List.getD_eq_default _ _ ((List.length_take_le' ..).trans hi)]

/-- The key of a symbol field, whatever follows the field in memory. -/
theorem key_eq_ofPtr (symbol : Symbol) (past : List UInt8) :
    symbol.key = ofPtr (symbol.toList ++ past) := by
  have htake : (symbol.toList ++ past).take 16 = symbol.toList := by
    rw [List.take_append_of_le_length (by rw [Vector.length_toList]),
      List.take_of_length_le (by rw [Vector.length_toList])]
  have hlen : strnlen (symbol.toList ++ past) 16 = symbol.name.length := by
    rw [strnlen, htake]
    rfl
  refine congrArg Vector.ofFn (funext fun i => ?_)
  rw [hlen, List.getD_append _ _ _ _ (by rw [Vector.length_toList]; exact i.isLt),
    List.getD_eq_getElem _ _ (by rw [Vector.length_toList]; exact i.isLt), Vector.getElem_toList]
  rfl

/-! ### Telling keys apart -/

/-- **A pointer and a `std::string` give the same key.** -/
theorem ofPtr_eq_ofString {s : List UInt8} (hs : 0 ∉ s) (past : List UInt8) :
    ofPtr (s ++ 0 :: past) = ofString s := by
  rw [← Vector.toList_inj, toList_ofPtr, toList_ofString hs, strncpyBytes_inj, cstr_append_zero]

theorem ofString_inj {s t : List UInt8} (hs : 0 ∉ s) (ht : 0 ∉ t) :
    ofString s = ofString t ↔ s.take 16 = t.take 16 := by
  rw [← Vector.toList_inj, toList_ofString hs, toList_ofString ht, strncpyBytes_inj,
    cstr_of_notMem hs, cstr_of_notMem ht]

/-- A symbol field has the key of a string exactly when it holds its first 16 bytes. -/
theorem key_eq_ofString_iff {s : List UInt8} (hs : 0 ∉ s) (symbol : Symbol) :
    symbol.key = ofString s ↔ symbol.name = s.take 16 := by
  have hname : (cstr symbol.toList).take 16 = symbol.name :=
    List.take_of_length_le ((cstr_length_le _).trans (by rw [Vector.length_toList]))
  rw [← Vector.toList_inj, key_eq_ofPtr symbol [], List.append_nil, toList_ofPtr, toList_ofString hs,
    strncpyBytes_inj, cstr_of_notMem hs, hname]

theorem equals_iff {key other : SymbolKey} : key.equals other = true ↔ key = other := by
  simp only [equals, List.all_eq_true, decide_eq_true_eq]
  constructor
  · intro h
    refine Vector.ext fun i hi => ?_
    exact h ⟨i, hi⟩ (List.mem_finRange _)
  · intro h i _
    rw [h]

/-- The hash stops where the zeros start. -/
theorem hashFrom_append_zeros (k : ℕ) : ∀ (h : UInt64) (s : List UInt8),
    hashFrom h (s ++ List.replicate k 0) = hashFrom h s
  | h, [] => by
      cases k with
      | zero => rfl
      | succ k => rfl
  | h, c :: s => by
      rw [List.cons_append, hashFrom, hashFrom, hashFrom_append_zeros k _ s]

/-- **The hash of a key is the FNV-1a hash of the first 16 bytes.** -/
theorem hash_ofString {s : List UInt8} (hs : 0 ∉ s) :
    (ofString s).hash = (s.take 16).foldl (fun h c => (h ^^^ c.toUInt64) * 1099511628211)
      14695981039346656037 := by
  have hfold : ∀ {l : List UInt8} (h : UInt64), 0 ∉ l →
      hashFrom h l = l.foldl (fun h c => (h ^^^ c.toUInt64) * 1099511628211) h := by
    intro l
    induction l with
    | nil => exact fun h _ => rfl
    | cons c l ih =>
        intro h hl
        rw [List.mem_cons, not_or] at hl
        obtain ⟨hc, hl⟩ := hl
        rw [hashFrom, if_neg (Ne.symm hc), ih _ hl]
        rfl
  rw [hash, toList_ofString hs, strncpyBytes_eq, hashFrom_append_zeros, cstr_of_notMem hs]
  exact hfold _ fun h => hs (List.mem_of_mem_take h)

end SymbolKey

/-! ### Positions along a run -/

variable {P : Type} [Price P]

namespace RiskEngine

/-- `get_position(const std::string &)`. -/
def getPositionString (r : RiskEngine P) (symbol : List UInt8) : Position P :=
  r.getPosition (.ofString symbol)

/-- `get_position(const char *)`. -/
def getPositionPtr (r : RiskEngine P) (symbol : List UInt8) : Position P :=
  r.getPosition (.ofPtr symbol)

end RiskEngine

/-- An execution reported to the engine. -/
structure Report (P : Type) where
  order : Order P
  filledQty : Int32
  fillPrice : P

/-- The execution that a call reports. -/
def RiskOp.report : RiskOp P → Option (Report P)
  | .executed order filledQty fillPrice => some ⟨order, filledQty, fillPrice⟩
  | _ => none

/-- The executions of orders whose symbol has the first 16 bytes of `s`. -/
def reportsOf (s : List UInt8) (ops : List (RiskOp P)) : List (Report P) :=
  (ops.filterMap RiskOp.report).filter fun e => e.order.symbol.name = s.take 16

/-- The position that some executions make of another. -/
def Position.after (pos : Position P) (es : List (Report P)) : Position P :=
  es.foldl (fun pos e => RiskEngine.executed pos e.order e.filledQty e.fillPrice) pos

namespace RiskEngine

variable {s : List UInt8} {r : RiskEngine P}

/-- **An execution moves the position of its own symbol.** -/
theorem getPositionString_onOrderExecuted (hs : 0 ∉ s) (order : Order P) (filledQty : Int32)
    (fillPrice : P) :
    (r.onOrderExecuted order filledQty fillPrice).getPositionString s =
      if order.symbol.name = s.take 16 then
        executed (r.getPositionString s) order filledQty fillPrice
      else r.getPositionString s := by
  have hkey : SymbolKey.ofString s = order.symbol.key ↔ order.symbol.name = s.take 16 :=
    eq_comm.trans (SymbolKey.key_eq_ofString_iff hs order.symbol)
  rw [getPositionString, getPosition_onOrderExecuted]
  simp only [hkey]
  rfl

/-- One call: it reports an execution of the symbol, or leaves its position alone. -/
theorem getPositionString_apply (hs : 0 ∉ s) {op : RiskOp P} (hop : op ≠ .reset) :
    (r.apply op).getPositionString s = (r.getPositionString s).after (reportsOf s [op]) := by
  cases op with
  | validate nowSec order midPrice => exact getPosition_validate nowSec r order midPrice _
  | executed order filledQty fillPrice =>
      rw [apply, getPositionString_onOrderExecuted hs]
      unfold reportsOf
      by_cases hname : order.symbol.name = s.take 16
      · rw [if_pos hname]
        simp [RiskOp.report, hname, Position.after]
      · rw [if_neg hname]
        simp [RiskOp.report, hname, Position.after]
  | cancelled => rfl
  | setLimits => rfl
  | reset => exact absurd rfl hop
  | killSwitch => rfl

/-- **A run**: the position of a symbol is moved by its own executions, in their order. -/
theorem getPositionString_runOps (hs : 0 ∉ s) (ops : List (RiskOp P)) (hops : ∀ op ∈ ops, op ≠ .reset) :
    ∀ r : RiskEngine P, (r.runOps ops).getPositionString s =
      (r.getPositionString s).after (reportsOf s ops) := by
  induction ops with
  | nil => exact fun r => rfl
  | cons op ops ih =>
      intro r
      have hsplit : reportsOf s (op :: ops) = reportsOf s [op] ++ reportsOf s ops := by
        rw [reportsOf, reportsOf, reportsOf, ← List.filter_append, ← List.filterMap_append]
        rfl
      have hrest := ih (fun op' hop' => hops op' (List.mem_cons_of_mem op hop')) (r.apply op)
      rw [getPositionString_apply hs (hops op (List.mem_cons_self ..))] at hrest
      rw [hsplit, Position.after, List.foldl_append]
      exact hrest

end RiskEngine

/-- **Symbols are isolated.**  The two constructors agree, a key stands for the first 16 bytes, and the
position of a symbol after a run is the fold of the executions of orders with these bytes. -/
theorem symbols_isolated {s t : List UInt8} (hs : 0 ∉ s) (ht : 0 ∉ t) (past : List UInt8) :
    SymbolKey.ofPtr (s ++ 0 :: past) = SymbolKey.ofString s ∧
    ((SymbolKey.ofString s).equals (SymbolKey.ofString t) = true ↔ s.take 16 = t.take 16) ∧
    (∀ key other : SymbolKey, key.equals other = true → key.hash = other.hash) ∧
    (∀ ops : List (RiskOp P), (∀ op ∈ ops, op ≠ .reset) →
      (RiskEngine.init.runOps ops).getPositionString s = Position.zero.after (reportsOf s ops) ∧
      (RiskEngine.init.runOps ops).getPositionPtr (s ++ 0 :: past) =
        Position.zero.after (reportsOf s ops)) ∧
    ∀ (r : RiskEngine P) (order : Order P) (filledQty : Int32) (fillPrice : P),
      order.symbol.name ≠ s.take 16 →
      (r.onOrderExecuted order filledQty fillPrice).getPositionString s = r.getPositionString s ∧
      (r.onOrderExecuted order filledQty fillPrice).getPositionPtr (s ++ 0 :: past) =
        r.getPositionPtr (s ++ 0 :: past) := by
  have hptr := SymbolKey.ofPtr_eq_ofString hs past
  have hget : ∀ r : RiskEngine P, r.getPositionPtr (s ++ 0 :: past) = r.getPositionString s :=
    fun r => by rw [RiskEngine.getPositionPtr, hptr, RiskEngine.getPositionString]
  refine ⟨hptr, ?_, fun key other h => by rw [SymbolKey.equals_iff.mp h], fun ops hops => ?_,
    fun r order filledQty fillPrice hname => ?_⟩
  · rw [SymbolKey.equals_iff]
    exact SymbolKey.ofString_inj hs ht
  · have hrun := RiskEngine.getPositionString_runOps hs ops hops RiskEngine.init
    rw [hget]
    exact ⟨hrun, hrun⟩
  · have hkept := RiskEngine.getPositionString_onOrderExecuted (r := r) hs order filledQty fillPrice
    rw [if_neg hname] at hkept
    rw [hget, hget]
    exact ⟨hkept, hkept⟩

/-- An execution of the symbol `A`, and one of a symbol that fills its field. -/
def twoSymbols : List (RiskOp ℚ) :=
  let full : Symbol := #v[65, 66, 67, 68, 69, 70, 71, 72, 73, 74, 75, 76, 77, 78, 79, 80]
  [.executed (deskOrder 1 .buy) 100 10, .executed { deskOrder 2 .sell with symbol := full } 50 20]

/-- A longer string reads the position of the symbol that it starts with. -/
theorem symbols_isolated_twoSymbols :
    (SymbolKey.ofString (text "ABCDEFGHIJKLMNOPQ")).equals
      (SymbolKey.ofString (text "ABCDEFGHIJKLMNOP")) = true ∧
    (RiskEngine.init.runOps twoSymbols).getPositionString (text "ABCDEFGHIJKLMNOPQ") =
      ⟨-50, 50, 1000⟩ := by
  have h := symbols_isolated (P := ℚ) (s := text "ABCDEFGHIJKLMNOPQ") (t := text "ABCDEFGHIJKLMNOP")
    (by decide) (by decide) []
  refine ⟨h.2.1.mpr (by decide), ?_⟩
  rw [(h.2.2.2.1 twoSymbols (by simp [twoSymbols])).1]
  decide +kernel

end Aspira
