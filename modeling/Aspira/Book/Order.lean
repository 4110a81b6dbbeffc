import Mathlib
import Aspira.Support.Words

/-!
# Book — Order

The records of `include/order.h`.  Prices are the elements of a linearly ordered type `P` with a
zero: the source's `double`s without the not-a-numbers.  Identifiers and quantities are 32-bit
words, symbols the 16-byte arrays they are in the source.

`Side.Better s p q` is the order of the price levels on side `s` of the book: bids are kept highest
first, asks lowest first (`order_book.h`, `BidMap` and `AskMap`).
-/

namespace Aspira

/-- `enum class Side`. -/
inductive Side where
  | buy
  | sell
  deriving DecidableEq, Repr

/-- `enum class OrderType`. -/
inductive OrderType where
  | limit
  | market
  deriving DecidableEq, Repr

/-- `enum class OrderStatus`. -/
inductive OrderStatus where
  | new
  | partFilled
  | filled
  | cancelled
  | rejected
  deriving DecidableEq, Repr

/-- `char symbol[16]`. -/
abbrev Symbol := Vector UInt8 16

theorem Symbol.size_pos : 0 < 16 := by decide

/-- `struct Order`, less its padding. -/
structure Order (P : Type) where
  id : Int32
  accountId : Int32
  price : P
  quantity : Int32
  filledQty : Int32
  timestampNs : UInt64
  side : Side
  type : OrderType
  status : OrderStatus
  symbol : Symbol
  deriving DecidableEq, Repr

/-- `struct Trade`. -/
structure Trade (P : Type) where
  tradeId : Int32
  buyOrderId : Int32
  sellOrderId : Int32
  quantity : Int32
  timestampNs : UInt64
  price : P
  symbol : Symbol
  deriving DecidableEq, Repr

/-- `INVALID_ORDER_ID`. -/
def invalidOrderId : Int32 := -1

namespace Side

/-- The side an order of side `s` trades against. -/
def opposite : Side → Side
  | buy => sell
  | sell => buy

@[simp] theorem opposite_opposite (s : Side) : s.opposite.opposite = s := by cases s <;> rfl

theorem opposite_ne (s : Side) : s.opposite ≠ s := by cases s <;> decide

theorem opposite_eq_iff {s t : Side} : s.opposite = t ↔ s = t.opposite := by
  cases s <;> cases t <;> decide

theorem eq_or_eq_opposite (s t : Side) : s = t ∨ s = t.opposite := by
  cases s <;> cases t <;> decide

/-- `p` comes before `q` among the price levels of side `s`. -/
def Better {P : Type} [LT P] (s : Side) (p q : P) : Prop :=
  match s with
  | buy => q < p
  | sell => p < q

instance {P : Type} [LT P] [DecidableLT P] (s : Side) : DecidableRel (s.Better (P := P)) :=
  fun p q => match s with
    | buy => inferInstanceAs (Decidable (q < p))
    | sell => inferInstanceAs (Decidable (p < q))

variable {P : Type} [LinearOrder P] {s : Side} {p q r : P}

instance : IsStrictTotalOrder P s.Better where
  irrefl p := by cases s <;> exact lt_irrefl p
  trans p q r h₁ h₂ := by
    cases s
    · exact lt_trans (α := P) h₂ h₁
    · exact lt_trans (α := P) h₁ h₂
  trichotomous p q h₁ h₂ := by
    cases s
    · exact le_antisymm (not_lt.mp h₁) (not_lt.mp h₂)
    · exact le_antisymm (not_lt.mp h₂) (not_lt.mp h₁)

theorem Better.irrefl (s : Side) (p : P) : ¬ s.Better p p := Std.Irrefl.irrefl p

theorem Better.trans (h₁ : s.Better p q) (h₂ : s.Better q r) : s.Better p r :=
  IsTrans.trans _ _ _ h₁ h₂

theorem Better.asymm (h : s.Better p q) : ¬ s.Better q p :=
  fun h' => Better.irrefl s p (h.trans h')

theorem better_trichotomy (s : Side) (p q : P) : s.Better p q ∨ p = q ∨ s.Better q p :=
  trichotomous_of s.Better p q

/-- What is better for the bids is worse for the asks. -/
theorem better_opposite : s.opposite.Better p q ↔ s.Better q p := by cases s <;> rfl

end Side

namespace Order

variable {P : Type}

/-- `Order()`.  The source sets only the terminator of `symbol`; nothing reads the bytes after
it. -/
def blank [Zero P] : Order P where
  id := invalidOrderId
  accountId := 0
  price := 0
  quantity := 0
  filledQty := 0
  timestampNs := 0
  side := .buy
  type := .limit
  status := .new
  symbol := Vector.replicate 16 0

/-- `remaining()`. -/
def remaining (o : Order P) : Int32 := o.quantity - o.filledQty

/-- `is_filled()`. -/
def isFilled (o : Order P) : Bool := decide (o.quantity ≤ o.filledQty)

/-- `is_buy()`. -/
def isBuy (o : Order P) : Bool := decide (o.side = .buy)

/-- Filled between nothing and all of its quantity; not filled at all if that is negative. -/
def InRange (o : Order P) : Prop :=
  0 ≤ o.filledQty.toInt ∧ o.filledQty.toInt ≤ max 0 o.quantity.toInt

/-- What the book keeps: a limit order with something left, marked as its fill says. -/
structure Resting (o : Order P) : Prop where
  type : o.type = .limit
  filled_nonneg : 0 ≤ o.filledQty.toInt
  filled_lt : o.filledQty.toInt < o.quantity.toInt
  status : o.status = if o.filledQty = 0 then .new else .partFilled

theorem Resting.inRange {o : Order P} (h : o.Resting) : o.InRange :=
  ⟨h.filled_nonneg, le_max_of_le_right h.filled_lt.le⟩

theorem inRange_of_unfilled {o : Order P} (h : o.filledQty = 0) : o.InRange := by
  simp [InRange, h]

theorem isFilled_iff {o : Order P} : o.isFilled = true ↔ o.quantity.toInt ≤ o.filledQty.toInt := by
  simp [isFilled, Int32.le_iff_toInt_le]

theorem not_isFilled_iff {o : Order P} :
    o.isFilled = false ↔ o.filledQty.toInt < o.quantity.toInt := by
  simp [isFilled, Int32.lt_iff_toInt_lt]

/-- `remaining()` is exact on an order filled within its quantity. -/
theorem InRange.remaining {o : Order P} (h : o.InRange) :
    o.remaining.toInt = o.quantity.toInt - o.filledQty.toInt := by
  obtain ⟨h₀, h₁⟩ := h
  have hlt := o.quantity.toInt_lt
  have hle := o.quantity.le_toInt
  exact Int32.toInt_sub_exact (by omega) (by omega)

theorem InRange.remaining_pos {o : Order P} (h : o.InRange) :
    0 < o.remaining ↔ o.filledQty.toInt < o.quantity.toInt := by
  rw [Int32.lt_iff_toInt_lt, h.remaining, Int32.toInt_zero]
  omega

/-- The order with `q` more of it filled. -/
def fill (o : Order P) (q : Int32) : Order P := { o with filledQty := o.filledQty + q }

end Order

end Aspira
