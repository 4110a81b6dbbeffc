import Aspira.Book.OrderBook

/-!
# Exchange — the reference

What the book is for, without levels, lists or an index: a *set* of resting orders, each tagged with
the number of the submission that put it there.  An incoming order trades with the resting order it
reaches that has the best price and, among equal prices, the smallest number, at that order's price,
and again until it is filled or reaches nothing; what is left of a limit order then joins the set.

Quantities here are integers.  Nothing in this module is translated from the source.

* `Fill`: an incoming order against a set of resting orders.
* `Step`: one call.  `Step.functional`: a call has one outcome.
-/

namespace Aspira

/-- A resting order and the number of its submission. -/
structure Ticket (P : Type) where
  seq : ℕ
  id : Int32
  side : Side
  price : P
  quantity : ℤ
  filled : ℤ

/-- An incoming order; a market order has no limit. -/
structure Taker (P : Type) where
  id : Int32
  side : Side
  limit : Option P
  quantity : ℤ

/-- A trade. -/
structure Deal (P : Type) where
  buyId : Int32
  sellId : Int32
  quantity : ℤ
  price : P
  deriving DecidableEq

/-- The resting orders, and the number of the next submission. -/
structure Exchange (P : Type) where
  resting : Set (Ticket P)
  next : ℕ

/-- What a call returns. -/
inductive Outcome where
  | filled (f : ℤ)
  | flag (b : Bool)
  | rejected
  | done

section Priority

variable {P : Type} [LinearOrder P]

/-- Price, then time. -/
def Ticket.Prior (t t' : Ticket P) : Prop :=
  t.side.Better t.price t'.price ∨ t.price = t'.price ∧ t.seq < t'.seq

theorem Ticket.Prior.asymm {t t' : Ticket P} (hs : t'.side = t.side) (h : t.Prior t') :
    ¬ t'.Prior t := by
  rintro (h' | ⟨hp, hlt⟩)
  · rw [hs] at h'
    rcases h with h | ⟨hp, -⟩
    · exact h.asymm h'
    · rw [hp] at h'
      exact Side.Better.irrefl _ _ h'
  · rcases h with h | ⟨-, hlt'⟩
    · rw [hp] at h
      exact Side.Better.irrefl _ _ h
    · exact hlt.asymm hlt'

/-- The incoming order may trade with `t`: it is on the other side, and its limit, if it has one,
lets the price through. -/
def Taker.Reaches (k : Taker P) (t : Ticket P) : Prop :=
  t.side = k.side.opposite ∧ ∀ p, k.limit = some p → ¬ t.side.Better p t.price

/-- The trade of the incoming order with `t`. -/
def Taker.deal (k : Taker P) (t : Ticket P) (q : ℤ) : Deal P where
  buyId := if k.side = .buy then k.id else t.id
  sellId := if k.side = .buy then t.id else k.id
  quantity := q
  price := t.price

/-- What is left of `t` after a trade of `q`. -/
def Ticket.after (t : Ticket P) (q : ℤ) : Set (Ticket P) :=
  {t' | t.filled + q < t.quantity ∧ t' = { t with filled := t.filled + q }}

/-- `Fill k R f ds R' f'`: the order `k`, of which `f` is filled, makes the trades `ds` against the
resting orders `R`, and leaves `R'`; then `f'` of it is filled. -/
inductive Fill (k : Taker P) :
    Set (Ticket P) → ℤ → List (Deal P) → Set (Ticket P) → ℤ → Prop where
  | done {R : Set (Ticket P)} {f : ℤ} (h : k.quantity ≤ f ∨ ∀ t ∈ R, ¬ k.Reaches t) :
      Fill k R f [] R f
  | trade {R R' : Set (Ticket P)} {f f' q : ℤ} {t : Ticket P} {ds : List (Deal P)}
      (hf : f < k.quantity) (ht : t ∈ R) (hr : k.Reaches t)
      (best : ∀ t' ∈ R, k.Reaches t' → t' ≠ t → t.Prior t')
      (hq : q = min (k.quantity - f) (t.quantity - t.filled))
      (rest : Fill k (R \ {t} ∪ t.after q) (f + q) ds R' f') :
      Fill k R f (k.deal t q :: ds) R' f'

/-- **The trades of an incoming order are determined.** -/
theorem Fill.functional {k : Taker P} {R R' R₂ : Set (Ticket P)} {f f' f₂ : ℤ}
    {ds ds₂ : List (Deal P)} (h : Fill k R f ds R' f') (h₂ : Fill k R f ds₂ R₂ f₂) :
    ds₂ = ds ∧ R₂ = R' ∧ f₂ = f' := by
  induction h generalizing ds₂ R₂ f₂ with
  | done h =>
      cases h₂ with
      | done => exact ⟨rfl, rfl, rfl⟩
      | trade hf ht hr =>
          rcases h with h | h
          · exact absurd hf h.not_gt
          · exact absurd hr (h _ ht)
  | @trade _ _ _ _ _ t _ hf ht hr best hq _ ih =>
      cases h₂ with
      | done h =>
          rcases h with h | h
          · exact absurd hf h.not_gt
          · exact absurd hr (h t ht)
      | @trade _ _ _ _ _ t₂ _ _ ht₂ hr₂ best₂ hq₂ rest₂ =>
          -- two best orders are one
          obtain rfl : t₂ = t := by
            by_contra hne
            exact (best t₂ ht₂ hr₂ hne).asymm (hr₂.1.trans hr.1.symm)
              (best₂ t ht hr (Ne.symm hne))
          subst hq hq₂
          obtain ⟨rfl, rfl, rfl⟩ := ih rest₂
          exact ⟨rfl, rfl, rfl⟩

end Priority

/-! ### Calls -/

namespace Exchange

variable {P : Type} [LinearOrder P]

/-- The exchange with nothing in it. -/
def empty : Exchange P := ⟨∅, 0⟩

/-- What an order leaves in the book: nothing, unless it is a limit order with something left. -/
def remainder (k : Taker P) (seq : ℕ) (f : ℤ) : Set (Ticket P) :=
  {t | f < k.quantity ∧ ∃ p, k.limit = some p ∧ t = ⟨seq, k.id, k.side, p, k.quantity, f⟩}

/-- The exchange without the orders of an id. -/
def without (x : Exchange P) (id : Int32) : Exchange P := { x with resting := {t ∈ x.resting | t.id ≠ id} }

/-- A submission: trades first, and then what is left. -/
inductive Submit (x : Exchange P) (k : Taker P) : List (Deal P) → ℤ → Exchange P → Prop where
  | intro {ds : List (Deal P)} {R : Set (Ticket P)} {f : ℤ} (h : Fill k x.resting 0 ds R f) :
      Submit x k ds f ⟨R ∪ remainder k x.next f, x.next + 1⟩

theorem Submit.functional {x x' x₂ : Exchange P} {k : Taker P} {ds ds₂ : List (Deal P)} {f f₂ : ℤ}
    (h : Submit x k ds f x') (h₂ : Submit x k ds₂ f₂ x₂) : ds₂ = ds ∧ f₂ = f ∧ x₂ = x' := by
  obtain ⟨h⟩ := h
  obtain ⟨h₂⟩ := h₂
  obtain ⟨rfl, rfl, rfl⟩ := h.functional h₂
  exact ⟨rfl, rfl, rfl⟩

/-- The incoming order of a submission: `add_order` looks at the type. -/
def taker (o : Order P) : Taker P where
  id := o.id
  side := o.side
  limit := if o.type = .limit then some o.price else none
  quantity := o.quantity.toInt

/-- One call. -/
inductive Step (x : Exchange P) :
    BookOp P → List (Deal P) → Outcome → Exchange P → Prop where
  | add {env : Env} {o : Order P} {ds : List (Deal P)} {f : ℤ} {x' : Exchange P}
      (h : Submit x (taker o) ds f x') : Step x (.add env o) ds (.filled f) x'
  | addMarket {env : Env} {o : Order P} {ds : List (Deal P)} {f : ℤ} {x' : Exchange P}
      (h : Submit x { taker o with limit := none } ds f x') :
      Step x (.addMarket env o) ds (.filled f) x'
  | cancelMiss {id : Int32} (h : ∀ t ∈ x.resting, t.id ≠ id) :
      Step x (.cancel id) [] (.flag false) x
  | cancelHit {id : Int32} {t : Ticket P} (ht : t ∈ x.resting) (hid : t.id = id) :
      Step x (.cancel id) [] (.flag true) (x.without id)
  | modifyMiss {env : Env} {id q : Int32} {p : P} (h : ∀ t ∈ x.resting, t.id ≠ id) :
      Step x (.modify env id p q) [] .rejected x
  | modifyHit {env : Env} {id q : Int32} {p : P} {t : Ticket P} {ds : List (Deal P)} {f : ℤ}
      {x' : Exchange P} (ht : t ∈ x.resting) (hid : t.id = id)
      (h : Submit (x.without id) ⟨id, t.side, some p, q.toInt⟩ ds f x') :
      Step x (.modify env id p q) ds (.filled f) x'
  | cutLevel {side : Side} {price : P} :
      Step x (.updateLevel side price 0) [] .done
        { x with resting := {t ∈ x.resting | ¬ (t.side = side ∧ t.price = price)} }
  | keepLevel {side : Side} {price : P} {size : Int32} (h : size ≠ 0) :
      Step x (.updateLevel side price size) [] .done x

/-- **A call has one outcome**, when the resting orders have different ids. -/
theorem Step.functional {x x' x₂ : Exchange P} {op : BookOp P} {ds ds₂ : List (Deal P)}
    {y y₂ : Outcome} (hid : ∀ t ∈ x.resting, ∀ t' ∈ x.resting, t.id = t'.id → t = t')
    (h : Step x op ds y x') (h₂ : Step x op ds₂ y₂ x₂) : ds₂ = ds ∧ y₂ = y ∧ x₂ = x' := by
  cases h with
  | add h =>
      cases h₂ with
      | add h₂ =>
          obtain ⟨rfl, rfl, rfl⟩ := h.functional h₂
          exact ⟨rfl, rfl, rfl⟩
  | addMarket h =>
      cases h₂ with
      | addMarket h₂ =>
          obtain ⟨rfl, rfl, rfl⟩ := h.functional h₂
          exact ⟨rfl, rfl, rfl⟩
  | cancelMiss h =>
      cases h₂ with
      | cancelMiss => exact ⟨rfl, rfl, rfl⟩
      | cancelHit ht he => exact absurd he (h _ ht)
  | cancelHit ht he =>
      cases h₂ with
      | cancelMiss h => exact absurd he (h _ ht)
      | cancelHit => exact ⟨rfl, rfl, rfl⟩
  | modifyMiss h =>
      cases h₂ with
      | modifyMiss => exact ⟨rfl, rfl, rfl⟩
      | modifyHit ht he => exact absurd he (h _ ht)
  | modifyHit ht he h =>
      cases h₂ with
      | modifyMiss h => exact absurd he (h _ ht)
      | modifyHit ht₂ he₂ h₂ =>
          cases hid _ ht _ ht₂ (he.trans he₂.symm)
          obtain ⟨rfl, rfl, rfl⟩ := h.functional h₂
          exact ⟨rfl, rfl, rfl⟩
  | cutLevel =>
      cases h₂ with
      | cutLevel => exact ⟨rfl, rfl, rfl⟩
      | keepLevel h => exact absurd rfl h
  | keepLevel h =>
      cases h₂ with
      | cutLevel => exact absurd rfl h
      | keepLevel => exact ⟨rfl, rfl, rfl⟩

/-- The resting orders of a side in the order they are reached. -/
def Lists (x : Exchange P) (s : Side) (l : List (Ticket P)) : Prop :=
  l.Pairwise Ticket.Prior ∧ ∀ t, t ∈ l ↔ t ∈ x.resting ∧ t.side = s

end Exchange

end Aspira
