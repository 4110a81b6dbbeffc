import Aspira.Support.Consume

/-!
# Support — Greedy

Taking an amount off the front of a list of lots is the best that can be done, if the lots are in the
order of their prices.  A `Choice` is any other way: of each lot some amount, not more than there is.

* `amount_pieces`: how much is taken, where the lots within reach come first.
* `amount_le_pieces`: no choice within reach takes more.
* `cost_pieces_le`: a choice that takes as much does not cost less.
-/

namespace Aspira.Stock

variable {α : Type*} {L : Stock α} {reach : α → Prop} [DecidablePred reach] {left : ℤ} {l : List α}
  {c : List (α × ℤ)}

/-- How much is taken of the lots. -/
def amount (c : List (α × ℤ)) : ℤ := (c.map Prod.snd).sum

/-- A way to take something of each lot of a list. -/
structure Choice (L : Stock α) (l : List α) (c : List (α × ℤ)) : Prop where
  lots : c.map Prod.fst = l
  nonneg : ∀ p ∈ c, 0 ≤ p.2
  le : ∀ p ∈ c, p.2 ≤ L.size p.1

theorem Choice.cons_inv {x : α} (h : L.Choice (x :: l) c) :
    ∃ k c', c = (x, k) :: c' ∧ 0 ≤ k ∧ k ≤ L.size x ∧ L.Choice l c' := by
  cases c with
  | nil => cases h.lots
  | cons p c =>
      obtain ⟨hp, hc⟩ := List.cons.inj h.lots
      refine ⟨p.2, c, by rw [← hp], h.nonneg p (List.mem_cons_self ..), ?_, hc,
        fun q hq => h.nonneg q (List.mem_cons_of_mem p hq),
        fun q hq => h.le q (List.mem_cons_of_mem p hq)⟩
      rw [← hp]
      exact h.le p (List.mem_cons_self ..)

theorem Choice.amount_nonneg (h : L.Choice l c) : 0 ≤ amount c := by
  refine List.sum_nonneg fun k hk => ?_
  obtain ⟨p, hp, rfl⟩ := List.mem_map.mp hk
  exact h.nonneg p hp

/-! ### How much -/

theorem total_nonneg (hl : ∀ x ∈ l, L.Lot x) : 0 ≤ L.total l := by
  refine List.sum_nonneg fun k hk => ?_
  obtain ⟨x, hx, rfl⟩ := List.mem_map.mp hk
  exact (L.size_pos (hl x hx)).le

theorem filter_reach_of_not {x : α} (hmono : (x :: l).Pairwise fun a b => reach b → reach a)
    (hx : ¬ reach x) : (x :: l).filter (fun y => reach y) = [] := by
  rw [List.filter_eq_nil_iff]
  intro y hy hreach
  rw [decide_eq_true_eq] at hreach
  rcases List.mem_cons.mp hy with rfl | hy
  · exact hx hreach
  · exact hx ((List.pairwise_cons.mp hmono).1 y hy hreach)

/-- **How much is taken**: what is asked for, or all within reach. -/
theorem amount_pieces (hl : ∀ x ∈ l, L.Lot x) (hmono : l.Pairwise fun a b => reach b → reach a)
    (h : 0 ≤ left) :
    amount (L.pieces reach left l) = min left (L.total (l.filter fun x => reach x)) := by
  induction l generalizing left with
  | nil => exact (min_eq_right h).symm
  | cons x l ih =>
      have hl' : ∀ y ∈ l, L.Lot y := fun y hy => hl y (List.mem_cons_of_mem x hy)
      have hpos := L.size_pos (hl x (List.mem_cons_self ..))
      have hrest : 0 ≤ L.total (l.filter fun y => reach y) :=
        total_nonneg fun y hy => hl' y (List.mem_of_mem_filter hy)
      by_cases hx : reach x
      · have htotal : L.total ((x :: l).filter fun y => reach y) =
            L.size x + L.total (l.filter fun y => reach y) := by
          rw [List.filter_cons_of_pos (by simpa using hx)]
          rfl
        rcases h.eq_or_lt with rfl | h₀
        · rw [pieces_of_nonpos le_rfl, htotal]
          show (0 : ℤ) = _
          omega
        · by_cases hle : L.size x ≤ left
          · have htail := ih hl' (List.pairwise_cons.mp hmono).2 (show 0 ≤ left - L.size x by omega)
            rw [pieces_take h₀ hx hle, htotal]
            show L.size x + amount _ = _
            omega
          · rw [pieces_cut h₀ hx (not_le.mp hle), htotal]
            show left + 0 = _
            omega
      · rw [pieces_stop fun hpos => hx hpos.2, filter_reach_of_not hmono hx]
        exact (min_eq_right h).symm

/-- A choice within reach takes no more than there is within reach. -/
theorem Choice.amount_le (h : L.Choice l c) (hl : ∀ x ∈ l, L.Lot x)
    (hreach : ∀ p ∈ c, 0 < p.2 → reach p.1) :
    amount c ≤ L.total (l.filter fun x => reach x) := by
  induction l generalizing c with
  | nil =>
      cases c with
      | nil => exact le_rfl
      | cons p c => cases h.lots
  | cons x l ih =>
      obtain ⟨k, c, rfl, hk₀, hk, h'⟩ := h.cons_inv
      have htail := ih h' (fun y hy => hl y (List.mem_cons_of_mem x hy))
        fun p hp => hreach p (List.mem_cons_of_mem _ hp)
      show k + amount c ≤ _
      by_cases hx : reach x
      · rw [List.filter_cons_of_pos (by simpa using hx)]
        show k + amount c ≤ L.size x + L.total _
        omega
      · have hzero : k ≤ 0 := not_lt.mp fun hpos => hx (hreach _ (List.mem_cons_self ..) hpos)
        rw [List.filter_cons_of_neg (by simpa using hx)]
        omega

/-- **No choice within reach takes more.** -/
theorem amount_le_pieces (hl : ∀ x ∈ l, L.Lot x) (hmono : l.Pairwise fun a b => reach b → reach a)
    (hc : L.Choice l c) (hreach : ∀ p ∈ c, 0 < p.2 → reach p.1) (hle : amount c ≤ left) :
    amount c ≤ amount (L.pieces reach left l) := by
  rw [amount_pieces hl hmono (hc.amount_nonneg.trans hle)]
  exact le_min hle (hc.amount_le hl hreach)

/-! ### At what cost -/

variable {K : Type*} [CommRing K]

/-- What is taken, at the price of each lot. -/
def cost (w : α → K) (c : List (α × ℤ)) : K := (c.map fun p => w p.1 * (p.2 : K)).sum

theorem cost_cons (w : α → K) (x : α) (k : ℤ) (c : List (α × ℤ)) :
    cost w ((x, k) :: c) = w x * (k : K) + cost w c := rfl

theorem cost_sub (w : α → K) (a : K) (c : List (α × ℤ)) :
    cost (fun x => w x - a) c = cost w c - a * (amount c : K) := by
  induction c with
  | nil => simp [cost, amount]
  | cons p c ih =>
      show (w p.1 - a) * (p.2 : K) + cost (fun x => w x - a) c =
        w p.1 * (p.2 : K) + cost w c - a * ((p.2 + amount c : ℤ) : K)
      rw [ih]
      push_cast
      ring

variable [LinearOrder K] [IsStrictOrderedRing K]

theorem cost_nonneg {w : α → K} (hw : ∀ p ∈ c, 0 ≤ w p.1) (hc : ∀ p ∈ c, 0 ≤ p.2) :
    0 ≤ cost w c := by
  refine List.sum_nonneg fun k hk => ?_
  obtain ⟨p, hp, rfl⟩ := List.mem_map.mp hk
  exact mul_nonneg (hw p hp) (by exact_mod_cast hc p hp)

/-- A choice that takes more does not cost less, if no price is negative. -/
theorem cost_pieces_le_of_nonneg {w : α → K} (hs : l.Pairwise fun a b => w a ≤ w b)
    (hw : ∀ x ∈ l, 0 ≤ w x) (hl : ∀ x ∈ l, L.Lot x) (hc : L.Choice l c)
    (hle : amount (L.pieces reach left l) ≤ amount c) :
    cost w (L.pieces reach left l) ≤ cost w c := by
  induction l generalizing left c w with
  | nil =>
      have hnil : c = [] := List.map_eq_nil_iff.mp hc.lots
      rw [hnil]
      exact le_rfl
  | cons x l ih =>
      obtain ⟨k, c, rfl, hk₀, hk, hc'⟩ := hc.cons_inv
      obtain ⟨hx, hs'⟩ := List.pairwise_cons.mp hs
      have hmem : ∀ p ∈ c, p.1 ∈ l := fun p hp => hc'.lots ▸ List.mem_map_of_mem hp
      have hwx := hw x (List.mem_cons_self ..)
      -- no lot of the rest is cheaper than this one
      have hrest := cost_sub w (w x) c
      have hdear : 0 ≤ cost (fun y => w y - w x) c :=
        cost_nonneg (fun p hp => sub_nonneg.mpr (hx _ (hmem p hp))) hc'.nonneg
      have hchoice : cost w ((x, k) :: c) =
          w x * ((k + amount c : ℤ) : K) + cost (fun y => w y - w x) c := by
        rw [cost_cons, hrest]
        push_cast
        ring
      rw [hchoice]
      by_cases hstop : 0 < left ∧ reach x
      · by_cases hsize : L.size x ≤ left
        · rw [pieces_take hstop.1 hstop.2 hsize] at hle ⊢
          have htail : cost (fun y => w y - w x) (L.pieces reach (left - L.size x) l) ≤
              cost (fun y => w y - w x) c := by
            refine ih (hs'.imp fun h => sub_le_sub_right h _) (fun y hy => sub_nonneg.mpr (hx y hy))
              (fun y hy => hl y (List.mem_cons_of_mem x hy)) hc' ?_
            have hsum : L.size x + amount (L.pieces reach (left - L.size x) l) ≤ k + amount c := hle
            omega
          have hsum : ((L.size x + amount (L.pieces reach (left - L.size x) l) : ℤ) : K) ≤
              ((k + amount c : ℤ) : K) := by exact_mod_cast hle
          have hgreedy : cost w ((x, L.size x) :: L.pieces reach (left - L.size x) l) =
              w x * ((L.size x + amount (L.pieces reach (left - L.size x) l) : ℤ) : K) +
                cost (fun y => w y - w x) (L.pieces reach (left - L.size x) l) := by
            rw [cost_cons, cost_sub]
            push_cast
            ring
          rw [hgreedy]
          exact add_le_add (mul_le_mul_of_nonneg_left hsum hwx) htail
        · rw [pieces_cut hstop.1 hstop.2 (not_le.mp hsize)] at hle ⊢
          have hsum : ((left + 0 : ℤ) : K) ≤ ((k + amount c : ℤ) : K) := by exact_mod_cast hle
          have hcut : cost w [(x, left)] = w x * ((left + 0 : ℤ) : K) := by
            rw [cost_cons, add_zero]
            exact add_zero _
          rw [hcut]
          exact (mul_le_mul_of_nonneg_left hsum hwx).trans (le_add_of_nonneg_right hdear)
      · rw [pieces_stop hstop] at hle ⊢
        have hsum : ((0 : ℤ) : K) ≤ ((k + amount c : ℤ) : K) := by exact_mod_cast hle
        rw [Int.cast_zero] at hsum
        exact add_nonneg (mul_nonneg hwx hsum) hdear

/-- **A choice that takes as much does not cost less.** -/
theorem cost_pieces_le {w : α → K} (hs : l.Pairwise fun a b => w a ≤ w b)
    (hl : ∀ x ∈ l, L.Lot x) (hc : L.Choice l c)
    (heq : amount c = amount (L.pieces reach left l)) :
    cost w (L.pieces reach left l) ≤ cost w c := by
  cases l with
  | nil =>
      have hnil : c = [] := List.map_eq_nil_iff.mp hc.lots
      rw [hnil]
      exact le_rfl
  | cons x l =>
      have hle := cost_pieces_le_of_nonneg (w := fun y => w y - w x)
        (hs.imp fun h => sub_le_sub_right h _) (fun y hy => ?_) hl hc heq.ge
      · rw [cost_sub, cost_sub, heq] at hle
        exact (sub_le_sub_iff_right _).mp hle
      · rcases List.mem_cons.mp hy with rfl | hy
        · exact (sub_self _).ge
        · exact sub_nonneg.mpr ((List.pairwise_cons.mp hs).1 y hy)

end Aspira.Stock
