import Mathlib

/-!
# Support — Consume

Taking an amount off the front of a list of lots.  As long as something is left to take and the first
lot is within reach, it is taken whole, or cut into if it is larger than what is left.

`consume` is what stays of the list and what is left of the amount, `pieces` what is taken of each
lot.  Two amounts taken one after the other are their sum taken at once (`consume_add`).  Where every
lot is within reach, only the amount or the lots run out (`consume_of_reach`).
-/

namespace Aspira

/-- What makes lots of the elements of `α`: a positive size, and a way to cut into one. -/
structure Stock (α : Type*) where
  Lot : α → Prop
  size : α → ℤ
  cut : ℤ → α → α
  size_pos : ∀ {a}, Lot a → 0 < size a
  size_cut : ∀ {a k}, Lot a → 0 < k → k < size a → size (cut k a) = size a - k
  cut_cut : ∀ j k a, cut j (cut k a) = cut (k + j) a

namespace Stock

variable {α : Type*} (L : Stock α) (reach : α → Prop) [DecidablePred reach]

/-- What stays of the list, and of the amount. -/
def consume : ℤ → List α → List α × ℤ
  | left, [] => ([], left)
  | left, a :: l =>
      if 0 < left ∧ reach a then
        if L.size a ≤ left then consume (left - L.size a) l else (L.cut left a :: l, 0)
      else (a :: l, left)

/-- What is taken of each lot. -/
def pieces : ℤ → List α → List (α × ℤ)
  | _, [] => []
  | left, a :: l =>
      if 0 < left ∧ reach a then
        if L.size a ≤ left then (a, L.size a) :: pieces (left - L.size a) l else [(a, left)]
      else []

/-- The total size of some lots. -/
def total (l : List α) : ℤ := (l.map L.size).sum

variable {L reach} {a b left : ℤ} {x : α} {l : List α}

/-! ### One lot -/

theorem consume_stop (h : ¬ (0 < left ∧ reach x)) :
    L.consume reach left (x :: l) = (x :: l, left) := if_neg h

theorem consume_take (h₀ : 0 < left) (hx : reach x) (hle : L.size x ≤ left) :
    L.consume reach left (x :: l) = L.consume reach (left - L.size x) l := by
  rw [consume, if_pos ⟨h₀, hx⟩, if_pos hle]

theorem consume_cut (h₀ : 0 < left) (hx : reach x) (hlt : left < L.size x) :
    L.consume reach left (x :: l) = (L.cut left x :: l, 0) := by
  rw [consume, if_pos ⟨h₀, hx⟩, if_neg (not_le.mpr hlt)]

theorem pieces_stop (h : ¬ (0 < left ∧ reach x)) : L.pieces reach left (x :: l) = [] := if_neg h

theorem pieces_take (h₀ : 0 < left) (hx : reach x) (hle : L.size x ≤ left) :
    L.pieces reach left (x :: l) = (x, L.size x) :: L.pieces reach (left - L.size x) l := by
  rw [pieces, if_pos ⟨h₀, hx⟩, if_pos hle]

theorem pieces_cut (h₀ : 0 < left) (hx : reach x) (hlt : left < L.size x) :
    L.pieces reach left (x :: l) = [(x, left)] := by
  rw [pieces, if_pos ⟨h₀, hx⟩, if_neg (not_le.mpr hlt)]

/-! ### The whole list -/

theorem consume_of_nonpos (h : left ≤ 0) (l : List α) : L.consume reach left l = (l, left) := by
  cases l with
  | nil => rfl
  | cons x l => exact consume_stop fun hx => hx.1.not_ge h

theorem pieces_of_nonpos (h : left ≤ 0) (l : List α) : L.pieces reach left l = [] := by
  cases l with
  | nil => rfl
  | cons x l => exact pieces_stop fun hx => hx.1.not_ge h

/-- **Two amounts one after the other are their sum.** -/
theorem consume_add (hl : ∀ x ∈ l, L.Lot x) (hcut : ∀ k x, reach (L.cut k x) ↔ reach x) (ha : 0 ≤ a)
    (hb : 0 ≤ b) :
    L.consume reach (a + b) l = ((L.consume reach b (L.consume reach a l).1).1,
      (L.consume reach a l).2 + (L.consume reach b (L.consume reach a l).1).2) := by
  induction l generalizing a with
  | nil => rfl
  | cons x l ih =>
      by_cases hx : reach x
      · rcases ha.eq_or_lt with rfl | ha
        · rw [consume_of_nonpos le_rfl, zero_add, zero_add]
        · have hlot := hl x (List.mem_cons_self ..)
          by_cases hle : L.size x ≤ a
          · rw [consume_take ha hx hle, consume_take (by omega) hx (by omega),
              show a + b - L.size x = a - L.size x + b by omega]
            exact ih (fun y hy => hl y (List.mem_cons_of_mem x hy)) (by omega)
          · rw [not_le] at hle
            rw [consume_cut ha hx hle]
            dsimp only
            rcases hb.eq_or_lt with rfl | hb
            · rw [consume_of_nonpos le_rfl, add_zero, consume_cut ha hx hle, add_zero]
            · -- the second amount goes on with what the first one left of the lot
              have hsize := L.size_cut hlot ha hle
              have hreach := (hcut a x).mpr hx
              by_cases hge : L.size x ≤ a + b
              · rw [consume_take (by omega) hx hge, consume_take hb hreach (by omega), hsize,
                  show a + b - L.size x = b - (L.size x - a) by omega, zero_add]
              · rw [not_le] at hge
                rw [consume_cut (by omega) hx hge, consume_cut hb hreach (by omega), L.cut_cut, add_zero]
      · have hstop : ∀ c : ℤ, ¬ (0 < c ∧ reach x) := fun c h => hx h.2
        rw [consume_stop (hstop _), consume_stop (hstop _)]
        dsimp only
        rw [consume_stop (hstop _)]

/-- A piece is of a lot within reach, and not more than the lot. -/
theorem mem_pieces {p : α × ℤ} (hl : ∀ x ∈ l, L.Lot x) (hp : p ∈ L.pieces reach left l) :
    p.1 ∈ l ∧ reach p.1 ∧ 0 < p.2 ∧ p.2 ≤ L.size p.1 := by
  induction l generalizing left with
  | nil => exact absurd hp List.not_mem_nil
  | cons x l ih =>
      by_cases hx : 0 < left ∧ reach x
      · by_cases hle : L.size x ≤ left
        · rw [pieces_take hx.1 hx.2 hle] at hp
          rcases List.mem_cons.mp hp with rfl | hp
          · exact ⟨List.mem_cons_self .., hx.2, L.size_pos (hl x (List.mem_cons_self ..)), le_rfl⟩
          · obtain ⟨hmem, hrest⟩ := ih (fun y hy => hl y (List.mem_cons_of_mem x hy)) hp
            exact ⟨List.mem_cons_of_mem x hmem, hrest⟩
        · rw [not_le] at hle
          rw [pieces_cut hx.1 hx.2 hle, List.mem_singleton] at hp
          rw [hp]
          exact ⟨List.mem_cons_self .., hx.2, hx.1, hle.le⟩
      · rw [pieces_stop hx] at hp
        exact absurd hp List.not_mem_nil

/-- **With every lot within reach**, the amount runs out or the lots do. -/
theorem consume_of_reach (hl : ∀ x ∈ l, L.Lot x) (hreach : ∀ x ∈ l, reach x) (h : 0 ≤ left) :
    left - (L.consume reach left l).2 = min left (L.total l) := by
  have hnonneg : ∀ l : List α, (∀ x ∈ l, L.Lot x) → 0 ≤ L.total l := by
    intro l hl
    refine List.sum_nonneg fun k hk => ?_
    obtain ⟨x, hx, rfl⟩ := List.mem_map.mp hk
    exact (L.size_pos (hl x hx)).le
  induction l generalizing left with
  | nil =>
      show left - left = min left 0
      omega
  | cons x l ih =>
      have hx := hreach x (List.mem_cons_self ..)
      have hl' : ∀ y ∈ l, L.Lot y := fun y hy => hl y (List.mem_cons_of_mem x hy)
      have hrest := hnonneg l hl'
      have hpos := L.size_pos (hl x (List.mem_cons_self ..))
      have htotal : L.total (x :: l) = L.size x + L.total l := rfl
      rcases h.eq_or_lt with rfl | h₀
      · rw [consume_of_nonpos le_rfl]
        omega
      · by_cases hle : L.size x ≤ left
        · rw [consume_take h₀ hx hle]
          have := ih hl' (fun y hy => hreach y (List.mem_cons_of_mem x hy))
            (show 0 ≤ left - L.size x by omega)
          omega
        · rw [consume_cut h₀ hx (not_le.mp hle)]
          omega

/-- **What is taken of each lot is what goes missing**, also when the lots are weighted. -/
theorem sum_pieces (w : α → ℤ) (hw : ∀ k x, w (L.cut k x) = w x) (hl : ∀ x ∈ l, L.Lot x) :
    ((L.pieces reach left l).map fun p => w p.1 * p.2).sum =
      (l.map fun x => w x * L.size x).sum -
        ((L.consume reach left l).1.map fun x => w x * L.size x).sum := by
  induction l generalizing left with
  | nil => rfl
  | cons x l ih =>
      have hl' : ∀ y ∈ l, L.Lot y := fun y hy => hl y (List.mem_cons_of_mem x hy)
      by_cases hx : 0 < left ∧ reach x
      · by_cases hle : L.size x ≤ left
        · rw [pieces_take hx.1 hx.2 hle, consume_take hx.1 hx.2 hle, List.map_cons, List.sum_cons,
            List.map_cons, List.sum_cons, ih hl']
          ring
        · rw [not_le] at hle
          have hsize := L.size_cut (hl x (List.mem_cons_self ..)) hx.1 hle
          rw [pieces_cut hx.1 hx.2 hle, consume_cut hx.1 hx.2 hle]
          simp only [List.map_cons, List.map_nil, List.sum_cons, List.sum_nil, hw, hsize]
          ring
      · rw [pieces_stop hx, consume_stop hx]
        exact (sub_self _).symm

/-- The pieces make up what is taken of the amount. -/
theorem sum_pieces_snd :
    ((L.pieces reach left l).map Prod.snd).sum = left - (L.consume reach left l).2 := by
  induction l generalizing left with
  | nil => exact (sub_self left).symm
  | cons x l ih =>
      by_cases hx : 0 < left ∧ reach x
      · by_cases hle : L.size x ≤ left
        · rw [pieces_take hx.1 hx.2 hle, consume_take hx.1 hx.2 hle, List.map_cons, List.sum_cons, ih]
          ring
        · rw [not_le] at hle
          rw [pieces_cut hx.1 hx.2 hle, consume_cut hx.1 hx.2 hle, sub_zero]
          exact add_zero left
      · rw [pieces_stop hx, consume_stop hx]
        exact (sub_self left).symm

/-- If the first lot is within reach, a piece of it is taken. -/
theorem exists_piece (h₀ : 0 < left) (hx : reach x) : ∃ k, (x, k) ∈ L.pieces reach left (x :: l) := by
  rw [pieces, if_pos ⟨h₀, hx⟩]
  split
  · exact ⟨_, List.mem_cons_self ..⟩
  · exact ⟨_, List.mem_cons_self ..⟩

/-- Only the lots of the list need to be within the same reach. -/
theorem consume_congr {reach' : α → Prop} [DecidablePred reach'] (h : ∀ x ∈ l, (reach x ↔ reach' x)) :
    L.consume reach left l = L.consume reach' left l ∧
      L.pieces reach left l = L.pieces reach' left l := by
  induction l generalizing left with
  | nil => exact ⟨rfl, rfl⟩
  | cons x l ih =>
      have hx := h x (List.mem_cons_self ..)
      obtain ⟨hc, hp⟩ := @ih (left - L.size x) fun y hy => h y (List.mem_cons_of_mem x hy)
      constructor
      · rw [consume, consume, hc]
        simp only [hx]
      · rw [pieces, pieces, hp]
        simp only [hx]

end Stock

end Aspira
