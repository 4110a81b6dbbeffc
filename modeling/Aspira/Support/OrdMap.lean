import Mathlib

/-!
# Support — OrdMap

A map kept as a list of entries in strictly increasing key order, for any strict total order `r`:
what an ordered associative container iterates over.  The order is a field, so a map out of order
cannot be built.

`alter k f` is the one update: it hands `f` the value at `k`, if any, and stores what `f` returns.
Finding, creating, replacing and erasing an entry are instances of it.  `exists_split` says all that
`find` and `alter` do: the entries before `k`, the entry at `k`, the entries after `k`, of which
`alter` touches the middle one only.

A map of groups (`Grouped`) is told from the members of its groups in a row.  `forall_alter_join` and
`forall_alter_cut` say what a group that grows or shrinks leaves true of all members.

`restrict f` is what is seen of a map through `f`, which may drop entries; `find_restrict` and
`restrict_alter` say how finding and altering look through it.
-/

namespace Aspira

/-- Entries in strictly increasing order of their keys. -/
structure OrdMap (K V : Type*) (r : K → K → Prop) where
  entries : List (K × V)
  sorted : entries.Pairwise (fun a b => r a.1 b.1)

namespace OrdMap

variable {K V : Type*} {r : K → K → Prop}

@[ext] theorem ext {m m' : OrdMap K V r} (h : m.entries = m'.entries) : m = m' := by
  cases m; cases m'; cases h; rfl

/-- The map with no entry. -/
def empty : OrdMap K V r := ⟨[], .nil⟩

@[simp] theorem entries_empty : (empty : OrdMap K V r).entries = [] := rfl

/-- A sublist of a map's entries is a map. -/
def ofSublist (m : OrdMap K V r) (l : List (K × V))
    (h : (l.map Prod.fst).Sublist (m.entries.map Prod.fst)) : OrdMap K V r :=
  ⟨l, List.pairwise_map.mp ((List.pairwise_map.mpr m.sorted).sublist h)⟩

section Lookup

/-- The entry at `k`, as a list: none or one. -/
def entryAt (k : K) : Option V → List (K × V)
  | none => []
  | some v => [(k, v)]

@[simp] theorem entryAt_none (k : K) : entryAt k (none : Option V) = [] := rfl

@[simp] theorem entryAt_some (k : K) (v : V) : entryAt k (some v) = [(k, v)] := rfl

theorem mem_entryAt {k : K} {o : Option V} {e : K × V} :
    e ∈ entryAt k o ↔ e.1 = k ∧ o = some e.2 := by
  cases o with
  | none => simp
  | some v =>
      simp only [entryAt_some, List.mem_singleton, Option.some.injEq]
      constructor
      · rintro rfl
        exact ⟨rfl, rfl⟩
      · rintro ⟨rfl, rfl⟩
        rfl

variable [DecidableRel r]

/-- The value at `k` in a list of entries sorted by `r`; the search stops at the first key past
`k`. -/
def findList (r : K → K → Prop) [DecidableRel r] (k : K) : List (K × V) → Option V
  | [] => none
  | e :: l => if r k e.1 then none else if r e.1 k then findList r k l else some e.2

/-- The entries with the value at `k` replaced by what `f` makes of it. -/
def alterList (r : K → K → Prop) [DecidableRel r] (k : K) (f : Option V → Option V) :
    List (K × V) → List (K × V)
  | [] => entryAt k (f none)
  | e :: l =>
      if r k e.1 then entryAt k (f none) ++ e :: l
      else if r e.1 k then e :: alterList r k f l
      else entryAt k (f (some e.2)) ++ l

/-- The value stored at `k`. -/
def find (m : OrdMap K V r) (k : K) : Option V := findList r k m.entries

variable [IsStrictTotalOrder K r]

/-- **The entries around a key.**  A sorted list of entries falls into those before `k`, the one at
`k` if there is one, and those after `k`; `findList` returns the middle one and `alterList` changes
nothing else. -/
theorem exists_split_list (k : K) {l : List (K × V)} (hs : l.Pairwise (fun a b => r a.1 b.1)) :
    ∃ A B, (∀ a ∈ A, r a.1 k) ∧ (∀ b ∈ B, r k b.1) ∧
      l = A ++ entryAt k (findList r k l) ++ B ∧
      ∀ f, alterList r k f l = A ++ entryAt k (f (findList r k l)) ++ B := by
  induction l with
  | nil =>
      exact ⟨[], [], by simp, by simp, by simp [findList], fun f => by simp [alterList, findList]⟩
  | cons e l ih =>
      obtain ⟨he, hl⟩ := List.pairwise_cons.mp hs
      by_cases h₁ : r k e.1
      · refine ⟨[], e :: l, by simp, ?_, by simp [findList, h₁],
          fun f => by simp [alterList, findList, h₁]⟩
        rintro b (_ | ⟨_, hb⟩)
        · exact h₁
        · exact IsTrans.trans _ _ _ h₁ (he b hb)
      · by_cases h₂ : r e.1 k
        · obtain ⟨A, B, hA, hB, hl', hf⟩ := ih hl
          refine ⟨e :: A, B, ?_, hB, ?_, fun f => ?_⟩
          · rintro a (_ | ⟨_, ha⟩)
            · exact h₂
            · exact hA a ha
          · simpa [findList, h₁, h₂] using hl'
          · simpa [alterList, findList, h₁, h₂] using hf f
        · -- neither before nor after: the keys are equal
          obtain rfl : e.1 = k := by
            rcases trichotomous_of r e.1 k with h | h | h
            · exact absurd h h₂
            · exact h
            · exact absurd h h₁
          exact ⟨[], l, by simp, he, by simp [findList, h₁],
            fun f => by simp [alterList, findList, h₁]⟩

theorem alterList_sorted (k : K) (f : Option V → Option V) {l : List (K × V)}
    (hs : l.Pairwise (fun a b => r a.1 b.1)) :
    (alterList r k f l).Pairwise (fun a b => r a.1 b.1) := by
  obtain ⟨A, B, hA, hB, hl, hf⟩ := exists_split_list (r := r) k hs
  rw [hl, List.append_assoc, List.pairwise_append, List.pairwise_append] at hs
  obtain ⟨sA, ⟨-, sB, -⟩, hAB⟩ := hs
  rw [hf, List.append_assoc, List.pairwise_append, List.pairwise_append]
  refine ⟨sA, ⟨?_, sB, fun a ha b hb => ?_⟩, fun a ha b hb => ?_⟩
  · cases f (findList r k l) <;> simp
  · rw [(mem_entryAt.mp ha).1]
    exact hB b hb
  · rcases List.mem_append.mp hb with hb | hb
    · rw [(mem_entryAt.mp hb).1]
      exact hA a ha
    · exact hAB a ha b (List.mem_append_right _ hb)

/-- The map with the value at `k` replaced by what `f` makes of it. -/
def alter (m : OrdMap K V r) (k : K) (f : Option V → Option V) : OrdMap K V r :=
  ⟨alterList r k f m.entries, alterList_sorted k f m.sorted⟩

/-- **The map around a key**: `exists_split_list`, for `find` and `alter`. -/
theorem exists_split (m : OrdMap K V r) (k : K) :
    ∃ A B, (∀ a ∈ A, r a.1 k) ∧ (∀ b ∈ B, r k b.1) ∧
      m.entries = A ++ entryAt k (m.find k) ++ B ∧
      ∀ f, (m.alter k f).entries = A ++ entryAt k (f (m.find k)) ++ B :=
  exists_split_list k m.sorted

/-- `find` returns the value of the entry that has the key. -/
theorem find_eq_some_iff {m : OrdMap K V r} {k : K} {v : V} :
    m.find k = some v ↔ (k, v) ∈ m.entries := by
  obtain ⟨A, B, hA, hB, hm, -⟩ := m.exists_split k
  rw [hm]
  constructor
  · intro h
    simp [h]
  · intro h
    simp only [List.mem_append, mem_entryAt] at h
    rcases h with (h | h) | h
    · exact absurd (hA _ h) (irrefl k)
    · exact h.2
    · exact absurd (hB _ h) (irrefl k)

/-- The entries of an altered map: those at other keys, and what `f` made of the one at `k`. -/
theorem mem_alter {m : OrdMap K V r} {k : K} {f : Option V → Option V} {e : K × V} :
    e ∈ (m.alter k f).entries ↔
      e ∈ m.entries ∧ e.1 ≠ k ∨ e.1 = k ∧ f (m.find k) = some e.2 := by
  obtain ⟨A, B, hA, hB, hm, hf⟩ := m.exists_split k
  have neA : ∀ a ∈ A, a.1 ≠ k := fun a ha h => irrefl k (h ▸ hA a ha)
  have neB : ∀ b ∈ B, b.1 ≠ k := fun b hb h => irrefl k (h ▸ hB b hb)
  rw [hf, hm]
  simp only [List.mem_append, mem_entryAt]
  constructor
  · rintro ((h | h) | h)
    · exact .inl ⟨.inl (.inl h), neA e h⟩
    · exact .inr h
    · exact .inl ⟨.inr h, neB e h⟩
  · rintro (⟨(h | h) | h, hne⟩ | h)
    · exact .inl (.inl h)
    · exact absurd h.1 hne
    · exact .inr h
    · exact .inl (.inr h)

/-- A list that falls into entries before `k`, at `k` and after `k` does so in one way. -/
theorem findList_of_split {k : K} {A B : List (K × V)} (o : Option V) (hA : ∀ a ∈ A, r a.1 k)
    (hB : ∀ b ∈ B, r k b.1) :
    findList r k (A ++ entryAt k o ++ B) = o ∧
      ∀ f, alterList r k f (A ++ entryAt k o ++ B) = A ++ entryAt k (f o) ++ B := by
  induction A with
  | nil =>
      cases o with
      | none =>
          cases B with
          | nil => exact ⟨rfl, fun f => (List.append_nil _).symm⟩
          | cons b B =>
              have hb := hB b (List.mem_cons_self ..)
              exact ⟨if_pos hb, fun f => if_pos hb⟩
      | some v =>
          have hk : ¬ r k k := irrefl k
          refine ⟨?_, fun f => ?_⟩
          · simp [findList, hk]
          · simp [alterList, hk]
  | cons a A ih =>
      obtain ⟨hfind, halter⟩ := ih fun a' ha' => hA a' (List.mem_cons_of_mem a ha')
      have ha := hA a (List.mem_cons_self ..)
      have ha' : ¬ r k a.1 := asymm ha
      refine ⟨?_, fun f => ?_⟩
      · simp only [List.append_assoc] at hfind
        simp [findList, ha, ha', hfind]
      · have hf := halter f
        simp only [List.append_assoc] at hf
        simp [alterList, ha, ha', hf]

theorem alter_alter (m : OrdMap K V r) (k : K) (f g : Option V → Option V) :
    (m.alter k f).alter k g = m.alter k (g ∘ f) := by
  obtain ⟨A, B, hA, hB, -, hf⟩ := m.exists_split k
  refine ext ?_
  rw [hf (g ∘ f)]
  show alterList r k g (m.alter k f).entries = _
  rw [hf f]
  exact (findList_of_split _ hA hB).2 g

theorem alter_id (m : OrdMap K V r) (k : K) : m.alter k id = m := by
  obtain ⟨A, B, -, -, hm, hf⟩ := m.exists_split k
  exact ext ((hf id).trans hm.symm)

end Lookup

/-! ### Groups -/

section Groups

variable {A : Type*} {key : A → K} {l l' : List (K × List A)}

/-- Every entry is a group: it has members, and its key is theirs. -/
structure Grouped (key : A → K) (l : List (K × List A)) : Prop where
  nonempty : ∀ e ∈ l, e.2 ≠ []
  at_key : ∀ e ∈ l, ∀ a ∈ e.2, key a = e.1

theorem Grouped.tail {e : K × List A} (h : Grouped key (e :: l)) : Grouped key l :=
  ⟨fun e' he' => h.nonempty e' (List.mem_cons_of_mem e he'),
    fun e' he' => h.at_key e' (List.mem_cons_of_mem e he')⟩

variable [IsStrictTotalOrder K r]

/-- The members of the later groups have other keys. -/
theorem Grouped.key_ne {e : K × List A} (h : Grouped key (e :: l))
    (hs : (e :: l).Pairwise fun a b => r a.1 b.1) : ∀ a ∈ l.flatMap Prod.snd, key a ≠ e.1 := by
  intro a ha heq
  obtain ⟨e', he', hae'⟩ := List.mem_flatMap.mp ha
  rw [h.tail.at_key e' he' a hae'] at heq
  have hlt := (List.pairwise_cons.mp hs).1 e' he'
  rw [heq] at hlt
  exact irrefl e.1 hlt

variable [DecidableEq K]

/-- The members with the key of the first group are that group. -/
theorem Grouped.filter_head {e : K × List A} (h : Grouped key (e :: l))
    (hs : (e :: l).Pairwise fun a b => r a.1 b.1) :
    ((e :: l).flatMap Prod.snd).filter (fun a => key a = e.1) = e.2 := by
  have hown : e.2.filter (fun a => key a = e.1) = e.2 :=
    List.filter_eq_self.mpr fun a ha => decide_eq_true (h.at_key e (List.mem_cons_self ..) a ha)
  have hlater : (l.flatMap Prod.snd).filter (fun a => key a = e.1) = [] :=
    List.filter_eq_nil_iff.mpr fun a ha hk => h.key_ne hs a ha (of_decide_eq_true hk)
  rw [List.flatMap_cons, List.filter_append, hown, hlater, List.append_nil]

/-- **The members with the key of a group are the group.** -/
theorem Grouped.filter (h : Grouped key l) (hs : l.Pairwise fun a b => r a.1 b.1) {e : K × List A}
    (he : e ∈ l) : (l.flatMap Prod.snd).filter (fun a => key a = e.1) = e.2 := by
  induction l with
  | nil => exact absurd he List.not_mem_nil
  | cons e' l ih =>
      rcases List.mem_cons.mp he with rfl | hmem
      · exact h.filter_head hs
      · obtain ⟨hlt, hs'⟩ := List.pairwise_cons.mp hs
        have hne : e'.1 ≠ e.1 := fun heq => irrefl e.1 (heq ▸ hlt e hmem)
        have hfirst : e'.2.filter (fun a => key a = e.1) = [] := by
          refine List.filter_eq_nil_iff.mpr fun a ha hk => hne ?_
          rw [← h.at_key e' (List.mem_cons_self ..) a ha]
          exact of_decide_eq_true hk
        rw [List.flatMap_cons, List.filter_append, hfirst, List.nil_append]
        exact ih h.tail hs' hmem

omit [DecidableEq K] in
/-- **Groups are told from their members in a row.** -/
theorem Grouped.ext (h : Grouped key l) (h' : Grouped key l')
    (hs : l.Pairwise fun a b => r a.1 b.1) (hs' : l'.Pairwise fun a b => r a.1 b.1)
    (heq : l.flatMap Prod.snd = l'.flatMap Prod.snd) : l = l' := by
  classical
  induction l generalizing l' with
  | nil =>
      cases l' with
      | nil => rfl
      | cons e' l' =>
          have hne := h'.nonempty e' (List.mem_cons_self ..)
          exact absurd (List.append_eq_nil_iff.mp heq.symm).1 hne
  | cons e l ih =>
      cases l' with
      | nil => exact absurd (List.append_eq_nil_iff.mp heq).1 (h.nonempty e (List.mem_cons_self ..))
      | cons e' l' =>
          -- the first member belongs to both first groups
          obtain ⟨a, t, hat⟩ := List.exists_cons_of_ne_nil (h.nonempty e (List.mem_cons_self ..))
          obtain ⟨a', t', hat'⟩ := List.exists_cons_of_ne_nil (h'.nonempty e' (List.mem_cons_self ..))
          have hflat : e.2 ++ l.flatMap Prod.snd = e'.2 ++ l'.flatMap Prod.snd := heq
          have hfirst : a = a' := by
            rw [hat, hat', List.cons_append, List.cons_append] at hflat
            exact (List.cons.inj hflat).1
          have hkey : e.1 = e'.1 := by
            rw [← h.at_key e (List.mem_cons_self ..) a (by simp [hat]), hfirst,
              h'.at_key e' (List.mem_cons_self ..) a' (by simp [hat'])]
          have hgroup : e.2 = e'.2 := by
            rw [← h.filter_head hs, ← h'.filter_head hs', heq, hkey]
          rw [hgroup] at hflat
          rw [Prod.ext hkey hgroup, ih h.tail h'.tail (List.pairwise_cons.mp hs).2
            (List.pairwise_cons.mp hs').2 (List.append_cancel_left hflat)]

end Groups

section Members

variable [DecidableRel r] [IsStrictTotalOrder K r] {A : Type*} {T : K → A → Prop}
  {m : OrdMap K (List A) r} {k : K}

/-- What the members of all groups have with their keys, they have when one more joins. -/
theorem forall_alter_join (h : ∀ e ∈ m.entries, e.2 ≠ [] ∧ ∀ a ∈ e.2, T e.1 a) {x : A} (hx : T k x) :
    ∀ e ∈ (m.alter k fun l => some (l.getD [] ++ [x])).entries, e.2 ≠ [] ∧ ∀ a ∈ e.2, T e.1 a := by
  intro e he
  rcases mem_alter.mp he with ⟨he, -⟩ | ⟨hk, he⟩
  · exact h e he
  · rw [← Option.some.inj he, hk]
    refine ⟨by simp, fun a ha => ?_⟩
    rcases List.mem_append.mp ha with ha | ha
    · cases hfind : m.find k with
      | none =>
          rw [hfind] at ha
          exact absurd ha List.not_mem_nil
      | some l =>
          rw [hfind] at ha
          exact (h _ (find_eq_some_iff.mp hfind)).2 a ha
    · rw [List.mem_singleton.mp ha]
      exact hx

/-- They also have it when a group is replaced by members that do, or is given up with its last. -/
theorem forall_alter_cut (h : ∀ e ∈ m.entries, e.2 ≠ [] ∧ ∀ a ∈ e.2, T e.1 a) {rest : List A}
    (hrest : ∀ a ∈ rest, T k a) :
    ∀ e ∈ (m.alter k fun _ => if rest.isEmpty then none else some rest).entries,
      e.2 ≠ [] ∧ ∀ a ∈ e.2, T e.1 a := by
  intro e he
  rcases mem_alter.mp he with ⟨he, -⟩ | ⟨hk, he⟩
  · exact h e he
  · split at he
    · cases he
    · rename_i hne
      rw [← Option.some.inj he, hk]
      exact ⟨by simpa using hne, hrest⟩

end Members

/-! ### Views of the values -/

section Restrict

variable {W : Type*} (f : V → Option W)

/-- Entries with what `f` makes of their values. -/
def restrictList (l : List (K × V)) : List (K × W) :=
  l.filterMap fun e => (f e.2).map (Prod.mk e.1)

variable {f}

theorem mem_restrictList {l : List (K × V)} {e : K × W} :
    e ∈ restrictList f l ↔ ∃ v, (e.1, v) ∈ l ∧ f v = some e.2 := by
  rw [restrictList, List.mem_filterMap]
  constructor
  · rintro ⟨⟨k, v⟩, hmem, he⟩
    obtain ⟨w, hw, rfl⟩ := Option.map_eq_some_iff.mp he
    exact ⟨v, hmem, hw⟩
  · rintro ⟨v, hmem, hv⟩
    exact ⟨(e.1, v), hmem, by rw [hv]; rfl⟩

theorem restrictList_entryAt (k : K) (o : Option V) :
    restrictList f (entryAt k o) = entryAt k (o.bind f) := by
  cases o with
  | none => rfl
  | some v => cases h : f v <;> simp [restrictList, h]

theorem restrictList_append (l l' : List (K × V)) :
    restrictList f (l ++ l') = restrictList f l ++ restrictList f l' := List.filterMap_append

variable (f) in
/-- The map of what `f` makes of the values, without the entries it drops. -/
def restrict (m : OrdMap K V r) : OrdMap K W r :=
  ⟨restrictList f m.entries, m.sorted.filterMap _ fun a a' haa' b hb b' hb' => by
    obtain ⟨w, -, rfl⟩ := Option.map_eq_some_iff.mp hb
    obtain ⟨w', -, rfl⟩ := Option.map_eq_some_iff.mp hb'
    exact haa'⟩

variable [DecidableRel r] [IsStrictTotalOrder K r]

/-- The entries of a restricted map around a key. -/
theorem restrict_split (m : OrdMap K V r) (k : K) :
    ∃ A B, (∀ a ∈ A, r a.1 k) ∧ (∀ b ∈ B, r k b.1) ∧
      (m.restrict f).entries = A ++ entryAt k ((m.find k).bind f) ++ B ∧
      ∀ g, ((m.alter k g).restrict f).entries = A ++ entryAt k ((g (m.find k)).bind f) ++ B := by
  obtain ⟨A, B, hA, hB, hm, halter⟩ := m.exists_split k
  refine ⟨restrictList f A, restrictList f B, fun a ha => ?_, fun b hb => ?_, ?_, fun g => ?_⟩
  · obtain ⟨v, hv, -⟩ := mem_restrictList.mp ha
    exact hA _ hv
  · obtain ⟨v, hv, -⟩ := mem_restrictList.mp hb
    exact hB _ hv
  · show restrictList f m.entries = _
    rw [hm, restrictList_append, restrictList_append, restrictList_entryAt]
  · show restrictList f (m.alter k g).entries = _
    rw [halter, restrictList_append, restrictList_append, restrictList_entryAt]

theorem find_restrict (m : OrdMap K V r) (k : K) : (m.restrict f).find k = (m.find k).bind f := by
  obtain ⟨A, B, hA, hB, hm, -⟩ := m.restrict_split (f := f) k
  rw [find, hm]
  exact (findList_of_split _ hA hB).1

/-- **Altering commutes with a view** where it does so at the key. -/
theorem restrict_alter {m : OrdMap K V r} {k : K} {g : Option V → Option V}
    {g' : Option W → Option W} (h : (g (m.find k)).bind f = g' ((m.find k).bind f)) :
    (m.alter k g).restrict f = (m.restrict f).alter k g' := by
  obtain ⟨A, B, hA, hB, hm, halter⟩ := m.restrict_split (f := f) k
  refine ext ?_
  show _ = alterList r k g' (m.restrict f).entries
  rw [halter, h, hm]
  exact ((findList_of_split _ hA hB).2 g').symm

end Restrict

end OrdMap

end Aspira
