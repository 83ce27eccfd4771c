import Mathlib.Data.List.Basic

/-!
# Erase and remove

`std::remove_if` moves the elements that stay to the front, one after the other,
and `erase` destroys what is left at the end. Where an element owns something, a
move assignment first drops what its target owns. Between what stays and what
has not been looked at there are the elements removed so far and not overwritten
yet, and those that were moved from.
-/

namespace Remove

section
variable {α σ : Type} (p : α → Bool) (assign : σ → α → α → σ × α × α) (drop : σ → α → σ)

/-- The loop of `remove_if` with `n` elements to go. `assign` gives what the target of a move
assignment is afterwards, and its source. -/
def compact : Nat → σ → List α → Nat → σ × List α × Nat
  | 0, s, v, first => (s, v, first)
  | n + 1, s, v, first =>
    match v[first]?, v[v.length - (n + 1)]? with
    | some a, some b =>
      if p b then compact n s v first
      else
        match assign s a b with
        | (s', a', b') => compact n s' ((v.set first a').set (v.length - (n + 1)) b') (first + 1)
    | _, _ => (s, v, first)

/-- `std::remove_if`; the last component is the iterator that it returns. -/
def removeIf (s : σ) (v : List α) : σ × List α × Nat :=
  compact p assign (v.length - (v.findIdx p + 1)) s v (v.findIdx p)

/-- `erase` from that iterator to the end. -/
def eraseRemoved (s : σ) (v : List α) : σ × List α :=
  match removeIf p assign s v with
  | (s', v', last) => ((v'.drop last).foldl drop s', v'.take last)

variable {p assign drop} {e : α}

theorem get_middle (l l' : List α) (a : α) : (l ++ a :: l')[l.length]? = some a := by
  rw [List.getElem?_append_right (Nat.le_refl _), Nat.sub_self]
  rfl

theorem set_middle (l l' : List α) (a b : α) : (l ++ a :: l').set l.length b = l ++ b :: l' := by
  rw [List.set_append_right _ _ (Nat.le_refl _), Nat.sub_self]
  rfl

/-- One turn of the loop, with `kept` in front, the elements of `g :: gap` in between, and `b` next. -/
theorem compact_cons (kept gap rest : List α) (g b : α) (s : σ) :
    compact p assign (rest.length + 1) s (kept ++ g :: gap ++ b :: rest) kept.length =
      if p b then compact p assign rest.length s (kept ++ g :: gap ++ b :: rest) kept.length
      else compact p assign rest.length (assign s g b).1
        (kept ++ (assign s g b).2.1 :: gap ++ (assign s g b).2.2 :: rest) (kept.length + 1) := by
  have hlen : (kept ++ g :: gap ++ b :: rest).length - (rest.length + 1) = (kept ++ g :: gap).length := by
    simp only [List.length_append, List.length_cons]
    omega
  have h1 : (kept ++ g :: gap ++ b :: rest)[kept.length]? = some g := by
    rw [List.append_assoc, List.cons_append]
    exact get_middle ..
  have h3 : (kept ++ g :: gap ++ b :: rest).set kept.length (assign s g b).2.1 =
      kept ++ (assign s g b).2.1 :: gap ++ b :: rest := by
    rw [List.append_assoc, List.cons_append, set_middle, List.append_assoc, List.cons_append]
  have h4 : (kept ++ g :: gap).length = (kept ++ (assign s g b).2.1 :: gap).length := by simp
  simp only [compact, hlen, h1, get_middle, h3]
  rw [h4, set_middle]

theorem compact_spec (ha : ∀ s a b, assign s a b = (drop s a, b, e)) (he : ∀ s, drop s e = s) (rest : List α) :
    ∀ (kept gap : List α) (s : σ), gap ≠ [] → ∃ s' gap',
      compact p assign rest.length s (kept ++ gap ++ rest) kept.length =
        (s', kept ++ rest.filter (!p ·) ++ gap', (kept ++ rest.filter (!p ·)).length) ∧
      gap'.foldl drop s' = (gap ++ rest.filter p).foldl drop s := by
  induction rest with
  | nil =>
    intro kept gap s _
    exact ⟨s, gap, by simp [compact], by simp⟩
  | cons b rest ih =>
    intro kept gap s hgap
    obtain ⟨g, gap, rfl⟩ := List.exists_cons_of_ne_nil hgap
    rw [List.length_cons, compact_cons]
    by_cases hb : p b = true
    · obtain ⟨s', gap', h1, h2⟩ := ih kept (g :: gap ++ [b]) s (by simp)
      refine ⟨s', gap', ?_, ?_⟩
      · rw [if_pos hb, List.filter_cons_of_neg (by simpa using hb), ← h1]
        simp
      · rw [h2, List.filter_cons_of_pos hb]
        simp
    · obtain ⟨s', gap', h1, h2⟩ := ih (kept ++ [b]) (gap ++ [e]) (drop s g) (by simp)
      refine ⟨s', gap', ?_, ?_⟩
      · rw [if_neg hb, ha, List.filter_cons_of_pos (by simpa using hb)]
        simpa using h1
      · rw [h2, List.filter_cons_of_neg hb]
        simp [List.foldl_append, he]

/-- What stays is as it was, and what is removed is dropped once each, all in the order of the list. -/
theorem eraseRemoved_eq (ha : ∀ s a b, assign s a b = (drop s a, b, e)) (he : ∀ s, drop s e = s) (s : σ) (v : List α) :
    eraseRemoved p assign drop s v = ((v.filter p).foldl drop s, v.filter (!p ·)) := by
  unfold eraseRemoved removeIf
  cases hv : v.find? p with
  | none =>
    have hv : ∀ x ∈ v, ¬ p x = true := by simpa using hv
    have hidx : v.findIdx p = v.length := List.findIdx_eq_length.mpr fun x hx => by simpa using hv x hx
    rw [hidx, Nat.sub_eq_zero_of_le (Nat.le_succ _), List.filter_eq_nil_iff.mpr hv,
      List.filter_eq_self.mpr fun x hx => by simpa using hv x hx]
    simp [compact]
  | some g =>
    obtain ⟨hg, kept, rest, rfl, hkept⟩ := List.find?_eq_some_iff_append.mp hv
    have hkept : ∀ x ∈ kept, ¬ p x = true := fun x hx => by simpa using hkept x hx
    have hidx : (kept ++ g :: rest).findIdx p = kept.length := by
      have : kept.findIdx p = kept.length := List.findIdx_eq_length.mpr fun x hx => by simpa using hkept x hx
      rw [List.findIdx_append, this, if_neg (Nat.lt_irrefl _), List.findIdx_cons]
      simp [hg]
    have hlen : (kept ++ g :: rest).length - (kept.length + 1) = rest.length := by
      simp only [List.length_append, List.length_cons]
      omega
    obtain ⟨s', gap', h1, h2⟩ := compact_spec ha he rest kept [g] s (List.cons_ne_nil _ _)
    rw [List.append_assoc, List.singleton_append] at h1
    rw [hidx, hlen, h1]
    simp only []
    have h3 : kept.filter p = [] := List.filter_eq_nil_iff.mpr hkept
    have h4 : kept.filter (!p ·) = kept := List.filter_eq_self.mpr fun x hx => by simpa using hkept x hx
    rw [List.drop_left, List.take_left, h2, List.filter_append, List.filter_append, h3, h4, List.filter_cons_of_pos hg,
      List.filter_cons_of_neg (by simpa using hg)]
    rfl

end

end Remove
