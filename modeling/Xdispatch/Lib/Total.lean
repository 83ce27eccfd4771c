import Mathlib.Algebra.Order.BigOperators.Group.List
import Mathlib.Algebra.Order.Group.Multiset
import Mathlib.Algebra.Order.Ring.Nat
import Mathlib.Data.List.Induction
import Mathlib.Tactic.Abel

/-!
# Totals over a family

A family of threads, calls or slots is a list; `total f l` adds up what each
member contributes. One member moving from `a` to `b` changes the total by the
difference of their contributions (`total_set`), whatever the others are, so a
counter of the program and a count of threads are compared one step at a time.
-/

namespace Family

section
variable {τ M : Type} [AddCommMonoid M]

def total (f : τ → M) (l : List τ) : M := (l.map f).sum

@[simp] theorem total_nil (f : τ → M) : total f [] = 0 := rfl

@[simp] theorem total_cons (f : τ → M) (a : τ) (l : List τ) : total f (a :: l) = f a + total f l := by
  simp [total]

@[simp] theorem total_append (f : τ → M) (l₁ l₂ : List τ) :
    total f (l₁ ++ l₂) = total f l₁ + total f l₂ := by
  simp [total]

theorem total_set (f : τ → M) : ∀ {l : List τ} {i : Nat} {a : τ}, l[i]? = some a → ∀ b : τ,
    total f (l.set i b) + f a = total f l + f b
  | [], _, _, h, _ => by simp at h
  | x :: l, 0, a, h, b => by
    simp only [List.getElem?_cons_zero, Option.some.injEq] at h
    subst h
    simp only [List.set_cons_zero, total_cons]
    abel
  | x :: l, i + 1, a, h, b => by
    rw [List.getElem?_cons_succ] at h
    simp only [List.set_cons_succ, total_cons]
    rw [add_assoc, total_set f h b, add_assoc]

theorem total_congr {f g : τ → M} {l : List τ} (h : ∀ a ∈ l, f a = g a) : total f l = total g l := by
  unfold total
  rw [List.map_congr_left h]

theorem total_append_zero {f : τ → M} {new : List τ} (l : List τ) (h : ∀ t ∈ new, f t = 0) :
    total f (l ++ new) = total f l := by
  rw [total_append, total_congr h]
  simp [total]

theorem total_add (f g : τ → M) (l : List τ) : total (fun a => f a + g a) l = total f l + total g l :=
  List.sum_map_add

theorem total_comm {β : Type} (f : τ → β → M) (l : List τ) (m : List β) :
    total (fun a => total (f a) m) l = total (fun b => total (fun a => f a b) l) m := by
  induction m with
  | nil => simp [total]
  | cons b m ih => simp only [total_cons, total_add, ih]

theorem total_eq_of_others (f : τ → M) : ∀ {l : List τ} {i : Nat} {a : τ}, l[i]? = some a →
    (∀ j x, j ≠ i → l[j]? = some x → f x = 0) → total f l = f a
  | [], _, _, h, _ => by simp at h
  | x :: l, 0, a, h, ho => by
    rw [List.getElem?_cons_zero, Option.some.injEq] at h
    subst h
    have : total f l = 0 := by
      refine List.sum_eq_zero fun y hy => ?_
      obtain ⟨z, hz, rfl⟩ := List.mem_map.mp hy
      obtain ⟨j, hj⟩ := List.mem_iff_getElem?.mp hz
      exact ho (j + 1) z (Nat.succ_ne_zero j) hj
    rw [total_cons, this, add_zero]
  | x :: l, i + 1, a, h, ho => by
    rw [List.getElem?_cons_succ] at h
    rw [total_cons, ho 0 x (Nat.succ_ne_zero i).symm rfl, zero_add]
    exact total_eq_of_others f h fun j y hj hy => ho (j + 1) y (by omega) hy

/-- The others of a family, by themselves. -/
theorem total_split (f : τ → M) : ∀ {l : List τ} {i : Nat} {a : τ}, l[i]? = some a →
    ∃ rest, total f l = f a + rest ∧ ∀ b, total f (l.set i b) = f b + rest
  | [], _, _, h => by simp at h
  | x :: l, 0, a, h => by
    rw [List.getElem?_cons_zero, Option.some.injEq] at h
    subst h
    exact ⟨total f l, total_cons .., fun b => total_cons ..⟩
  | x :: l, i + 1, a, h => by
    rw [List.getElem?_cons_succ] at h
    obtain ⟨rest, hl, hset⟩ := total_split f h
    refine ⟨f x + rest, ?_, fun b => ?_⟩
    · rw [total_cons, hl, add_left_comm]
    · rw [List.set_cons_succ, total_cons, hset, add_left_comm]

/-- What one step of a family does to a total: member `i` goes from `a` to `b`
and `new` joins. -/
theorem total_step (f : τ → M) {l : List τ} {i : Nat} {a : τ} (h : l[i]? = some a) (b : τ) (new : List τ) :
    total f (l.set i b ++ new) + f a = total f l + f b + total f new := by
  rw [total_append, add_right_comm, total_set f h]

end

section
variable {τ M : Type} [AddCancelCommMonoid M] {f : τ → M} {l : List τ} {i : Nat} {a b : τ} {new : List τ} {n n' : M}

theorem total_eq_step (h : total f l = n) (hi : l[i]? = some a) (hn : n' + f a = n + f b + total f new) :
    total f (l.set i b ++ new) = n' := by
  have := total_step f hi b new
  rw [h, ← hn] at this
  exact add_right_cancel this

end

theorem mem_total {τ β : Type} {f : τ → Multiset β} {x : β} : ∀ {l : List τ}, x ∈ total f l ↔ ∃ a ∈ l, x ∈ f a
  | [] => by simp
  | a :: l => by simp [mem_total (l := l)]

/-! ## Natural-number totals -/

section
variable {τ : Type}

theorem le_total (f : τ → Nat) {l : List τ} {a : τ} (h : a ∈ l) : f a ≤ total f l :=
  List.single_le_sum (fun _ _ => Nat.zero_le _) _ (List.mem_map.mpr ⟨a, h, rfl⟩)

theorem total_eq_zero {f : τ → Nat} {l : List τ} : total f l = 0 ↔ ∀ a ∈ l, f a = 0 := by
  unfold total
  rw [List.sum_eq_zero_iff]
  simp

theorem exists_of_total_pos {f : τ → Nat} {l : List τ} (h : 0 < total f l) : ∃ a ∈ l, 0 < f a := by
  refine Classical.byContradiction fun hn => ?_
  have : total f l = 0 := total_eq_zero.mpr fun a ha => by
    rcases Nat.eq_zero_or_pos (f a) with h0 | h0
    · exact h0
    · exact absurd ⟨a, ha, h0⟩ hn
  omega

theorem total_le_total {f g : τ → Nat} {l : List τ} (h : ∀ a ∈ l, f a ≤ g a) : total f l ≤ total g l :=
  List.sum_le_sum h

theorem total_lt_total {f g : τ → Nat} {l : List τ} (h : ∀ a ∈ l, f a ≤ g a) {a : τ} (ha : a ∈ l) (hlt : f a < g a) :
    total f l < total g l :=
  List.sum_lt_sum f g h ⟨a, ha, hlt⟩

/-- As many places of a list as `M` has, each with something to add. -/
theorem card_le_total {f : τ → Nat} (l : List τ) : ∀ {M : Multiset Nat}, M.Nodup →
    (∀ n ∈ M, ∃ a, l[n]? = some a ∧ 0 < f a) → M.card ≤ total f l := by
  induction l using List.reverseRecOn with
  | nil =>
    intro M _ h
    have hM : M = 0 := Multiset.eq_zero_of_forall_notMem fun n hn => by
      obtain ⟨a, ha, -⟩ := h n hn
      cases ha
    rw [hM]
    exact Nat.zero_le _
  | append_singleton l b ih =>
    intro M hM h
    have hold : ∀ n ∈ M, n ≠ l.length → ∃ a, l[n]? = some a ∧ 0 < f a := by
      intro n hn hne
      obtain ⟨a, ha, hf⟩ := h n hn
      have hlt := (List.getElem?_eq_some_iff.mp ha).1
      rw [List.length_append, List.length_singleton] at hlt
      rw [List.getElem?_append_left (by omega)] at ha
      exact ⟨a, ha, hf⟩
    rw [total_append, total_cons, total_nil, add_zero]
    by_cases hn : l.length ∈ M
    · obtain ⟨a, ha, hf⟩ := h _ hn
      rw [List.getElem?_concat_length] at ha
      cases ha
      have := ih (hM.erase l.length) fun n hn => hold n (Multiset.mem_of_mem_erase hn) ((hM.mem_erase_iff).mp hn).1
      rw [Multiset.card_erase_of_mem hn, Nat.pred_eq_sub_one] at this
      have hpos := Multiset.card_pos_iff_exists_mem.mpr ⟨_, hn⟩
      omega
    · have := ih hM fun n hn' => hold n hn' fun he => hn (he ▸ hn')
      omega

theorem le_total_of_ne (f : τ → Nat) : ∀ {l : List τ} {i j : Nat} {a b : τ}, l[i]? = some a → l[j]? = some b →
    i ≠ j → f a + f b ≤ total f l
  | [], _, _, _, _, h, _, _ => by simp at h
  | x :: l, 0, 0, _, _, _, _, hne => absurd rfl hne
  | x :: l, 0, j + 1, a, b, ha, hb, _ => by
    rw [List.getElem?_cons_zero, Option.some.injEq] at ha
    rw [List.getElem?_cons_succ] at hb
    subst ha
    have := le_total f (List.mem_of_getElem? hb)
    rw [total_cons]
    omega
  | x :: l, i + 1, 0, a, b, ha, hb, _ => by
    rw [List.getElem?_cons_zero, Option.some.injEq] at hb
    rw [List.getElem?_cons_succ] at ha
    subst hb
    have := le_total f (List.mem_of_getElem? ha)
    rw [total_cons]
    omega
  | x :: l, i + 1, j + 1, a, b, ha, hb, hne => by
    rw [List.getElem?_cons_succ] at ha hb
    have := le_total_of_ne f ha hb fun e => hne (by rw [e])
    rw [total_cons]
    omega

theorem eq_of_total_le_one {f : τ → Nat} : ∀ {l : List τ}, total f l ≤ 1 → ∀ {a b : τ}, a ∈ l → b ∈ l →
    0 < f a → 0 < f b → a = b
  | [], _, _, _, ha, _, _, _ => by cases ha
  | x :: l, h, a, b, ha, hb, hfa, hfb => by
    rw [total_cons] at h
    rcases List.mem_cons.mp ha with rfl | ha'
    · rcases List.mem_cons.mp hb with rfl | hb'
      · rfl
      · have := le_total f hb'
        omega
    rcases List.mem_cons.mp hb with rfl | hb'
    · have := le_total f ha'
      omega
    · exact eq_of_total_le_one (by omega) ha' hb' hfa hfb

end

/-! ## Members after a step -/

section
variable {τ : Type} {l : List τ} {i : Nat} {a : τ}

theorem mem_of_get (h : l[i]? = some a) : a ∈ l := List.mem_of_getElem? h

theorem forall_step {p : τ → Prop} {b : τ} {new : List τ} (h : ∀ x ∈ l, p x) (hb : p b)
    (hnew : ∀ x ∈ new, p x) : ∀ x ∈ l.set i b ++ new, p x := by
  intro x hx
  rcases List.mem_append.mp hx with hx | hx
  · rcases List.mem_or_eq_of_mem_set hx with hx | rfl
    · exact h x hx
    · exact hb
  · exact hnew x hx

theorem mem_of_step {b x : τ} (hx : x ∈ l.set i b ++ []) (hne : x ≠ b) : x ∈ l := by
  rw [List.append_nil] at hx
  exact (List.mem_or_eq_of_mem_set hx).resolve_right hne

theorem forall_append {p : τ → Prop} {new : List τ} (h : ∀ x ∈ l, p x) (hnew : ∀ x ∈ new, p x) :
    ∀ x ∈ l ++ new, p x := by
  intro x hx
  rcases List.mem_append.mp hx with hx | hx
  · exact h x hx
  · exact hnew x hx

theorem step_cases (h : l[i]? = some a) {b x : τ} {new : List τ} (hx : x ∈ l.set i b ++ new) :
    x = b ∨ x ∈ new ∨ ∃ j, j ≠ i ∧ l[j]? = some x := by
  rcases List.mem_append.mp hx with hx | hx
  · obtain ⟨j, hj⟩ := List.mem_iff_getElem?.mp hx
    by_cases hij : j = i
    · subst hij
      rw [List.getElem?_set_self (List.getElem?_eq_some_iff.mp h).1] at hj
      exact Or.inl (Option.some.inj hj).symm
    · rw [List.getElem?_set_ne (Ne.symm hij)] at hj
      exact Or.inr (Or.inr ⟨j, hij, hj⟩)
  · exact Or.inr (Or.inl hx)

theorem get_cases {b x : τ} {new : List τ} {j : Nat} (h : (l.set i b ++ new)[j]? = some x) :
    (j = i ∧ x = b) ∨ (j ≠ i ∧ l[j]? = some x) ∨ ∃ k, j = l.length + k ∧ new[k]? = some x := by
  rcases Nat.lt_or_ge j l.length with hj | hj
  · rw [List.getElem?_append_left (by simpa using hj)] at h
    by_cases hij : j = i
    · subst hij
      rw [List.getElem?_set_self hj] at h
      exact Or.inl ⟨rfl, (Option.some.inj h).symm⟩
    · rw [List.getElem?_set_ne (Ne.symm hij)] at h
      exact Or.inr (Or.inl ⟨hij, h⟩)
  · rw [List.getElem?_append_right (by simpa using hj), List.length_set] at h
    exact Or.inr (Or.inr ⟨j - l.length, by omega, h⟩)

theorem get_step (h : l[i]? = some a) (b : τ) (new : List τ) : (l.set i b ++ new)[i]? = some b := by
  have hlt := (List.getElem?_eq_some_iff.mp h).1
  rw [List.getElem?_append_left (by simpa using hlt), List.getElem?_set_self hlt]

theorem get_set_self (h : l[i]? = some a) (b : τ) : (l.set i b)[i]? = some b :=
  List.getElem?_set_self (List.getElem?_eq_some_iff.mp h).1

theorem get_append (h : l[i]? = some a) (new : List τ) : (l ++ new)[i]? = some a := by
  rw [List.getElem?_append_left (List.getElem?_eq_some_iff.mp h).1, h]

theorem get_step_of_ne (h : l[i]? = some a) {j : Nat} (hij : j ≠ i) (b : τ) (new : List τ) :
    (l.set j b ++ new)[i]? = some a :=
  get_append (by rw [List.getElem?_set_ne hij, h]) new

theorem map_set_self {β : Type} {f : τ → β} (h : l[i]? = some a) {b : τ} (hf : f b = f a) :
    (l.set i b).map f = l.map f := by
  obtain ⟨hi, rfl⟩ := List.getElem?_eq_some_iff.mp h
  rw [List.map_set, hf, ← List.getElem_map f (h := by simpa using hi), List.set_getElem_self]

theorem mem_step_self (h : l[i]? = some a) (b : τ) (new : List τ) : b ∈ l.set i b ++ new :=
  List.mem_append_left _ (List.mem_set (List.getElem?_eq_some_iff.mp h).1 b)

theorem mem_step_of_ne (h : l[i]? = some a) {x : τ} (hx : x ∈ l) (hne : x ≠ a) (b : τ) (new : List τ) :
    x ∈ l.set i b ++ new := by
  obtain ⟨j, hj⟩ := List.mem_iff_getElem?.mp hx
  have hij : i ≠ j := fun e => hne (by rw [← e, h] at hj; exact (Option.some.inj hj).symm)
  refine List.mem_append_left _ (List.mem_of_getElem? (i := j) ?_)
  rw [List.getElem?_set_ne hij, hj]

end

/-! ## Families of stacks -/

section
variable {φ : Type} {l : List (List φ)} {i : Nat} {f : φ} {stack : List φ}

def frames (l : List (List φ)) : Multiset φ := total (fun t : List φ => (t : Multiset φ)) l

theorem frames_append (l : List (List φ)) (t : List φ) : frames (l ++ [t]) = frames l + t := by
  simp [frames]

theorem frames_step (h : l[i]? = some (f :: stack)) : ∃ rest : Multiset φ, frames l = f ::ₘ rest ∧
    ∀ fs : List φ, frames (l.set i (fs ++ stack)) = fs + rest := by
  obtain ⟨rest, hl, hset⟩ := total_split (fun t : List φ => (t : Multiset φ)) h
  refine ⟨stack + rest, ?_, fun fs => ?_⟩
  · rw [← Multiset.cons_add, Multiset.cons_coe]
    exact hl
  · rw [← add_assoc, Multiset.coe_add]
    exact hset _

end

end Family
