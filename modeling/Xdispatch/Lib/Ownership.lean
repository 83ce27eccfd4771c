import Mathlib.Logic.Relation
import Mathlib.Order.WellFounded

/-!
# Counted references

Objects that are kept by counting the references to them: whatever is alive has
a root, or an owner that is alive. `Held` says that an object is reached from a
root. Without cycles nothing else is alive, and a cycle keeps itself alive with
no root at all.
-/

namespace Ownership

variable {α : Type} {root : α → Prop} {owns : α → α → Prop} {alive : α → Prop}

def Counted (root : α → Prop) (owns : α → α → Prop) (alive : α → Prop) : Prop :=
  ∀ x, alive x → root x ∨ ∃ y, alive y ∧ owns y x

inductive Held (root : α → Prop) (owns : α → α → Prop) : α → Prop
  | root {x : α} : root x → Held root owns x
  | owned {x y : α} : Held root owns y → owns y x → Held root owns x

def Acyclic (owns : α → α → Prop) : Prop := ∀ x, ¬ Relation.TransGen owns x x

/-- A rank that falls along the references leaves no cycle. -/
theorem acyclic_of_rank (rank : α → Nat) (h : ∀ x y, owns x y → rank y < rank x) : Acyclic owns := by
  have hlt : ∀ {x y}, Relation.TransGen owns x y → rank y < rank x := by
    intro x y hxy
    induction hxy with
    | single ho => exact h _ _ ho
    | tail _ ho ih => exact (h _ _ ho).trans ih
  exact fun x hx => Nat.lt_irrefl _ (hlt hx)

/-- Where every chain of owners ends, what is alive is reached from a root. -/
theorem Counted.held (hc : Counted root owns alive) (hwf : WellFounded owns) {x : α} (hx : alive x) :
    Held root owns x := by
  induction x using hwf.induction with
  | _ x ih =>
    rcases hc x hx with hr | ⟨y, hy, ho⟩
    · exact .root hr
    · exact .owned (ih y ho hy) ho

/-- A rank that falls along the references and has a bound ends every chain of owners. -/
theorem wellFounded_of_rank (rank : α → Nat) (n : Nat) (h : ∀ x y, owns x y → rank y < rank x ∧ rank x ≤ n) :
    WellFounded owns := by
  refine Subrelation.wf (r := InvImage (· < ·) fun x => n - rank x) ?_ (InvImage.wf _ Nat.lt_wfRel.wf)
  intro x y ho
  have := h x y ho
  simp only [InvImage]
  omega

/-- The objects on a cycle keep each other alive. -/
theorem cycle_counted {x : α} (hx : Relation.TransGen owns x x) :
    Counted (fun _ => False) owns fun y => Relation.TransGen owns x y := by
  intro y hy
  cases hy with
  | single ho => exact Or.inr ⟨x, hx, ho⟩
  | tail hz ho => exact Or.inr ⟨_, hz, ho⟩

/-! ## One place at a time -/

section
variable {P O : Type} {lies lies' : P → O → Prop}

/-- Each object is in one place, and only there. -/
structure Placed (lies : P → O → Prop) : Prop where
  alone : ∀ p q x, lies p x → lies q x → p = q
  somewhere : ∀ x, ∃ p, lies p x

theorem Placed.congr (h : Placed lies) (hs : ∀ p x, lies' p x ↔ lies p x) : Placed lies' := by
  refine ⟨fun p q x hp hq => h.alone p q x ((hs p x).mp hp) ((hs q x).mp hq), fun x => ?_⟩
  obtain ⟨p, hp⟩ := h.somewhere x
  exact ⟨p, (hs p x).mpr hp⟩

/-- One object goes from one place to another. -/
theorem Placed.move (h : Placed lies) {p q : P} {x : O} (hpq : p ≠ q) (hx : lies p x)
    (hp : ∀ y, lies' p y ↔ lies p y ∧ y ≠ x) (hq : ∀ y, lies' q y ↔ lies q y ∨ y = x)
    (hr : ∀ r y, r ≠ p → r ≠ q → (lies' r y ↔ lies r y)) : Placed lies' := by
  have key : ∀ r y, lies' r y → y = x ∧ r = q ∨ y ≠ x ∧ lies r y := by
    intro r y hy
    by_cases hrp : r = p
    · subst hrp
      obtain ⟨hy, hne⟩ := (hp y).mp hy
      exact Or.inr ⟨hne, hy⟩
    by_cases hrq : r = q
    · subst hrq
      by_cases hyx : y = x
      · exact Or.inl ⟨hyx, rfl⟩
      · exact Or.inr ⟨hyx, ((hq y).mp hy).resolve_right hyx⟩
    · have hy := (hr r y hrp hrq).mp hy
      exact Or.inr ⟨fun hyx => hrp (h.alone r p y hy (hyx ▸ hx)), hy⟩
  refine ⟨fun r r' y hy hy' => ?_, fun y => ?_⟩
  · rcases key r y hy with ⟨hyx, rfl⟩ | ⟨hne, hy⟩
    · rcases key r' y hy' with ⟨-, rfl⟩ | ⟨hne, -⟩
      · rfl
      · exact absurd hyx hne
    · rcases key r' y hy' with ⟨hyx, -⟩ | ⟨-, hy'⟩
      · exact absurd hyx hne
      · exact h.alone r r' y hy hy'
  · by_cases hyx : y = x
    · exact ⟨q, (hq y).mpr (Or.inr hyx)⟩
    · obtain ⟨r, hy⟩ := h.somewhere y
      by_cases hrp : r = p
      · exact ⟨r, hrp ▸ (hp y).mpr ⟨hrp ▸ hy, hyx⟩⟩
      by_cases hrq : r = q
      · exact ⟨r, hrq ▸ (hq y).mpr (Or.inl (hrq ▸ hy))⟩
      · exact ⟨r, (hr r y hrp hrq).mpr hy⟩

end

end Ownership
