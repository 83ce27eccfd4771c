import Xdispatch.Lib.Total
import Mathlib.Algebra.BigOperators.Fin
import Mathlib.Data.Finite.Sigma
import Mathlib.Data.Finite.Sum
import Mathlib.SetTheory.Cardinal.Finite

/-!
# Paths in a finite acyclic graph

A graph may have several edges from one node to another. `pathCount u v` is the number
of paths from `u` to `v`, the empty one included; without circles it is finite,
and every path but the empty one begins with an edge (`pathCount_eq`).
-/

structure Multigraph (ν : Type) where
  targets : ν → List ν

namespace Multigraph

variable {ν : Type} (G : Multigraph ν)

def Edge (u v : ν) : Prop := v ∈ G.targets u

def Acyclic : Prop := ∀ v, ¬ Relation.TransGen G.Edge v v

/-- The paths to `v`, by where they begin. -/
inductive Path (v : ν) : ν → Type
  | nil : Path v v
  | cons {u : ν} (k : Fin (G.targets u).length) : Path v ((G.targets u).get k) → Path v u

noncomputable def pathCount (u v : ν) : Nat := Nat.card (G.Path v u)

section
variable {G} {u v w : ν}

theorem Acyclic.wellFounded [Finite ν] (h : G.Acyclic) : WellFounded fun v u => Relation.TransGen G.Edge u v :=
  have : IsTrans ν fun v u => Relation.TransGen G.Edge u v := ⟨fun _ _ _ hab hbc => hbc.trans hab⟩
  have : Std.Irrefl fun v u => Relation.TransGen G.Edge u v := ⟨h⟩
  Finite.wellFounded_of_trans_of_irrefl _

theorem acyclic_of_lt [Preorder ν] (h : ∀ u, ∀ v ∈ G.targets u, u < v) : G.Acyclic := by
  have hlt : ∀ u v, Relation.TransGen G.Edge u v → u < v := by
    intro u v huv
    induction huv with
    | single he => exact h u _ he
    | tail _ he ih => exact ih.trans (h _ _ he)
  intro v hv
  exact lt_irrefl v (hlt v v hv)

def Path.split (v u : ν) : G.Path v u ≃ PLift (u = v) ⊕ Σ k, G.Path v ((G.targets u).get k) where
  toFun
    | .nil => .inl ⟨rfl⟩
    | .cons k p => .inr ⟨k, p⟩
  invFun
    | .inl h => h.down ▸ .nil
    | .inr p => .cons p.1 p.2
  left_inv p := by cases p <;> rfl
  right_inv p := by
    rcases p with ⟨⟨rfl⟩⟩ | ⟨k, p⟩ <;> rfl

theorem finite_path [Finite ν] (h : G.Acyclic) (v u : ν) : Finite (G.Path v u) := by
  induction u using h.wellFounded.induction with
  | _ u ih =>
    have : ∀ k : Fin (G.targets u).length, Finite (G.Path v ((G.targets u).get k)) := by
      intro k
      apply ih
      exact .single (List.get_mem _ k)
    have : Finite (PLift (u = v)) := @Finite.of_subsingleton _ ⟨fun ⟨_⟩ ⟨_⟩ => rfl⟩
    exact Finite.of_equiv _ (Path.split v u).symm

theorem card_plift (p : Prop) [Decidable p] : Nat.card (PLift p) = if p then 1 else 0 := by
  by_cases hp : p
  · have : Unique (PLift p) := ⟨⟨⟨hp⟩⟩, fun _ => rfl⟩
    rw [if_pos hp, Nat.card_unique]
  · have : IsEmpty (PLift p) := ⟨fun h => hp h.down⟩
    rw [if_neg hp, Nat.card_of_isEmpty]

theorem pathCount_eq [Finite ν] [DecidableEq ν] (h : G.Acyclic) (u v : ν) :
    G.pathCount u v = (if u = v then 1 else 0) + Family.total (fun w => G.pathCount w v) (G.targets u) := by
  have := fun w => finite_path h v w
  unfold pathCount Family.total
  rw [Nat.card_congr (Path.split v u), Nat.card_sum, card_plift, Nat.card_sigma, Fin.sum_univ_def,
    ← Function.comp_def (fun w => Nat.card (G.Path v w)) (G.targets u).get, ← List.map_map, List.map_get_finRange]

end

end Multigraph
