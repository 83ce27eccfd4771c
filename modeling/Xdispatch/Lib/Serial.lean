import Mathlib.Data.Multiset.Basic
import Mathlib.Logic.Relation

/-!
# Serial execution

What a serial queue is for, whatever it is built from: items are appended by
anyone, and started one at a time in the order in which they were appended.
-/

structure Serial (α : Type) where
  appended : List α
  started : List α
  running : Multiset α

namespace Serial

variable {α : Type}

def empty : Serial α := ⟨[], [], 0⟩

inductive Step : Serial α → Serial α → Prop
  | append (s : Serial α) (a : α) : Step s { s with appended := s.appended ++ [a] }
  | start (s : Serial α) (a : α) : s.running = 0 → s.started ++ [a] <+: s.appended →
      Step s { s with started := s.started ++ [a], running := {a} }
  | finish (s : Serial α) : Step s { s with running := 0 }

def Reachable : Serial α → Prop := Relation.ReflTransGen Step empty

theorem Step.started_prefix {s s' : Serial α} (h : Step s s') (hs : s.started <+: s.appended) :
    s'.started <+: s'.appended := by
  cases h with
  | append a => exact hs.trans (List.prefix_append _ _)
  | start a _ ha => exact ha
  | finish => exact hs

theorem Step.running_le {s s' : Serial α} (h : Step s s') (hs : s.running.card ≤ 1) : s'.running.card ≤ 1 := by
  cases h with
  | append a => exact hs
  | start a => simp
  | finish => simp

theorem Reachable.started_prefix {s : Serial α} (h : Reachable s) : s.started <+: s.appended := by
  induction h with
  | refl => exact List.prefix_rfl
  | tail _ hs ih => exact hs.started_prefix ih

theorem Reachable.running_le {s : Serial α} (h : Reachable s) : s.running.card ≤ 1 := by
  induction h with
  | refl => simp [empty]
  | tail _ hs ih => exact hs.running_le ih

end Serial
