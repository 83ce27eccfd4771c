import Mathlib.Data.List.Basic
import Mathlib.Logic.Relation

/-!
# Batches

Anyone appends to a list. A single consumer takes the list over as a whole when
it has nothing left of the last one, and starts what it has taken item by item,
or drops the rest of it.
-/

structure Batches (α : Type) where
  appended : List α
  queued : List α
  batch : List α
  started : List α
  dropped : List α

namespace Batches

variable {α : Type} {b b' : Batches α} {gone : List α}

def empty : Batches α := ⟨[], [], [], [], []⟩

inductive Step : Batches α → Batches α → Prop
  | append (b : Batches α) (l : List α) : Step b { b with appended := b.appended ++ l, queued := b.queued ++ l }
  | take (b : Batches α) : b.batch = [] → Step b { b with queued := [], batch := b.queued }
  | start (b : Batches α) (a : α) (rest : List α) : b.batch = a :: rest →
      Step b { b with batch := rest, started := b.started ++ [a] }
  | drop (b : Batches α) : Step b { b with batch := [], dropped := b.dropped ++ b.batch }

def Reachable : Batches α → Prop := Relation.ReflTransGen Step empty

/-- `gone` is what has been started or dropped, in the order in which it was appended. -/
structure Taken (b : Batches α) (gone : List α) : Prop where
  kept : b.appended = gone ++ b.batch ++ b.queued
  order : b.started.Sublist gone
  once : gone.Perm (b.started ++ b.dropped)

theorem Step.taken (h : Step b b') (hT : Taken b gone) : ∃ gone', Taken b' gone' := by
  obtain ⟨hkept, horder, honce⟩ := hT
  cases h with
  | append l => exact ⟨gone, by simp [hkept], horder, honce⟩
  | take h0 => exact ⟨gone, by simp [hkept, h0], horder, honce⟩
  | start a rest ha =>
    refine ⟨gone ++ [a], by simp [hkept, ha], horder.append (List.Sublist.refl [a]), ?_⟩
    refine (honce.append_right [a]).trans ?_
    rw [List.append_assoc, List.append_assoc]
    exact List.perm_append_comm.append_left b.started
  | drop =>
    refine ⟨gone ++ b.batch, by simp [hkept], horder.trans (List.sublist_append_left _ _), ?_⟩
    rw [← List.append_assoc]
    exact honce.append_right b.batch

theorem Reachable.taken (h : Reachable b) : ∃ gone, Taken b gone := by
  induction h with
  | refl => exact ⟨[], rfl, List.Sublist.refl [], List.Perm.refl []⟩
  | tail _ hs ih =>
    obtain ⟨gone, hT⟩ := ih
    exact hs.taken hT

theorem Taken.eq_started (hT : Taken b gone) (hd : b.dropped = []) : gone = b.started := by
  have hlen := hT.once.length_eq
  rw [hd, List.append_nil] at hlen
  exact (hT.order.eq_of_length hlen.symm).symm

/-- As long as nothing has been dropped, what has not been started is still there. -/
theorem Reachable.kept (h : Reachable b) (hd : b.dropped = []) : b.appended = b.started ++ b.batch ++ b.queued := by
  obtain ⟨gone, hT⟩ := h.taken
  rw [hT.kept, hT.eq_started hd]

theorem Reachable.started_prefix (h : Reachable b) (hd : b.dropped = []) : b.started <+: b.appended := by
  rw [h.kept hd, List.append_assoc]
  exact List.prefix_append _ _

end Batches
