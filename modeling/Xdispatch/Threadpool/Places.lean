import Xdispatch.Threadpool.Tokens

/-!
# Where an operation is

An operation that has been passed to `execute` is in one place until a worker is done
with it: with the call, in a bucket, or with the worker. A step of the pool leaves
all operations where they are, or takes one from a place to the next.
-/

namespace Xdispatch.Threadpool

/-! ## Places -/

/-- The operations that a call of `execute` has not enqueued yet, that are in a bucket, or that a
worker executes. -/
def places (c : Config Shared Thread) : Multiset Nat :=
  queued c.shared + Family.total Thread.enqueuing c.threads +
    Family.total Thread.begins c.threads

section
variable {c : Config Shared Thread} {s' : Shared} {k : Nat}
  {t t' : Thread} {new : List Thread} {e : Choice}

theorem new_begins (h : act c.shared t e = some (s', t', new)) :
    Family.total Thread.begins new = 0 := by
  cases act_step h with
  | spawn => simp [Thread.begins]
  | _ => rfl

theorem places_act (ht : c.threads[k]? = some t) (h : act c.shared t e = some (s', t', new)) :
    places ⟨s', c.threads.set k t' ++ new⟩ + t.begins = places c := by
  have hq := act_queued h
  have he := Family.total_step Thread.enqueuing ht t' new
  have hb := Family.total_step Thread.begins ht t' new
  rw [new_begins h, add_zero] at hb
  unfold places
  refine add_right_cancel (b := t.enqueuing) ?_
  calc _ = queued s' +
          (Family.total Thread.enqueuing (c.threads.set k t' ++ new) + t.enqueuing) +
          (Family.total Thread.begins (c.threads.set k t' ++ new) + t.begins) := by simp only []; abel
    _ = (queued s' + t'.begins + t'.enqueuing + Family.total Thread.enqueuing new) +
          Family.total Thread.enqueuing c.threads + Family.total Thread.begins c.threads := by
        rw [he, hb]
        abel
    _ = _ := by
        rw [← hq]
        abel

theorem places_execute {n : Nat} {priority : Priority} {c' : Config Shared Thread}
    (h : threadpool.next c (.call (.execute (some n) priority)) = some c') : places c' = places c + {n} := by
  obtain ⟨s, new, hc, rfl⟩ := Program.next_call h
  cases hc
  simp only [places, Family.total_append, Family.total_cons, Family.total_nil, Thread.enqueuing,
    Thread.begins]
  abel

theorem places_call {c' : Config Shared Thread} (h : threadpool.next c (.call e) = some c')
    (he : ∀ op priority, e ≠ .execute op priority) : places c' = places c := by
  obtain ⟨s, new, hc, rfl⟩ := Program.next_call h
  cases e with
  | execute op priority => exact absurd rfl (he op priority)
  | blocked | unblocked | destroy =>
    cases hc
    simp [places, Thread.enqueuing, Thread.begins]
  | _ => cases hc

end

/-! ## Calls of `execute` -/

/-- The steps that a call of `execute` has left. -/
def left : Thread → Nat
  | .enqueue .. => 7
  | .release => 6
  | .loadActive => 5
  | .loadIdle _ => 4
  | .loadMax _ => 3
  | .spawn => 2
  | .countActive => 1
  | _ => 0

section
variable {s s' : Shared} {t t' : Thread} {new : List Thread} {e : Choice}

theorem left_step (h : act s t e = some (s', t', new)) (ht : left t ≠ 0) :
    left t' < left t ∧ (t' = .returned ∨ left t' ≠ 0) := by
  cases act_step h with
  | enqueue | release | loadActive | spawn => exact ⟨by simp [left], Or.inr (by simp [left])⟩
  | countActive => exact ⟨by simp [left], Or.inl rfl⟩
  | loadIdle =>
    split
    · exact ⟨by simp [left], Or.inl rfl⟩
    · exact ⟨by simp [left], Or.inr (by simp [left])⟩
  | loadMax =>
    split
    · exact ⟨by simp [left], Or.inr (by simp [left])⟩
    · exact ⟨by simp [left], Or.inl rfl⟩
  | _ => exact absurd rfl ht

theorem exists_left (s : Shared) (ht : left t ≠ 0) :
    ∃ r, act s t .step = some r := by
  cases t with
  | enqueue | release | loadActive | loadIdle | loadMax | spawn | countActive => exact ⟨_, rfl⟩
  | _ => exact absurd rfl ht

theorem act_returned (h : act s t e = some (s', t', new)) : t ≠ .returned := by
  rintro rfl
  cases act_step h

end

end Xdispatch.Threadpool
