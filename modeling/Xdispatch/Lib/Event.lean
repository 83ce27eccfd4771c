import Xdispatch.Lib.Threads

/-!
# One-shot events

An event is fired once, by the first `complete`, and for good. A `test` says
whether it has been, and a `wait` does so when it has been or, if it is limited,
when it gives up. Each call takes effect in the one step that ends it.
-/

namespace Event

inductive Thread where
  | wait (limited : Bool)
  | test
  | complete
  | answered (r : Bool)
  | completed
  deriving DecidableEq

inductive Choice where
  | wait (limited : Bool)
  | test
  | complete
  | step
  | giveUp
  deriving DecidableEq

def act (fired : Bool) : Thread → Choice → Option (Bool × Thread × List Thread)
  | .wait _, .step => if fired then some (fired, .answered true, []) else none
  | .wait limited, .giveUp => if limited && !fired then some (fired, .answered false, []) else none
  | .test, .step => some (fired, .answered fired, [])
  | .complete, .step => some (true, .completed, [])
  | _, _ => none

def call (fired : Bool) : Choice → Option (Bool × List Thread)
  | .wait limited => some (fired, [.wait limited])
  | .test => some (fired, [.test])
  | .complete => some (fired, [.complete])
  | _ => none

def event : Program Bool Thread Choice := ⟨call, act⟩

def initial : Config Bool Thread := ⟨false, []⟩

/-- The choice with which a call goes from `t` to its end `t'`. -/
def ends : Thread → Thread → Option Choice
  | .wait _, .answered false => some .giveUp
  | _, .answered _ | _, .completed => some .step
  | _, _ => none

theorem ends_answered (t : Thread) (r : Bool) : (ends t (.answered r)).isSome = true := by
  cases t <;> cases r <;> rfl

section
variable {fired fired' : Bool} {t t' : Thread} {e : Choice} {new : List Thread}

/-- What a call answers is whether the event was fired then. -/
theorem act_answered {r : Bool} (h : act fired t e = some (fired', .answered r, new)) : r = fired := by
  unfold act at h
  split at h
  · split at h <;> cases h
    next hf => exact hf.symm
  · split at h <;> cases h
    next hf =>
      simp only [Bool.and_eq_true, Bool.not_eq_true'] at hf
      exact hf.2.symm
  · cases h
    rfl
  · cases h
  · cases h

/-- It is fired by a `complete` only, and stays so. -/
theorem act_fired (h : act fired t e = some (fired', t', new)) :
    (fired = true → fired' = true) ∧ (fired = false → fired' = true → t = .complete) := by
  unfold act at h
  split at h
  · split at h <;> cases h
    exact ⟨id, fun h h' => by simp [h] at h'⟩
  · split at h <;> cases h
    exact ⟨id, fun h h' => by simp [h] at h'⟩
  · cases h
    exact ⟨id, fun h h' => by simp [h] at h'⟩
  · cases h
    exact ⟨fun _ => rfl, fun _ _ => rfl⟩
  · cases h

theorem follows_fired {c c' : Config Bool Thread} {l : Option (Label Choice)} (h : event.Follows c c' l) :
    (c.shared = true → c'.shared = true) ∧
      (c.shared = false → c'.shared = true → ∃ i e, l = some (.act i e) ∧ c.threads[i]? = some .complete) := by
  cases l with
  | none =>
    obtain rfl : c' = c := h
    exact ⟨id, fun h h' => absurd (h.symm.trans h') (by simp)⟩
  | some l =>
    cases l with
    | call e =>
      obtain ⟨f, new, hc, rfl⟩ := Program.next_call h
      have hf : f = c.shared := by
        cases e with
        | wait | test | complete =>
          cases hc
          rfl
        | _ => cases hc
      subst hf
      exact ⟨id, fun h h' => absurd (h.symm.trans h') (by simp)⟩
    | act i e =>
      obtain ⟨t, f, t', new, ht, ha, rfl⟩ := Program.next_act h
      obtain ⟨hk, hf⟩ := act_fired ha
      exact ⟨hk, fun h h' => ⟨i, e, rfl, hf h h' ▸ ht⟩⟩

end

end Event
