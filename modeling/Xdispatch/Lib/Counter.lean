import Xdispatch.Lib.Threads

/-!
# Counters of tokens

An `add` adds tokens, and a `take` takes one when there is one. When there is none it
may give up, and if it is impatient it may give up at any time, even at once. Each
call takes effect in one step.
-/

namespace Counter

inductive Thread where
  | take (impatient : Bool)
  | add (n : Int)
  | answered (r : Bool)
  | added
  deriving DecidableEq

inductive Choice where
  | take (impatient : Bool)
  | add (n : Int)
  | step
  | giveUp
  deriving DecidableEq

def act (tokens : Int) : Thread → Choice → Option (Int × Thread × List Thread)
  | .take _, .step => if 0 < tokens then some (tokens - 1, .answered true, []) else none
  | .take impatient, .giveUp => if tokens = 0 || impatient then some (tokens, .answered false, []) else none
  | .add n, .step => some (tokens + n, .added, [])
  | _, _ => none

/-- `giveUp` is an impatient call that does not even begin. -/
def call (tokens : Int) : Choice → Option (Int × List Thread)
  | .take impatient => some (tokens, [.take impatient])
  | .add n => if 0 < n then some (tokens, [.add n]) else none
  | .giveUp => some (tokens, [.answered false])
  | .step => none

def counter : Program Int Thread Choice := ⟨call, act⟩

def initial (tokens : Int) : Config Int Thread := ⟨tokens, []⟩

/-- The choice with which a call goes from `t` to its end `t'`. -/
def ends : Thread → Thread → Option Choice
  | .take _, .answered false => some .giveUp
  | .take _, .answered true | .add _, .added => some .step
  | _, _ => none

theorem ends_self (t : Thread) : ends t t = none := by
  cases t with
  | answered r => cases r <;> rfl
  | _ => rfl

section
variable {tokens tokens' : Int} {t : Thread} {e : Choice} {new : List Thread}

/-- What a call answers, it answers for a reason. -/
theorem act_answered {r : Bool} (h : act tokens t e = some (tokens', .answered r, new)) : ∃ impatient,
    t = .take impatient ∧ (r = true → 0 < tokens ∧ tokens' = tokens - 1) ∧
      (r = false → tokens' = tokens ∧ (tokens = 0 ∨ impatient = true)) := by
  cases t with
  | take impatient =>
    cases e with
    | step =>
      simp only [act] at h
      split at h <;> cases h
      next hpos => exact ⟨impatient, rfl, fun _ => ⟨hpos, rfl⟩, fun h => Bool.noConfusion h⟩
    | giveUp =>
      simp only [act] at h
      split at h <;> cases h
      next hz => exact ⟨impatient, rfl, fun h => Bool.noConfusion h, fun _ => ⟨rfl, by simpa using hz⟩⟩
    | _ => cases h
  | add n => cases e <;> cases h
  | _ => cases h

end

end Counter
