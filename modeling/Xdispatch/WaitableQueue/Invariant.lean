import Xdispatch.WaitableQueue.Model

/-!
# Invariants of the waitable queue

`m_active` says that one thread is executing an operation. A thread blocks on
`m_cond` only while it is set, and is notified when it is unset, so a thread
without a notification waits for one that executes.
-/

namespace Xdispatch.WaitableQueue

/-! ## Moves of a thread -/

inductive Drains (caller : Option Waiter) : Thread → Prop
  | drain : Drains caller (.drain caller)
  | blocked (seen : Nat) : Drains caller (.drainBlocked caller seen)

inductive Waits (w : Waiter) : Thread → Prop
  | wait : Waits w (.wait w)
  | blocked (seen : Nat) : Waits w (.waitBlocked w seen)
  | resuming : Waits w (.resuming w)

/-- Everything a step can do. -/
inductive Moves (s : Shared) : Thread → Shared → Thread → Prop
  | add (op : Nat) : Moves s (.add op)
      { s with operations := s.operations ++ [op], added := s.added ++ [op] } .post
  | post : Moves s .post { s with inner := s.inner + 1 } .returned
  | drainBlocks {caller t} : Drains caller t → s.active = true → Moves s t s (.drainBlocked caller s.notifications)
  | drainEmpty {caller t} : Drains caller t → s.active = false → s.operations = [] →
      Moves s t { s with active := false, notifications := s.notifications + 1 } (drained caller)
  | take {caller t op rest} : Drains caller t → s.active = false → s.operations = op :: rest →
      Moves s t { s with active := true, operations := rest, started := s.started ++ [op] } (.executing caller op)
  | finish {caller op} : Moves s (.executing caller op)
      { s with completed := s.completed + 1, active := false, notifications := s.notifications + 1 } (drained caller)
  | waitBlocks {w t} (n : Nat) : Waits w t → s.active = true →
      Moves s t { s with completed := n } (.waitBlocked w s.notifications)
  | starves {w t} (n : Nat) : Waits w t → s.active = false → s.operations ≠ [] →
      Moves s t { s with completed := n } (.drain (some w))
  | returns {w t} (n : Nat) : Waits w t → (w = .all → s.active = false ∧ s.operations = []) →
      Moves s t { s with completed := n } .returned

/-- What the outcome of a loop says about the state. -/
def Outcome.Fits (s : Shared) (w : Waiter) : Outcome → Prop
  | .returned => w = .all → s.active = false ∧ s.operations = []
  | .active => s.active = true
  | .starving => s.active = false ∧ s.operations ≠ []

/-- The loops of the waits change no more than the completed operations. -/
def Passes (s : Shared) (w : Waiter) (r : Shared × Outcome) : Prop :=
  ∃ n, r.1 = { s with completed := n } ∧ r.2.Fits s w

section
variable {s s' : Shared} {t t' : Thread} {w : Waiter} {r : Shared × Outcome}

theorem busy_eq_false : s.busy = false ↔ s.active = false ∧ s.operations = [] := by
  simp [Shared.busy]

theorem waitForOne_passes (s : Shared) : Passes s .one s.waitForOne := by
  unfold Shared.waitForOne
  split
  · exact ⟨_, rfl, fun h => by cases h⟩
  split
  · exact ⟨_, rfl, by assumption⟩
  split
  · exact ⟨_, rfl, fun h => by cases h⟩
  · exact ⟨_, rfl, by simp_all, by assumption⟩

theorem Passes.all (h : Passes s .one r) (hne : r.2 ≠ .returned) : Passes s .all r := by
  obtain ⟨n, hn, hf⟩ := h
  refine ⟨n, hn, ?_⟩
  cases hr : r.2 with
  | returned => exact absurd hr hne
  | active | starving => rwa [hr] at hf

theorem Passes.trans {r' : Shared × Outcome} (h : Passes s .one r) (h' : Passes r.1 .all r') : Passes s .all r' := by
  obtain ⟨m, hm, -⟩ := h
  obtain ⟨k, hk, hf⟩ := h'
  refine ⟨k, by rw [hk, hm], ?_⟩
  rw [hm] at hf
  cases hr : r'.2 with
  | returned | active | starving =>
    rw [hr] at hf
    exact hf

theorem waitForOne_returned (hb : s.busy = true) (h : s.waitForOne.2 = .returned) :
    s.waitForOne.1.completed + 1 = s.completed := by
  unfold Shared.waitForOne at h ⊢
  by_cases h0 : s.completed = 0
  · rw [if_neg (not_not.mpr h0)] at h
    split at h
    · cases h
    split at h
    · rename_i ha hops
      have : s.busy = false := busy_eq_false.mpr ⟨by simpa using ha, hops⟩
      rw [hb] at this
      cases this
    · cases h
  · rw [if_pos h0]
    exact Nat.succ_pred h0

theorem waitForAll_passes (n : Nat) : ∀ s : Shared, s.completed = n → Passes s .all (s.waitForAll n) := by
  induction n with
  | zero =>
    intro s hn
    unfold Shared.waitForAll
    split
    next hb =>
      refine (waitForOne_passes s).all fun h => ?_
      have := waitForOne_returned hb h
      omega
    next hb => exact ⟨s.completed, rfl, fun _ => busy_eq_false.mp (by simpa using hb)⟩
  | succ n ih =>
    intro s hn
    unfold Shared.waitForAll
    split
    next hb =>
      split
      next hr =>
        have hc := waitForOne_returned hb hr
        exact (waitForOne_passes s).trans (ih _ (by omega))
      next hr => exact (waitForOne_passes s).all hr
    next hb => exact ⟨s.completed, rfl, fun _ => busy_eq_false.mp (by simpa using hb)⟩

theorem enter_passes (s : Shared) (w : Waiter) : Passes s w (w.enter s) := by
  cases w with
  | one => exact waitForOne_passes s
  | all => exact waitForAll_passes _ s rfl

theorem resume_passes (s : Shared) (w : Waiter) : Passes s w (w.resume s) := by
  cases w with
  | one => exact waitForOne_passes s
  | all =>
    unfold Waiter.resume
    simp only []
    split
    next => exact (waitForOne_passes s).trans (waitForAll_passes _ _ rfl)
    next hr => exact (waitForOne_passes s).all hr

theorem moves_of_passes (h : w.after r = (s', t')) (hp : Passes s w r) (ht : Waits w t) : Moves s t s' t' := by
  obtain ⟨n, hn, hf⟩ := hp
  unfold Waiter.after at h
  rw [hn] at h
  cases h
  cases hr : r.2 with
  | returned =>
    rw [hr] at hf
    exact .returns n ht hf
  | active =>
    rw [hr] at hf
    exact .waitBlocks n ht hf
  | starving =>
    rw [hr] at hf
    exact .starves n ht hf.1 hf.2

theorem moves_of_wake (h : wake s w = (s', t')) (ht : Waits w t) : Moves s t s' t' := by
  unfold wake at h
  split at h
  next ha =>
    cases h
    exact .waitBlocks s.completed ht ha
  next => exact moves_of_passes h (resume_passes s w) ht

theorem moves_of_drainOne {caller : Option Waiter} (h : drainOne s caller = (s', t')) (ht : Drains caller t) :
    Moves s t s' t' := by
  unfold drainOne at h
  split at h
  next ha =>
    cases h
    exact .drainBlocks ht ha
  next ha =>
    have ha : s.active = false := by simpa using ha
    split at h
    next hops =>
      cases h
      exact .drainEmpty ht ha hops
    next hops =>
      cases h
      exact .take ht ha hops

theorem moves_of_act {e : Choice} (h : t.act s e = some (s', t')) : Moves s t s' t' := by
  cases t with
  | add op =>
    cases e <;> cases h
    exact .add op
  | post =>
    cases e <;> cases h
    exact .post
  | drain caller =>
    cases e with
    | step => exact moves_of_drainOne (Option.some.inj h) .drain
    | _ => cases h
  | drainBlocked caller seen =>
    cases e with
    | step =>
      simp only [Thread.act] at h
      split at h
      · exact moves_of_drainOne (Option.some.inj h) (.blocked seen)
      · cases h
    | spurious => exact moves_of_drainOne (Option.some.inj h) (.blocked seen)
    | _ => cases h
  | executing caller op =>
    cases e <;> cases h
    exact .finish
  | wait w =>
    cases e with
    | step => exact moves_of_passes (Option.some.inj h) (enter_passes s w) .wait
    | _ => cases h
  | waitBlocked w seen =>
    cases e with
    | step =>
      simp only [Thread.act] at h
      split at h
      · exact moves_of_wake (Option.some.inj h) (.blocked seen)
      · cases h
    | spurious => exact moves_of_wake (Option.some.inj h) (.blocked seen)
    | _ => cases h
  | resuming w =>
    cases e with
    | step => exact moves_of_passes (Option.some.inj h) (resume_passes s w) .resuming
    | _ => cases h
  | _ => cases e <;> cases h

end

/-! ## The invariant -/

def Thread.executes : Thread → Nat
  | .executing _ _ => 1
  | _ => 0

/-- Stands for an execution of the inner queue that has not taken an operation,
or for an `async` that has still to post one. -/
def Thread.owes : Thread → Nat
  | .post | .drain none | .drainBlocked none _ => 1
  | _ => 0

/-- Blocked on `m_cond` with `seen` notifications. -/
def Thread.blockedAt : Thread → Option Nat
  | .drainBlocked _ seen | .waitBlocked _ seen => some seen
  | _ => none

structure Inv (c : Config Shared Thread) : Prop where
  active : Family.total Thread.executes c.threads = c.shared.active.toNat
  seen : ∀ t ∈ c.threads, ∀ n, t.blockedAt = some n →
    n ≤ c.shared.notifications ∧ (n = c.shared.notifications → c.shared.active = true)
  history : c.shared.started ++ c.shared.operations = c.shared.added
  owed : c.shared.operations.length ≤ c.shared.inner + Family.total Thread.owes c.threads

theorem initial_inv : Inv initial := ⟨rfl, by simp [initial], rfl, Nat.zero_le _⟩

section
variable {s s' : Shared} {t t' : Thread}

theorem active_of_executes {caller : Option Waiter} {op : Nat}
    (ht : (Thread.executing caller op).executes ≤ s.active.toNat) : s.active = true := by
  by_cases ha : s.active = true
  · exact ha
  · simp [ha, Thread.executes] at ht

theorem Moves.executes_eq (h : Moves s t s' t') (ht : t.executes ≤ s.active.toNat) :
    s'.active.toNat + t.executes = s.active.toNat + t'.executes := by
  cases h with
  | take h ha => cases h <;> simp [ha, Thread.executes]
  | @drainEmpty caller _ h ha => cases h <;> cases caller <;> simp [ha, Thread.executes, drained]
  | @finish caller op =>
    cases caller <;> simp [active_of_executes ht, Thread.executes, drained]
  | drainBlocks h | waitBlocks _ h | starves _ h | returns _ h => cases h <;> rfl
  | add | post => rfl

theorem Moves.notifications_le (h : Moves s t s' t') : s.notifications ≤ s'.notifications ∧
    (s'.notifications = s.notifications → s.active = true → s'.active = true) := by
  cases h with
  | drainEmpty | finish => exact ⟨Nat.le_succ _, fun h => absurd h (Nat.succ_ne_self _)⟩
  | take => exact ⟨Nat.le_refl _, fun _ _ => rfl⟩
  | _ => exact ⟨Nat.le_refl _, fun _ h => h⟩

theorem Moves.blockedAt (h : Moves s t s' t') {n : Nat} (hn : t'.blockedAt = some n) :
    n = s'.notifications ∧ s'.active = true := by
  cases h with
  | drainBlocks _ ha =>
    cases hn
    exact ⟨rfl, ha⟩
  | waitBlocks _ _ ha =>
    cases hn
    exact ⟨rfl, ha⟩
  | @drainEmpty caller | @finish caller => cases caller <;> cases hn
  | _ => cases hn

theorem Moves.history (h : Moves s t s' t') (hs : s.started ++ s.operations = s.added) :
    s'.started ++ s'.operations = s'.added := by
  cases h with
  | add op => simp only [← hs, List.append_assoc]
  | take _ _ hops =>
    rw [hops] at hs
    simpa using hs
  | _ => exact hs

theorem owes_le_one (t : Thread) : t.owes ≤ 1 := by
  unfold Thread.owes
  split <;> decide

theorem Moves.owed (h : Moves s t s' t') : s'.operations = [] ∨
    s'.operations.length + s.inner + t.owes ≤ s.operations.length + s'.inner + t'.owes := by
  cases h with
  | drainEmpty _ _ hops => exact Or.inl hops
  | take h _ hops =>
    have := owes_le_one t
    right
    rw [hops, List.length_cons]
    simp only []
    omega
  | add | post =>
    right
    simp only [Thread.owes, List.length_append, List.length_singleton]
    omega
  | @drainBlocks caller _ h =>
    right
    cases h <;> cases caller <;> exact Nat.le_refl _
  | waitBlocks _ h | starves _ h | returns _ h =>
    right
    cases h <;> exact Nat.le_refl _
  | finish =>
    right
    simp [Thread.owes]

end

section
variable {c : Config Shared Thread} {i : Nat} {t t' : Thread} {s' : Shared}

theorem Inv.executes_le (hI : Inv c) (ht : c.threads[i]? = some t) : t.executes ≤ c.shared.active.toNat := by
  rw [← hI.active]
  exact Family.le_total _ (Family.mem_of_get ht)

theorem act_inv (hI : Inv c) (ht : c.threads[i]? = some t) (h : Moves c.shared t s' t') :
    Inv ⟨s', c.threads.set i t' ++ []⟩ := by
  have howes := Family.total_step Thread.owes ht t' []
  have hseen := h.notifications_le
  refine ⟨?_, ?_, h.history hI.history, ?_⟩
  · refine Family.total_eq_step hI.active ht ?_
    rw [Family.total_nil, add_zero]
    exact h.executes_eq (hI.executes_le ht)
  · refine Family.forall_step ?_ ?_ (by simp)
    · intro x hx n hn
      obtain ⟨h1, h2⟩ := hI.seen x hx n hn
      refine ⟨Nat.le_trans h1 hseen.1, fun heq => ?_⟩
      have heq' : n = c.shared.notifications := Nat.le_antisymm h1 (by simp only [] at heq; omega)
      exact hseen.2 (by simp only [] at heq; omega) (h2 heq')
    · intro n hn
      obtain ⟨h1, h2⟩ := h.blockedAt hn
      exact ⟨Nat.le_of_eq h1, fun _ => h2⟩
  · rcases h.owed with h0 | h0
    · simp [h0]
    · have := hI.owed
      simp only [Family.total_nil] at howes ⊢
      omega

theorem call_shared {s : Shared} {e : Choice} {new : List Thread} (h : call s e = some (s', new)) :
    (∃ n, s' = { s with inner := n }) ∧ ∀ t ∈ new, t.executes = 0 := by
  unfold call at h
  split at h
  · cases h
    exact ⟨⟨_, rfl⟩, by simp [Thread.executes]⟩
  · split at h <;> cases h
    exact ⟨⟨_, rfl⟩, by simp [Thread.executes]⟩
  · cases h
    exact ⟨⟨_, rfl⟩, by simp [Thread.executes]⟩
  · cases h

theorem call_inv (hI : Inv c) {e : Choice} {new : List Thread} (h : call c.shared e = some (s', new)) :
    Inv ⟨s', c.threads ++ new⟩ := by
  have key : ∀ (n : Nat) (t : Thread), t.executes = 0 → t.blockedAt = none →
      c.shared.operations.length ≤ n + Family.total Thread.owes c.threads + t.owes →
      Inv ⟨{ c.shared with inner := n }, c.threads ++ [t]⟩ := by
    intro n t he hb ho
    refine ⟨by simpa [he] using hI.active, ?_, hI.history, by simpa [add_assoc] using ho⟩
    refine Family.forall_append hI.seen ?_
    intro x hx m hm
    cases List.mem_singleton.mp hx
    rw [hb] at hm
    cases hm
  have hle := hI.owed
  cases e with
  | async op =>
    cases h
    exact key _ _ rfl rfl hle
  | wait w =>
    cases h
    exact key _ _ rfl rfl hle
  | run =>
    unfold call at h
    simp only [] at h
    split at h
    · cases h
    · cases h
      refine key _ _ rfl rfl ?_
      simp only [Thread.owes]
      omega
  | _ => cases h

theorem next_act_of {c c' : Config Shared Thread} {i : Nat} {e : Choice} (h : waitableQueue.next c (.act i e) = some c') :
    ∃ t s' t', c.threads[i]? = some t ∧ t.act c.shared e = some (s', t') ∧ c' = ⟨s', c.threads.set i t' ++ []⟩ := by
  obtain ⟨t, s', t', new, ht, ha, rfl⟩ := Program.next_act h
  simp only [waitableQueue, Option.map_eq_some_iff, Prod.mk.injEq] at ha
  obtain ⟨⟨s₁, t₁⟩, ha, rfl, rfl, rfl⟩ := ha
  exact ⟨t, s₁, t₁, ht, ha, rfl⟩

theorem next_inv {c c' : Config Shared Thread} {l : Label Choice} (hI : Inv c) (h : waitableQueue.next c l = some c') :
    Inv c' := by
  cases l with
  | call e =>
    obtain ⟨s', new, hc, rfl⟩ := Program.next_call h
    exact call_inv hI hc
  | act i e =>
    obtain ⟨t, s', t', ht, ha, rfl⟩ := next_act_of h
    exact act_inv hI ht (moves_of_act ha)

theorem run_inv {tr : List (Config Shared Thread × Label Choice)} {c : Config Shared Thread}
    (h : waitableQueue.Run initial tr c) : Inv c :=
  h.invariant initial_inv (fun _ _ _ hI _ hn => next_inv hI hn) Program.along_true

end

end Xdispatch.WaitableQueue
