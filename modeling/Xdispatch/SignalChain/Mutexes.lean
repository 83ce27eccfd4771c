import Xdispatch.SignalChain.Calls

/-!
# The mutexes of a graph of signals

A thread waits for the mutex of a signal while it holds those of signals before it in
the graph, so that without circles threads cannot wait for each other, and somebody
can always go on. The cancelable of a link admits its caller, which holds the mutex
that every other call of the link would be made under.
-/

namespace Xdispatch.SignalChain

open Signal (Frame HandlerId Invocation weigh)
open Relation (TransGen)

variable {ν α : Type} [DecidableEq ν]

/-- The cancelable of a link refuses the call that takes the step. -/
def skips (c : Config (ν → Signal.Shared α) (Thread ν α)) : Label (Choice ν α) → Bool
  | .act i .step =>
    match c.threads[i]? with
    | some ⟨_, (n, .invoke inv .enter) :: _, _⟩ =>
      inv.handler.mode = .synchronousUpdate && !(c.shared n).admits inv.handler
    | _ => false
  | _ => false

namespace Thread

/-- The signal whose mutex the thread is about to lock. -/
def wants (t : Thread ν α) : Option ν :=
  match t.stack with
  | (n, .emitLock _) :: _ => some n
  | _ => none

def holds (t : Thread ν α) (n : ν) : Bool := t.stack.any fun p => p.1 = n && p.2.holds = 1

end Thread

/-- `i` waits for a mutex that `j` holds. -/
def waitsFor (c : Config (ν → Signal.Shared α) (Thread ν α)) (i j : Nat) : Prop :=
  ∃ t u n, c.threads[i]? = some t ∧ t.wants = some n ∧ c.threads[j]? = some u ∧ u.holds n = true

section
variable {G : Graph ν} {c : Config (ν → Signal.Shared α) (Thread ν α)} {l : Label (Choice ν α)} {n m : ν} {f : Frame α}
  {inv : Invocation α} {stack : List (ν × Frame α)} {t u : Thread ν α} {i j : Nat}

/-! ## Links -/

theorem weigh_waiting {w : Frame α → Nat} (hw : ∀ inv, w (.invoke inv .enter) = 0) (q : List (Invocation α)) :
    weigh w (Signal.waiting q) = 0 := by
  apply Signal.weigh_eq_zero.mpr
  intro f hf
  obtain ⟨inv, -, rfl⟩ := List.mem_map.mp (Multiset.mem_coe.mp hf)
  exact hw inv

theorem Calls.links_le (ht : Calls G t) : weigh links (framesAt n t.stack) ≤ weigh Frame.holds (framesAt n t.stack) := by
  unfold Calls at ht
  split at ht
  next => exact ht.1.links_le
  next =>
    rcases ht.1 with h0 | ⟨m, inv, phase, h1, hs⟩
    · rw [h0]
      exact Nat.le_refl _
    · rw [h1, weigh_framesAt]
      simp [links, hs]

/-- One call of a link of a signal is under way at a time. -/
theorem Inv.links_le (hI : Inv G c) (n : ν) :
    weigh links (Family.total (fun t : Thread ν α => framesAt n t.stack) c.threads) ≤ 1 := by
  have hle : weigh links (Family.total (fun t : Thread ν α => framesAt n t.stack) c.threads) ≤
      weigh Frame.holds (Family.total (fun t : Thread ν α => framesAt n t.stack) c.threads) := by
    rw [weigh_total, weigh_total]
    exact Family.total_le_total fun t ht => (hI.calls t ht).links_le
  have hlocked : weigh Frame.holds (pool c n) = (c.shared n).locked.toNat := (hI.node n).locked
  have := Bool.toNat_le (c.shared n).locked
  unfold pool at hlocked
  rw [weigh_add] at hlocked
  omega

theorem Inv.admits (hI : Inv G c) (ht : t ∈ c.threads) (hst : t.stack = (n, .invoke inv .enter) :: stack)
    (hs : inv.handler.mode = .synchronousUpdate) : (c.shared n).admits inv.handler = true := by
  have hmem : Frame.invoke inv .enter ∈ Family.total (fun t : Thread ν α => framesAt n t.stack) c.threads :=
    Family.mem_total.mpr ⟨t, ht, mem_framesAt.mpr (by rw [hst]; exact List.mem_cons_self ..)⟩
  obtain ⟨F, hF⟩ := Multiset.exists_cons_of_mem hmem
  have hle := hI.links_le n
  rw [hF, Signal.weigh_cons] at hle
  have hone : links (Frame.invoke inv .enter) = 1 := if_pos hs
  have hothers : ∀ g ∈ F, links g = 0 := Signal.weigh_eq_zero.mp (by omega)
  have hscoped : weigh (Frame.scoped inv.handler) (pool c n) = 0 := by
    unfold pool
    rw [weigh_add, weigh_waiting (fun _ => rfl), Nat.zero_add, hF, Signal.weigh_cons]
    apply Nat.add_eq_zero_iff.mpr ⟨rfl, Signal.weigh_eq_zero.mpr fun g hg => ?_⟩
    -- a call in the scope of the link would be one of its calls
    have h0 := hothers g hg
    unfold Frame.scoped
    split
    · split
      next hk => simp [links, hk, hs] at h0
      next => rfl
    · split
      next hk => simp [links, hk, hs] at h0
      next => rfl
    · rfl
  have henabled := (hI.node n).enabled inv.handler hscoped
  simp [Signal.Shared.admits, Cancelable.admits, henabled]

theorem Inv.not_skips (hI : Inv G c) (l : Label (Choice ν α)) : skips c l = false := by
  unfold skips
  split
  · split
    next i _ emit n inv stack queued ht =>
      by_cases hs : inv.handler.mode = .synchronousUpdate
      · rw [hI.admits (Family.mem_of_get ht) rfl hs]
        simp
      · simp [hs]
    next => rfl
  · rfl

/-! ## The order of the mutexes -/

omit [DecidableEq ν] in
theorem wants_stack (hw : t.wants = some n) : ∃ args stack, t.stack = (n, .emitLock args) :: stack := by
  unfold Thread.wants at hw
  split at hw
  next m args stack hst =>
    cases hw
    exact ⟨args, stack, hst⟩
  next => cases hw

theorem Calls.edge (hc : Calls G t) (hw : t.wants = some m) (hh : t.holds n = true) : TransGen G.links.Edge n m := by
  obtain ⟨args, stack, hst⟩ := wants_stack hw
  unfold Thread.holds at hh
  obtain ⟨⟨k, f⟩, hmem, hf⟩ := List.any_eq_true.mp hh
  simp only [Bool.and_eq_true, decide_eq_true_eq] at hf
  obtain ⟨rfl, h1⟩ := hf
  unfold Calls at hc
  rw [hst] at hc hmem
  split at hc
  next =>
    cases hc.1 with
    | emitLock hb =>
      rcases List.mem_cons.mp hmem with heq | hmem
      · cases heq
        cases h1
      · exact hb.edge hmem h1
  next =>
    rcases hc.1 with h0 | ⟨k, inv, phase, h1, -⟩
    · cases h0
    · cases h1

theorem Inv.not_deadlocked [Finite ν] (hG : G.links.Acyclic) (hI : Inv G c) : ¬ Deadlocked (waitsFor c) := by
  apply Deadlocked.not_of_order hG.wellFounded fun i n => ∃ t, c.threads[i]? = some t ∧ t.wants = some n
  · rintro i j ⟨t, u, n, ht, hw, -, -⟩
    exact ⟨n, t, ht, hw⟩
  · rintro i j m n ⟨t, u, k, ht, hk, hu, hh⟩ ⟨t', ht', hm⟩ ⟨u', hu', hn⟩
    cases ht.symm.trans ht'
    cases hu.symm.trans hu'
    cases hk.symm.trans hm
    exact (hI.calls u (Family.mem_of_get hu)).edge hn hh

/-! ## Somebody can go on -/

theorem exists_act {s : Signal.Shared α} {current : HandlerId → Bool} (hf : emitting f = true)
    (hl : ∀ args, f = .emitLock args → s.locked = false) : ∃ r, f.act s current = some r := by
  cases f with
  | emitLock args => exact ⟨_, if_neg (by rw [hl args rfl]; decide)⟩
  | emitNext rest args => cases rest <;> exact ⟨_, rfl⟩
  | emitBranch h rest args p =>
    simp only [Frame.act]
    split
    · exact ⟨_, rfl⟩
    · split <;> exact ⟨_, rfl⟩
  | invoke inv phase =>
    cases phase with
    | enter =>
      simp only [Frame.act]
      split <;> exact ⟨_, rfl⟩
    | _ => exact ⟨_, rfl⟩
  | _ => cases hf

theorem Inv.holder (hI : Inv G c) (hl : (c.shared n).locked = true) : ∃ u ∈ c.threads, u.holds n = true := by
  have hlocked : weigh Frame.holds (pool c n) = (c.shared n).locked.toNat := (hI.node n).locked
  rw [hl] at hlocked
  unfold pool at hlocked
  rw [weigh_add, weigh_waiting (fun _ => rfl), Nat.zero_add, weigh_total] at hlocked
  obtain ⟨u, hu, hpos⟩ := Family.exists_of_total_pos (by rw [hlocked]; exact Nat.one_pos)
  refine ⟨u, hu, ?_⟩
  by_contra hno
  have hzero : weigh Frame.holds (framesAt n u.stack) = 0 := by
    apply Signal.weigh_eq_zero.mpr
    intro f hf
    by_contra h0
    apply hno
    refine List.any_eq_true.mpr ⟨(n, f), mem_framesAt.mp hf, ?_⟩
    have h1 : f.holds = 1 := by
      unfold Frame.holds at h0 ⊢
      split <;> simp_all
    simp [h1]
  omega

theorem Inv.exists_step [Finite ν] (hG : G.links.Acyclic) (hI : Inv G c) (ht : t ∈ c.threads) (hst : t.stack ≠ []) :
    ∃ i c', (chain G).next c (.act i .step) = some c' := by
  have hgo : ∀ u ∈ c.threads, u.stack ≠ [] → (∀ n, u.wants = some n → (c.shared n).locked = false) →
      ∃ i c', (chain G).next c (.act i .step) = some c' := by
    intro u hu hne hw
    obtain ⟨i, hi⟩ := List.mem_iff_getElem?.mp hu
    obtain ⟨⟨n, f⟩, stack, hst⟩ := List.exists_cons_of_ne_nil hne
    have hmem : f ∈ pool c n := mem_pool hu (by rw [hst]; exact List.mem_cons_self ..)
    obtain ⟨r, hr⟩ : ∃ r, f.act (c.shared n) (u.current n) = some r := by
      apply exists_act ((hI.node n).emits f hmem)
      rintro args rfl
      exact hw n (by simp [Thread.wants, hst])
    exact ⟨i, _, Program.act_next hi (by simp only [chain, act, hst, hr]; rfl)⟩
  -- along the graph, from the signal that a thread waits for to the one that its holder waits for
  have key : ∀ n, ∀ u ∈ c.threads, u.wants = some n → ∃ i c', (chain G).next c (.act i .step) = some c' := by
    intro n
    induction n using hG.wellFounded.induction with
    | _ n ih =>
      intro u hu hw
      by_cases hl : (c.shared n).locked = true
      · obtain ⟨v, hv, hh⟩ := hI.holder hl
        cases hvw : v.wants with
        | some m => exact ih m ((hI.calls v hv).edge hvw hh) v hv hvw
        | none =>
          refine hgo v hv ?_ fun m hm => ?_
          · intro h0
            simp [Thread.holds, h0] at hh
          · rw [hvw] at hm
            cases hm
      · refine hgo u hu ?_ fun m hm => ?_
        · intro h0
          simp [Thread.wants, h0] at hw
        · cases hw.symm.trans hm
          simpa using hl
  cases hw : t.wants with
  | some n => exact key n t ht hw
  | none =>
    refine hgo t ht hst fun n hn => ?_
    rw [hw] at hn
    cases hn

/-- As long as a call is under way, a thread can take a step. -/
theorem run_exists_step [Finite ν] (hG : G.links.Acyclic)
    {tr : List (Config (ν → Signal.Shared α) (Thread ν α) × Label (Choice ν α))} (hr : (chain G).Run (initial G) tr c)
    (ht : t ∈ c.threads) (hst : t.stack ≠ []) : ∃ i c', (chain G).next c (.act i .step) = some c' :=
  (run_inv hr).exists_step hG ht hst

end

end Xdispatch.SignalChain
