import Xdispatch.Lib.Record
import Xdispatch.Semaphore.Wakeups

/-!
# Tokens

What the calls of `release` have added and what those that acquire have taken
away account for `m_count`, as long as the `int` that it is does not overflow:
its additions wrap, and nothing bounds them.
-/

namespace Xdispatch.Semaphore

/-- Counts the decrements of `m_count` that a call makes. -/
def decrements (s : Shared) (t : Thread) (_ : Choice) (s' : Shared) (k : Nat) : Nat :=
  match t with
  | .release .. => k
  | _ => if s'.count < s.count then k + 1 else k

def counted (P : Program Shared Thread Choice) : Program Shared (Thread × Nat) Choice := P.recorded id decrements 0

def start (count : Int) : Config Shared (Thread × Nat) := ⟨(initial count).shared, []⟩

/-- What the call has returned. -/
def Thread.result : Thread → Option Bool
  | .tried r | .spin _ (.returned r) | .wait (.returned r) => some r
  | _ => none

/-- What the call has added to `m_count`. -/
def Thread.released : Thread → Int
  | .release _ .add => 0
  | .release n _ => n
  | _ => 0

structure Conserved (initial : Int) (c : Config Shared (Thread × Nat)) : Prop where
  nonneg : 0 ≤ c.shared.count
  balance : c.shared.count + Family.total (fun t => (t.2 : Int)) c.threads =
    initial + Family.total (fun t => t.1.released) c.threads
  result : ∀ t ∈ c.threads, ∀ r, t.1.result = some r → t.2 = r.toNat

/-- What `release` adds does not overflow `m_count`. -/
def fits (c : Config Shared (Thread × Nat)) : Label Choice → Bool
  | .act i .step =>
    match c.threads[i]? with
    | some (.release n .add, _) => c.shared.count + n < 2 ^ 31
    | _ => true
  | _ => true

/-! ## What a step does to the account -/

/-- The decrements that the call has made if each is one that it goes on to return. -/
def Thread.acquired : Thread → Nat
  | .tried r | .spin _ (.returned r) | .wait (.leave r) | .wait (.unlock r) | .wait (.returned r) => r.toNat
  | _ => 0

/-- The test at the head of the loop has not found zero. -/
def Try.tested : Try → Bool
  | .load => true
  | .exchange old => old ≠ 0

/-- What the tests of the call have left. -/
def Thread.tested : Thread → Bool
  | .tryAcquire p | .spin _ (.try _ p) | .wait (.first p) | .wait (.second p) | .wait (.predicate p _ _) => p.tested
  | .release n _ => 0 < n
  | _ => true

section
variable {s s' : Shared} {t t' : Thread}

theorem Try.Step.takes_or_tests {p : Try} {r : Bool ⊕ Try} (h : p.Step s s' r) (h0 : 0 ≤ s.count) (hp : p.tested = true) :
    s'.count = s.count - 1 ∧ 0 ≤ s'.count ∧ r = .inl true ∨
      s'.count = s.count ∧ (r = .inl false ∨ ∃ q, q.tested = true ∧ r = .inr q) := by
  cases h with
  | takes he =>
    subst he
    have hne : s.count ≠ 0 := by simpa [Try.tested] using hp
    refine Or.inl ⟨rfl, ?_, rfl⟩
    change 0 ≤ s.count - 1
    omega
  | tests =>
    refine Or.inr ⟨rfl, ?_⟩
    unfold Shared.test
    by_cases hz : s.count = 0
    · exact Or.inl (if_pos hz)
    · exact Or.inr ⟨.exchange s.count, by simpa [Try.tested] using hz, if_neg hz⟩

/-- What the step of a thread does to the account. -/
structure Accounts (s : Shared) (t : Thread) (s' : Shared) (t' : Thread) : Prop where
  nonneg : 0 ≤ s'.count
  tested : t'.tested = true
  taken : ∀ e, decrements s t e s' t.acquired = t'.acquired
  balance : s'.count + t'.acquired + t.released = s.count + t.acquired + t'.released

theorem Try.Step.accounts {p : Try} {r : Bool ⊕ Try} (h : p.Step s s' r) (h0 : 0 ≤ s.count) (hp : p.tested = true)
    (ht : t.acquired = 0) (hr : t.released = 0)
    (hd : ∀ e k, decrements s t e s' k = if s'.count < s.count then k + 1 else k)
    (ha : ∀ b, r = .inl b → t'.acquired = b.toNat ∧ t'.released = 0 ∧ t'.tested = true)
    (hi : ∀ q, r = .inr q → t'.acquired = 0 ∧ t'.released = 0 ∧ t'.tested = q.tested) : Accounts s t s' t' := by
  rcases h.takes_or_tests h0 hp with ⟨hc, h0', rfl⟩ | ⟨hc, rfl | ⟨q, hq, rfl⟩⟩
  · obtain ⟨h1, h2, h3⟩ := ha true rfl
    refine ⟨h0', h3, fun e => ?_, ?_⟩
    · rw [hd, ht, if_pos (by omega), h1, Bool.toNat_true]
    · rw [h1, h2, ht, hr, hc, Bool.toNat_true]
      omega
  · obtain ⟨h1, h2, h3⟩ := ha false rfl
    refine ⟨hc ▸ h0, h3, fun e => ?_, ?_⟩
    · rw [hd, ht, if_neg (by omega), h1, Bool.toNat_false]
    · rw [h1, h2, ht, hr, hc, Bool.toNat_false]
  · obtain ⟨h1, h2, h3⟩ := hi q rfl
    refine ⟨hc ▸ h0, h3.trans hq, fun e => ?_, ?_⟩
    · rw [hd, ht, if_neg (by omega), h1]
    · rw [h1, h2, ht, hr, hc]

theorem accounts_of_count (h0 : 0 ≤ s.count) (hc : s'.count = s.count) (ha : t'.acquired = t.acquired)
    (hr : t'.released = t.released) (ht : t'.tested = true) : Accounts s t s' t' := by
  refine ⟨hc ▸ h0, ht, fun e => ?_, by rw [hc, ha, hr]⟩
  unfold decrements
  split
  · exact ha.symm
  · rw [if_neg (by omega), ha]

theorem spin_accounts {spins : Int} {p p' : SpinPhase} (h : p.Step s spins s' p') (h0 : 0 ≤ s.count)
    (ht : (Thread.spin spins p).tested = true) : Accounts s (.spin spins p) s' (.spin spins p') := by
  cases h with
  | @tries s' p r i h =>
    refine h.accounts h0 ht rfl rfl (fun _ _ => rfl) ?_ ?_
    · rintro (_ | _) rfl <;> exact ⟨rfl, rfl, rfl⟩
    · rintro q rfl
      exact ⟨rfl, rfl, rfl⟩
  | relaxes i =>
    have hloop : ∀ j, (Thread.spin spins (.loop spins j)).acquired = 0 ∧
        (Thread.spin spins (.loop spins j)).tested = true := by
      intro j
      unfold SpinPhase.loop
      split <;> exact ⟨rfl, rfl⟩
    by_cases hc : s.count = 0 ∧ i < spins
    · rw [if_pos hc]
      exact accounts_of_count h0 rfl rfl rfl rfl
    · rw [if_neg hc]
      exact accounts_of_count h0 rfl (hloop _).1 rfl (hloop _).2

theorem wait_accounts {p p' : WaitPhase} (h : p.Step s s' p') (h0 : 0 ≤ s.count)
    (ht : (Thread.wait p).tested = true) : Accounts s (.wait p) s' (.wait p') := by
  cases h with
  | first h | second h =>
    refine h.accounts h0 ht rfl rfl (fun _ _ => rfl) ?_ ?_
    · rintro (_ | _) rfl <;> exact ⟨rfl, rfl, rfl⟩
    · rintro q rfl
      exact ⟨rfl, rfl, rfl⟩
  | predicate notified late h =>
    refine h.accounts h0 ht rfl rfl (fun _ _ => rfl) ?_ ?_
    · rintro (_ | _) rfl
      · cases late <;> exact ⟨rfl, rfl, rfl⟩
      · exact ⟨rfl, rfl, rfl⟩
    · rintro q rfl
      exact ⟨rfl, rfl, rfl⟩
  | locks | enters | blocks | wakes | relocks | leaves | unlocks => exact accounts_of_count h0 rfl rfl rfl rfl

theorem release_accounts {n : Int} {p p' : ReleasePhase} (h : p.Step s n s' p') (h0 : 0 ≤ s.count)
    (ht : (Thread.release n p).tested = true) : Accounts s (.release n p) s' (.release n p') := by
  have hn : 0 < n := by simpa [Thread.tested] using ht
  cases h with
  | adds =>
    refine ⟨?_, ht, fun _ => rfl, ?_⟩
    · change 0 ≤ s.count + n
      omega
    · change s.count + n + 0 + 0 = s.count + 0 + n
      omega
  | finds | skips | locks | picks | nobody | all | unlocks => exact accounts_of_count h0 rfl rfl rfl ht

theorem step_accounts (h : t.Step s s' t') (h0 : 0 ≤ s.count) (ht : t.tested = true) : Accounts s t s' t' := by
  cases h with
  | @tries s' p r h =>
    refine h.accounts h0 ht rfl rfl (fun _ _ => rfl) ?_ ?_
    · rintro b rfl
      exact ⟨rfl, rfl, rfl⟩
    · rintro q rfl
      exact ⟨rfl, rfl, rfl⟩
  | spins spins h => exact spin_accounts h h0 ht
  | waits h => exact wait_accounts h h0 ht
  | releases n h => exact release_accounts h h0 ht

theorem step_count (h : t.Step s s' t') :
    s'.count ≤ s.count ∨ ∃ n, t = .release n .add ∧ s'.count = s.count + n := by
  have htry : ∀ {p : Try} {s' : Shared} {r : Bool ⊕ Try}, p.Step s s' r → s'.count ≤ s.count := by
    intro p s' r h
    rcases h.cases with ⟨rfl, -⟩ | ⟨⟨a, rfl⟩, -⟩
    · exact Int.sub_le_self _ Int.one_nonneg
    · exact Int.le_refl _
  cases h with
  | tries h => exact Or.inl (htry h)
  | spins spins h =>
    cases h with
    | tries i h => exact Or.inl (htry h)
    | relaxes i => exact Or.inl (Int.le_refl _)
  | waits h =>
    cases h with
    | first h | second h | predicate _ _ h => exact Or.inl (htry h)
    | _ => exact Or.inl (Int.le_refl _)
  | releases n h =>
    cases h with
    | adds => exact Or.inr ⟨n, rfl, rfl⟩
    | _ => exact Or.inl (Int.le_refl _)

end

/-! ## Runs -/

structure Accounted (initial : Int) (c : Config Shared (Thread × Nat)) : Prop where
  nonneg : 0 ≤ c.shared.count
  tested : ∀ t ∈ c.threads, t.1.tested = true
  taken : ∀ t ∈ c.threads, t.2 = t.1.acquired
  balance : c.shared.count + Family.total (fun t => (t.2 : Int)) c.threads =
    initial + Family.total (fun t => t.1.released) c.threads

section
variable {initial : Int} {c c' : Config Shared (Thread × Nat)} {l : Label Choice}

theorem acquired_of_result {t : Thread} {r : Bool} (h : t.result = some r) : t.acquired = r.toNat := by
  unfold Thread.result at h
  split at h
  · cases h
    rfl
  · cases h
    rfl
  · cases h
    rfl
  · cases h

theorem Accounted.conserved (hI : Accounted initial c) : Conserved initial c :=
  ⟨hI.nonneg, hI.balance, fun t ht _ hr => (hI.taken t ht).trans (acquired_of_result hr)⟩

theorem call_starts {s s' : Shared} {e : Choice} {new : List Thread} (h : semaphore.call s e = some (s', new)) :
    s'.count = s.count ∧ ∀ t ∈ new, t.tested = true ∧ t.acquired = 0 ∧ t.released = 0 := by
  cases e with
  | tryAcquire | wait =>
    cases h
    simp [Thread.tested, Try.tested, Thread.acquired, Thread.released]
  | spin spins =>
    cases h
    unfold SpinPhase.loop
    split <;> simp [Thread.tested, Try.tested, Thread.acquired, Thread.released]
  | release n =>
    simp only [semaphore, call] at h
    split at h
    · cases h
      simpa [Thread.tested, Thread.acquired, Thread.released] using ‹0 < n›
    · cases h
      simp
  | _ => cases h

theorem Accounted.call {s' : Shared} {e : Choice} {new : List Thread} (hI : Accounted initial c)
    (h : semaphore.call c.shared e = some (s', new)) : Accounted initial ⟨s', c.threads ++ new.map (·, 0)⟩ := by
  obtain ⟨hc, hnew⟩ := call_starts h
  have hnew' : ∀ t ∈ new.map (·, 0), t.1 ∈ new ∧ t.2 = 0 := by
    rintro ⟨t, k⟩ ht
    obtain ⟨u, hu, he⟩ := List.mem_map.mp ht
    cases he
    exact ⟨hu, rfl⟩
  refine ⟨hc ▸ hI.nonneg, Family.forall_append hI.tested fun t ht => (hnew t.1 (hnew' t ht).1).1,
    Family.forall_append hI.taken fun t ht => ?_, ?_⟩
  · rw [(hnew t.1 (hnew' t ht).1).2.1]
    exact (hnew' t ht).2
  · have h1 : Family.total (fun t => (t.2 : Int)) (c.threads ++ new.map (·, 0)) = _ :=
      Family.total_append_zero c.threads fun t ht => congrArg Nat.cast (hnew' t ht).2
    have h2 := Family.total_append_zero c.threads fun t ht => (hnew t.1 (hnew' t ht).1).2.2
    change s'.count + Family.total (fun t : Thread × Nat => (t.2 : Int)) _ = _
    rw [hc, h2]
    exact (congrArg (c.shared.count + ·) h1).trans hI.balance

theorem Accounted.act {i : Nat} {t : Thread × Nat} {s' : Shared} {u : Thread} {e : Choice} (hI : Accounted initial c)
    (ht : c.threads[i]? = some t) (h : t.1.Step c.shared s' u) :
    Accounted initial ⟨s', c.threads.set i (u, decrements c.shared t.1 e s' t.2) ++ []⟩ := by
  have hm := Family.mem_of_get ht
  have hA := step_accounts h hI.nonneg (hI.tested t hm)
  have ht2 := hI.taken t hm
  have hk : decrements c.shared t.1 e s' t.2 = u.acquired := by
    rw [ht2]
    exact hA.taken e
  rw [hk]
  refine ⟨hA.nonneg, Family.forall_step hI.tested hA.tested (by simp), Family.forall_step hI.taken rfl (by simp), ?_⟩
  have h1 := Family.total_step (fun t : Thread × Nat => (t.2 : Int)) ht (u, u.acquired) []
  have h2 := Family.total_step (fun t : Thread × Nat => t.1.released) ht (u, u.acquired) []
  have hb := hI.balance
  have ha := hA.balance
  simp only [Family.total_nil, add_zero, ht2] at h1 h2
  simp only []
  omega

theorem next_accounted (hI : Accounted initial c) (h : (counted semaphore).next c l = some c') :
    Accounted initial c' := by
  cases l with
  | call e =>
    obtain ⟨s, new, hc, rfl⟩ := Program.next_call h
    obtain ⟨new', hP, rfl⟩ := Program.recorded_call hc
    exact hI.call hP
  | act i e =>
    obtain ⟨t, s, t', new, ht, ha, rfl⟩ := Program.next_act h
    obtain ⟨u, new', hP, rfl, rfl⟩ := Program.recorded_act ha
    obtain ⟨rfl, hs⟩ := act_step hP
    exact hI.act ht hs

theorem counted_run {P : Program Shared Thread Choice} {tr : List (Config Shared (Thread × Nat) × Label Choice)}
    (h : (counted P).Run (start initial) tr c) :
    P.Run (Semaphore.initial initial) (Program.abstracted Program.forget (fun _ l => some (l.map id)) tr)
      (Program.forget c) :=
  Program.recorded_refines.run h

/-- Without a bound on the counter tokens are always conserved. -/
theorem run_conserved {tr : List (Config Shared (Thread × Nat) × Label Choice)} (h0 : 0 ≤ initial)
    (h : (counted semaphore).Run (start initial) tr c) : Accounted initial c :=
  h.invariant (C := fun _ _ => True) ⟨h0, by simp [start], by simp [start], rfl⟩
    (fun _ _ _ hI _ hn => next_accounted hI hn) Program.along_true

/-! ## The bound of `int` -/

theorem toInt32_eq {x : Int} (h0 : 0 ≤ x) (h : x < 2 ^ 31) : toInt32 x = x := by
  unfold toInt32 Int.bmod
  simp only []
  split <;> omega

theorem toInt32_lt (x : Int) : toInt32 x < 2 ^ 31 := Int.bmod_lt (by decide)

/-- The machine does what the semaphore does while nothing overflows. -/
theorem machine_next (hI : Accounted initial c) (hlt : c.shared.count < 2 ^ 31) (hC : fits c l = true)
    (h : (counted machine).next c l = some c') : (counted semaphore).next c l = some c' ∧ c'.shared.count < 2 ^ 31 := by
  cases l with
  | call e =>
    refine ⟨h, ?_⟩
    obtain ⟨s, new, hc, rfl⟩ := Program.next_call h
    obtain ⟨new', hP, rfl⟩ := Program.recorded_call hc
    change s.count < 2 ^ 31
    rw [(call_starts hP).1]
    exact hlt
  | act i e =>
    obtain ⟨t, s', t', new, ht, ha, rfl⟩ := Program.next_act h
    obtain ⟨u, new', hP, rfl, rfl⟩ := Program.recorded_act ha
    obtain ⟨s₁, hs, rfl⟩ := machine_act hP
    obtain ⟨rfl, hstep⟩ := act_step hs
    have h0 := (step_accounts hstep hI.nonneg (hI.tested t (Family.mem_of_get ht))).nonneg
    have hlt' : s₁.count < 2 ^ 31 := by
      rcases step_count hstep with hle | ⟨n, hn, hc⟩
      · omega
      · obtain ⟨t, k⟩ := t
        subst hn
        cases e with
        | step =>
          simp only [fits, ht, decide_eq_true_eq] at hC
          omega
        | _ => cases hs
    have heq : { s₁ with count := toInt32 s₁.count } = s₁ := by rw [toInt32_eq h0 hlt']
    rw [heq]
    exact ⟨Program.act_next ht (Program.act_recorded hs), hlt'⟩

theorem overflow_not_conserved (hI : Accounted initial c) (hC : fits c l = false)
    (h : (counted machine).next c l = some c') : ¬ Conserved initial c' := by
  intro hG
  unfold fits at hC
  split at hC
  next i =>
    split at hC
    next n k ht =>
      have hC : 2 ^ 31 ≤ c.shared.count + n := by simpa using hC
      obtain ⟨t, s', t', new, ht', ha, rfl⟩ := Program.next_act h
      cases ht.symm.trans ht'
      obtain ⟨u, new', hP, rfl, rfl⟩ := Program.recorded_act ha
      obtain ⟨s₁, hs, rfl⟩ := machine_act hP
      cases hs
      have h1 := Family.total_step (fun t : Thread × Nat => (t.2 : Int)) ht (.release n .loadWaiters, k) []
      have h2 := Family.total_step (fun t : Thread × Nat => t.1.released) ht (.release n .loadWaiters, k) []
      have hlt := toInt32_lt (c.shared.count + n)
      have hb := hI.balance
      have hb' : toInt32 (c.shared.count + n) + _ = _ := hG.balance
      change _ + (k : Int) = _ + (k : Int) + 0 at h1
      change _ + 0 = _ + n + 0 at h2
      simp only [List.map_nil, decrements] at hb'
      omega
    · cases hC
  · cases hC

end

/-- **Tokens are conserved** in the runs in which each `release` fits into the counter, and in no others. -/
theorem run_conserved_iff {initial : Int} (h0 : 0 ≤ initial) (hlt : initial < 2 ^ 31)
    {tr : List (Config Shared (Thread × Nat) × Label Choice)} {c : Config Shared (Thread × Nat)}
    (h : (counted machine).Run (start initial) tr c) :
    Program.Along (fun c l => fits c l = true) tr ↔ (∀ p ∈ tr, Conserved initial p.1) ∧ Conserved initial c := by
  refine h.along_iff (I := fun c => Accounted initial c ∧ c.shared.count < 2 ^ 31)
    ⟨⟨h0, by simp [start], by simp [start], rfl⟩, hlt⟩ (fun c l c' hI hC hn => ?_) (fun c hI => hI.1.conserved)
    (fun c l c' hI hC hn => overflow_not_conserved hI.1 (by simpa using hC) hn)
  obtain ⟨hn, hlt⟩ := machine_next hI.1 hI.2 hC hn
  exact ⟨next_accounted hI.1 hn, hlt⟩

/-- One more token than an `int` can count. -/
theorem release_not_conserved : ∃ tr c, (counted machine).Run (start (2 ^ 31 - 1)) tr c ∧ c.shared.count < 0 :=
  ⟨_, _, Program.run_last (l := [.call (.release 1), .act 0 .step]) (by decide), by decide⟩

/-- A `wait_acquire` times out on the last test of its predicate, another gets a token that comes then. -/
def lateToken : List (Label Choice) :=
  [.call .wait, .act 0 .step, .act 0 .step, .act 0 .step, .act 0 .step, .act 0 .step, .act 0 .step,
    .act 0 .timeout, .act 0 .step, .act 0 .step, .act 0 .step, .act 0 .step,
    .call .wait, .act 1 .step, .call (.release 1), .act 2 .step, .act 2 .step,
    .act 1 .step, .act 1 .step, .act 1 .spurious, .act 1 .step, .act 1 .step]

theorem run_conserved_iff_lateToken :
    Program.Along (fun c l => fits c l = true) ((counted machine).path (start 0) lateToken) ↔
      (∀ p ∈ (counted machine).path (start 0) lateToken, Conserved 0 p.1) ∧
        Conserved 0 ((counted machine).last (start 0) lateToken) :=
  run_conserved_iff (by decide) (by decide) (Program.run_last (by decide))

end Xdispatch.Semaphore
