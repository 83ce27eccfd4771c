import Xdispatch.Lib.Counter
import Xdispatch.Semaphore.Tokens

/-!
# The semaphore as a counter

Whatever the calls do with the mutex, the condition variable and `m_waiters`, the
semaphore is a counter of tokens: a `release` adds in its first step, and an acquire
takes or gives up with one access to `m_count`, which nobody sees until it has
returned.
-/

namespace Xdispatch.Semaphore

open Counter (counter)

/-! ## The counter -/

def SpinPhase.counter : SpinPhase → Counter.Thread
  | .returned r => .answered r
  | _ => .take true

/-- Once it has decided, a call only leaves the mutex. -/
def WaitPhase.counter : WaitPhase → Counter.Thread
  | .leave r | .unlock r | .returned r => .answered r
  | _ => .take false

def ReleasePhase.counter (count : Int) : ReleasePhase → Counter.Thread
  | .add => .add count
  | _ => .added

def Thread.counter : Thread → Counter.Thread
  | .tryAcquire _ => .take false
  | .tried r => .answered r
  | .spin _ p => p.counter
  | .wait p => p.counter
  | .release count p => p.counter count

def abstract (c : Config Shared Thread) : Config Int Counter.Thread :=
  ⟨c.shared.count, c.threads.map Thread.counter⟩

/-- The step of the counter that a step of the semaphore is: a call, or the end of one. -/
def label (c : Config Shared Thread) : Label Choice → Option (Label Counter.Choice)
  | .call .tryAcquire | .call .wait => some (.call (.take false))
  | .call (.spin spins) => some (.call (if 0 < spins then .take true else .giveUp))
  | .call (.release count) => if 0 < count then some (.call (.add count)) else none
  | .call _ => none
  | .act i e =>
    match c.threads[i]?, (semaphore.next c (.act i e)).bind (·.threads[i]?) with
    | some t, some t' => (Counter.ends t.counter t'.counter).map (.act i)
    | _, _ => none

/-! ## What a step does to the counter -/

/-- A step is none of the counter, or it is the one that ends the call. -/
def Follows (s : Shared) (t : Thread) (s' : Shared) (t' : Thread) : Prop :=
  t'.counter = t.counter ∧ s'.count = s.count ∨
    ∃ choice, Counter.ends t.counter t'.counter = some choice ∧
      Counter.act s.count t.counter choice = some (s'.count, t'.counter, [])

section
variable {s s' : Shared} {t t' : Thread}

/-- A step of `try_acquire` within a call that goes on when it finds no token. -/
theorem Try.Step.follows {p : Try} {r : Bool ⊕ Try} (h : p.Step s s' r) (h0 : 0 ≤ s.count) (hp : p.tested = true)
    {impatient : Bool} (ht : t.counter = .take impatient) (htrue : r = .inl true → t'.counter = .answered true)
    (hfalse : r = .inl false → t'.counter = .take impatient ∨ t'.counter = .answered false)
    (hinside : ∀ q, r = .inr q → t'.counter = .take impatient) : Follows s t s' t' := by
  have stays : s'.count = s.count → t'.counter = .take impatient → Follows s t s' t' :=
    fun hc ht' => Or.inl ⟨ht'.trans ht.symm, hc⟩
  cases h with
  | takes he =>
    subst he
    have hpos : 0 < s.count := by
      have : s.count ≠ 0 := by simpa [Try.tested] using hp
      omega
    refine Or.inr ⟨.step, ?_, ?_⟩
    · rw [ht, htrue rfl]
      rfl
    · rw [ht, htrue rfl]
      exact if_pos hpos
  | tests =>
    by_cases hz : s.count = 0
    · have hr : (s.test s.count).2 = .inl false := if_pos hz
      rcases hfalse hr with ht' | ht'
      · exact stays rfl ht'
      · refine Or.inr ⟨.giveUp, ?_, ?_⟩
        · rw [ht, ht']
          rfl
        · rw [ht, ht']
          exact if_pos (by simp [hz])
    · exact stays rfl (hinside (.exchange s.count) (if_neg hz))

theorem follows_of_same (ht : t'.counter = t.counter) (hc : s'.count = s.count) : Follows s t s' t' := Or.inl ⟨ht, hc⟩

theorem spin_follows {spins : Int} {p p' : SpinPhase} (h : p.Step s spins s' p') (h0 : 0 ≤ s.count)
    (ht : (Thread.spin spins p).tested = true) : Follows s (.spin spins p) s' (.spin spins p') := by
  cases h with
  | tries i h =>
    refine h.follows h0 ht rfl ?_ ?_ ?_
    · rintro rfl
      rfl
    · rintro rfl
      exact Or.inl rfl
    · rintro q rfl
      rfl
  | relaxes i =>
    by_cases hc : s.count = 0 ∧ i < spins
    · rw [if_pos hc]
      exact follows_of_same rfl rfl
    rw [if_neg hc]
    unfold SpinPhase.loop
    split
    · exact follows_of_same rfl rfl
    · -- it has used up its spins
      exact Or.inr ⟨.giveUp, rfl, if_pos (by simp)⟩

theorem wait_follows {p p' : WaitPhase} (h : p.Step s s' p') (h0 : 0 ≤ s.count)
    (ht : (Thread.wait p).tested = true) : Follows s (.wait p) s' (.wait p') := by
  cases h with
  | first h | second h =>
    refine h.follows h0 ht rfl ?_ ?_ ?_
    · rintro rfl
      rfl
    · rintro rfl
      exact Or.inl rfl
    · rintro q rfl
      rfl
  | predicate notified late h =>
    refine h.follows h0 ht rfl ?_ ?_ ?_
    · rintro rfl
      rfl
    · rintro rfl
      cases late with
      | false => exact Or.inl rfl
      | true => exact Or.inr rfl
    · rintro q rfl
      rfl
  | _ => exact follows_of_same rfl rfl

theorem release_follows {count : Int} {p p' : ReleasePhase} (h : p.Step s count s' p') :
    Follows s (.release count p) s' (.release count p') := by
  cases h with
  | adds => exact Or.inr ⟨.step, rfl, rfl⟩
  | _ => exact follows_of_same rfl rfl

theorem step_follows (h : t.Step s s' t') (h0 : 0 ≤ s.count) (ht : t.tested = true) : Follows s t s' t' := by
  cases h with
  | tries h =>
    refine h.follows h0 ht rfl ?_ ?_ ?_
    · rintro rfl
      rfl
    · rintro rfl
      exact Or.inr rfl
    · rintro q rfl
      rfl
  | spins spins h => exact spin_follows h h0 ht
  | waits h => exact wait_follows h h0 ht
  | releases count h => exact release_follows h

end

/-! ## Runs -/

structure CounterInv (c : Config Shared Thread) : Prop where
  nonneg : 0 ≤ c.shared.count
  tested : ∀ t ∈ c.threads, t.tested = true

section
variable {c c' : Config Shared Thread} {i : Nat} {e : Choice} {tr : List (Config Shared Thread × Label Choice)} {count : Int}

theorem call_counter (hI : CounterInv c) (h : semaphore.next c (.call e) = some c') :
    CounterInv c' ∧ counter.Follows (abstract c) (abstract c') (label c (.call e)) := by
  obtain ⟨s, new, hc, rfl⟩ := Program.next_call h
  obtain ⟨hs, hnew⟩ := call_starts hc
  refine ⟨⟨hs ▸ hI.nonneg, Family.forall_append hI.tested fun t ht => (hnew t ht).1⟩, ?_⟩
  cases e with
  | tryAcquire | wait =>
    cases hc
    simp [Program.Follows, label, abstract, Program.next, counter, Counter.call, Thread.counter, WaitPhase.counter]
  | spin spins =>
    cases hc
    by_cases hpos : 0 < spins
    · simp [Program.Follows, label, abstract, Program.next, counter, Counter.call, Thread.counter, SpinPhase.loop,
        SpinPhase.counter, hpos]
    · simp [Program.Follows, label, abstract, Program.next, counter, Counter.call, Thread.counter, SpinPhase.loop,
        SpinPhase.counter, hpos]
  | release n =>
    simp only [semaphore, call] at hc
    split at hc <;> cases hc
    next hn =>
      simp [Program.Follows, label, abstract, Program.next, counter, Counter.call, Thread.counter, ReleasePhase.counter, hn]
    next hn => simp [Program.Follows, label, abstract, hn]
  | _ => cases hc

theorem act_counter (hI : CounterInv c) (h : semaphore.next c (.act i e) = some c') :
    CounterInv c' ∧ counter.Follows (abstract c) (abstract c') (label c (.act i e)) := by
  obtain ⟨t, s, t', new, ht, ha, rfl⟩ := Program.next_act h
  obtain ⟨rfl, hs⟩ := act_step ha
  have htested := hI.tested t (Family.mem_of_get ht)
  have hA := step_accounts hs hI.nonneg htested
  refine ⟨⟨hA.nonneg, Family.forall_step hI.tested hA.tested (by simp)⟩, ?_⟩
  have hlabel : label c (.act i e) = (Counter.ends t.counter t'.counter).map (.act i) := by
    simp only [label, h, Option.bind_some, Family.get_step ht, ht]
  have hget : (abstract c).threads[i]? = some t.counter := by simp [abstract, ht]
  rw [hlabel]
  rcases step_follows hs hI.nonneg htested with ⟨hsame, hcount⟩ | ⟨choice, hend, hact⟩
  · rw [hsame, Counter.ends_self]
    change abstract _ = abstract c
    simp only [abstract, hcount, List.append_nil, Family.map_set_self ht hsame]
  · rw [hend]
    refine (Program.act_next hget hact).trans ?_
    simp [abstract, List.map_set]

/-- The call that is thread `i` comes to its answer `r` with the step. -/
def Answers (p : Config Shared Thread × Label Choice) (i : Nat) (t : Thread) (r : Bool) : Prop :=
  ∃ e c' t', p.2 = .act i e ∧ semaphore.next p.1 p.2 = some c' ∧ p.1.threads[i]? = some t ∧ c'.threads[i]? = some t' ∧
    t.counter ≠ .answered r ∧ t'.counter = .answered r

/-- `spin_acquire` alone gives up while there are tokens. -/
structure Linearizable (count : Int) (tr : List (Config Shared Thread × Label Choice)) (c : Config Shared Thread) : Prop where
  refines : counter.Run (Counter.initial count) (Program.abstracted abstract label tr) (abstract c)
  acquires : ∀ p ∈ tr, ∀ i t, Answers p i t true → 0 < p.1.shared.count
  exhausted : ∀ p ∈ tr, ∀ i t, Answers p i t false → p.1.shared.count = 0 ∨ ∃ spins q, t = .spin spins q
  timed : ∀ p ∈ tr, ∀ i q, Answers p i (.wait q) false → ∃ r notified, q = .predicate r notified true

theorem Answers.step {p : Config Shared Thread × Label Choice} {t : Thread} {r : Bool} (h : Answers p i t r) :
    ∃ s' t', p.1.threads[i]? = some t ∧ t.Step p.1.shared s' t' ∧ t.counter ≠ .answered r ∧ t'.counter = .answered r := by
  obtain ⟨e, c', t', hl, hn, ht, ht', hne, hr⟩ := h
  rw [hl] at hn
  obtain ⟨u, s', u', new, hu, ha, rfl⟩ := Program.next_act hn
  cases ht.symm.trans hu
  cases ht'.symm.trans (Family.get_step ht u' new)
  exact ⟨s', t', ht, (act_step ha).2, hne, hr⟩

theorem Answers.counter {p : Config Shared Thread × Label Choice} {t : Thread} {r : Bool} (h : Answers p i t r)
    (hI : CounterInv p.1) : ∃ impatient, t.counter = .take impatient ∧ (r = true → 0 < p.1.shared.count) ∧
      (r = false → p.1.shared.count = 0 ∨ impatient = true) := by
  obtain ⟨s', t', ht, hs, hne, hr⟩ := h.step
  rcases step_follows hs hI.nonneg (hI.tested t (Family.mem_of_get ht)) with ⟨hsame, -⟩ | ⟨choice, -, hact⟩
  · exact absurd (hsame.symm.trans hr) hne
  · rw [hr] at hact
    obtain ⟨impatient, hi, htrue, hfalse⟩ := Counter.act_answered hact
    exact ⟨impatient, hi, fun h => (htrue h).1, fun h => (hfalse h).2⟩

theorem spin_of_impatient {t : Thread} (h : t.counter = .take true) : ∃ spins q, t = .spin spins q := by
  cases t with
  | spin spins q => exact ⟨spins, q, rfl⟩
  | wait q => cases q <;> cases h
  | release n q => cases q <;> cases h
  | _ => cases h

/-- A wait comes to answer false only after it has timed out. -/
theorem WaitPhase.Step.timed {s s' : Shared} {q q' : WaitPhase} (h : q.Step s s' q') (hne : q.counter ≠ .answered false)
    (hr : q'.counter = .answered false) : ∃ r notified, q = .predicate r notified true := by
  cases h with
  | @first s' p r h | @second s' p r h =>
    cases r with
    | inl r => cases r <;> cases hr
    | inr q => cases hr
  | @predicate s' p r notified late h =>
    cases r with
    | inl r =>
      cases r with
      | false =>
        cases late with
        | false => cases hr
        | true => exact ⟨p, notified, rfl⟩
      | true => cases hr
    | inr q => cases hr
  | leaves r | unlocks r => exact absurd hr hne
  | _ => cases hr

theorem run_counter (h0 : 0 ≤ count) (h : semaphore.Run (initial count) tr c) : CounterInv c ∧
    counter.Run (Counter.initial count) (Program.abstracted abstract label tr) (abstract c) := by
  change CounterInv c ∧ counter.Run (abstract (initial count)) _ _
  refine h.simulated (C := fun _ _ => True) ⟨h0, by simp [initial]⟩ (fun c l c' hI _ hn => ?_)
    Program.along_true
  cases l with
  | call e => exact call_counter hI hn
  | act i e => exact act_counter hI hn

/-- **The semaphore is a counter**, in every run. -/
theorem run_counts (h0 : 0 ≤ count) (h : semaphore.Run (initial count) tr c) : Linearizable count tr c := by
  have hinv : ∀ p ∈ tr, CounterInv p.1 := fun p hp => by
    obtain ⟨before, -, hr, -⟩ := h.before hp
    exact (run_counter h0 hr).1
  refine ⟨(run_counter h0 h).2, fun p hp i t ha => ?_, fun p hp i t ha => ?_, fun p hp i q ha => ?_⟩
  · obtain ⟨-, -, htrue, -⟩ := ha.counter (hinv p hp)
    exact htrue rfl
  · obtain ⟨impatient, ht, -, hfalse⟩ := ha.counter (hinv p hp)
    refine (hfalse rfl).imp_right fun him => ?_
    subst him
    exact spin_of_impatient ht
  · obtain ⟨s', t', -, hs, hne, hr⟩ := ha.step
    cases hs with
    | waits hs => exact hs.timed hne hr

end

/-- The only token is taken, and a wait for one times out. -/
def takenOnce : List (Label Choice) :=
  [.call .tryAcquire, .act 0 .step, .act 0 .step, .call .wait] ++ List.replicate 6 (.act 1 .step) ++ .act 1 .timeout ::
    List.replicate 4 (.act 1 .step)

theorem run_counts_takenOnce :
    Linearizable 1 (semaphore.path (initial 1) takenOnce) (semaphore.last (initial 1) takenOnce) ∧
      (semaphore.last (initial 1) takenOnce).threads = [.tried true, .wait (.returned false)] :=
  ⟨run_counts (by decide) (Program.run_last (by decide)), by decide⟩

end Xdispatch.Semaphore
