import Xdispatch.ConcurrentQueue.Producers

/-!
# Delivery

A call of `dequeue` counts itself in `dequeueOptimisticCount` and looks at the
tail again before it takes an index, and one that then finds nothing counts itself
in `dequeueOvercommit`. So the optimistic count is the indices taken, the calls that
gave up, and those that have still to decide. A count that passes the second test
leaves room below the tail for everybody counted before it, whatever the others
read: that is what keeps the head behind the tail, and every index that is taken is
one of an element that has been published.
-/

namespace Xdispatch.ConcurrentQueue

variable {α : Type}

/-! ## The calls at one producer -/

/-- Where a call is at producer `p`. One that has returned stays at the index it took. -/
def DequeuePhase.on (p : Nat) : DequeuePhase α → Option Attempt
  | .tryBest q b | .tryOther _ q b => if q = p then some b else none
  | .returned (some (q, i, _)) => if q = p then some (.move i) else none
  | _ => none

def Thread.on (p : Nat) : Thread α → Option Attempt
  | .dequeue ph => ph.on p
  | .enqueue .. => none

def Attempt.after (s : Shared α) (p : Nat) (b : Attempt) : Option Attempt :=
  match (b.act s p).2 with
  | .inl b' => some b'
  | .inr none => none
  | .inr (some (i, _)) => some (.move i)

def Thread.publishing (p : Nat) : Thread α → Nat
  | .enqueue _ _ (.publish q) => if q = p then 1 else 0
  | _ => 0

/-- A step of a thread does nothing to producer `p`, is a step of an attempt there, or one of its
owner. -/
inductive At (s : Shared α) (p : Nat) (t : Thread α) (s' : Shared α) (t' : Thread α) : Prop
  | quiet : s'.producers p = s.producers p ∨ (∃ next, s'.producers p = { s.producers p with next := next }) →
    (t'.on p = t.on p ∨ t.on p = none ∧ t'.on p = some .loadTail) → t'.publishing p = t.publishing p → At s p t s' t'
  | attempt {b : Attempt} : t.on p = some b → t'.on p = b.after s p →
    s'.producers p = (b.act s p).1.producers p → t.publishing p = 0 → t'.publishing p = 0 → At s p t s' t'
  | create {id : Nat} : s'.producers p = .new id → p = s.size → t.on p = none → t'.on p = none → t.publishing p = 0 →
    t'.publishing p = 0 → At s p t s' t'
  | construct {a : α} : s'.producers p = { s.producers p with elements := (s.producers p).elements ++ [a] } →
    t.on p = none → t'.on p = none → t.publishing p = 0 → t'.publishing p = 1 → At s p t s' t'
  | publish : s'.producers p = { s.producers p with tailIndex := (s.producers p).tailIndex + 1 } →
    t.on p = none → t'.on p = none → t.publishing p = 1 → t'.publishing p = 0 → At s p t s' t'

section
variable {s s' : Shared α} {p : Nat} {t t' : Thread α}

theorem Attempt.act_producers (s : Shared α) (q : Nat) (b : Attempt) (h : q ≠ p) :
    (b.act s q).1.producers p = s.producers p := by
  cases b <;> first | rfl | exact Function.update_of_ne h.symm ..

theorem Scores.on_chosen (sc : Scores) :
    (sc.chosen : DequeuePhase α).on p = none ∨ (sc.chosen : DequeuePhase α).on p = some .loadTail := by
  unfold Scores.chosen
  split
  · split
    · simp only [DequeuePhase.on]
      split <;> simp
    · exact Or.inl rfl
  · exact Or.inl rfl

theorem Scores.on_loop (sc : Scores) (ptr : Option Nat) :
    (sc.loop ptr : DequeuePhase α).on p = none ∨ (sc.loop ptr : DequeuePhase α).on p = some .loadTail := by
  cases ptr with
  | none => exact sc.on_chosen
  | some q =>
    by_cases h3 : sc.nonEmptyCount < 3
    · simp only [Scores.loop, if_pos h3]
      exact Or.inl rfl
    · simp only [Scores.loop, if_neg h3]
      exact sc.on_chosen

/-- Where an attempt at `q` goes on: at `ph'`, which is what the attempt comes to. -/
theorem at_attempt {ph ph' : DequeuePhase α} {q : Nat} {b : Attempt}
    (h : ∀ p, ph.on p = if q = p then some b else none)
    (h' : ∀ p, ph'.on p = if q = p then b.after s q else none) :
    At s p (.dequeue ph) (b.act s q).1 (.dequeue ph') := by
  by_cases hq : q = p
  · subst hq
    exact .attempt (b := b) (by simp [Thread.on, h]) (by simp [Thread.on, h']) rfl rfl rfl
  · exact .quiet (Or.inl (Attempt.act_producers s q b hq)) (Or.inl (by simp [Thread.on, h, h', hq])) rfl

theorem Moves.at (hm : Moves s t s' t') (p : Nat) : At s p t s' t' := by
  cases hm with
  | @enqueue id a ph ph' _ h =>
    cases h with
    | found | loadTail | push | retry => exact .quiet (Or.inl rfl) (Or.inl rfl) rfl
    | create =>
      by_cases hp : p = s.size
      · subst hp
        exact .create (Function.update_self ..) rfl rfl rfl rfl rfl
      · exact .quiet (Or.inl (Function.update_of_ne hp ..)) (Or.inl rfl) rfl
    | @link q prev =>
      by_cases hp : p = q
      · subst hp
        exact .quiet (Or.inr ⟨prev, Function.update_self ..⟩) (Or.inl rfl) rfl
      · exact .quiet (Or.inl (Function.update_of_ne hp ..)) (Or.inl rfl) rfl
    | @construct q =>
      by_cases hp : p = q
      · subst hp
        exact .construct (Function.update_self ..) rfl rfl rfl (if_pos rfl)
      · exact .quiet (Or.inl (Function.update_of_ne hp ..)) (Or.inl rfl) (if_neg (Ne.symm hp))
    | @publish q =>
      by_cases hp : p = q
      · subst hp
        exact .publish (Function.update_self ..) rfl rfl (if_pos rfl) rfl
      · exact .quiet (Or.inl (Function.update_of_ne hp ..)) (Or.inl rfl) (if_neg (Ne.symm hp)).symm
  | @dequeue ph ph' _ h =>
    have quiet : s' = s → ph.on p = none → (ph'.on p = none ∨ ph'.on p = some .loadTail) →
        At s p (.dequeue ph) s' (.dequeue ph') := by
      rintro rfl h0 (h1 | h1)
      · exact .quiet (Or.inl rfl) (Or.inl (h1.trans h0.symm)) rfl
      · exact .quiet (Or.inl rfl) (Or.inr ⟨h0, h1⟩) rfl
    cases h with
    | loadList | sizeHead => exact quiet rfl rfl (Scores.on_loop ..)
    | sizeTail | loadAgain | exhausted | skip => exact quiet rfl rfl (Or.inl rfl)
    | @visit best q =>
      refine quiet rfl rfl ?_
      simp only [DequeuePhase.on]
      split <;> simp
    | tryBest hb | tryOther hb | bestFailed hb | otherFailed hb | bestTaken hb | otherTaken hb =>
      exact at_attempt (fun _ => rfl) fun _ => by simp [DequeuePhase.on, Attempt.after, hb]

end

/-! ## The counters -/

namespace Attempt

def undecided : Attempt → Nat
  | .reloadTail .. => 1
  | _ => 0

def claiming : Attempt → Nat
  | .claim => 1
  | _ => 0

def failing : Attempt → Nat
  | .overcommit => 1
  | _ => 0

/-- A call that would take an index if it found the tail at `n`. -/
def below (n : Nat) : Attempt → Nat
  | .reloadTail overcommitted count => if count - overcommitted < n then 1 else 0
  | _ => 0

def takes (i : Nat) : Attempt → Nat
  | .move j => if j = i then 1 else 0
  | _ => 0

/-- The overcommit that a call has read. -/
def overcommitRead : Attempt → Option Nat
  | .loadOptimistic _ overcommitted | .increment overcommitted | .reloadTail overcommitted _ => some overcommitted
  | _ => none

theorem below_le (n : Nat) (b : Attempt) : b.below n ≤ b.undecided := by
  cases b with
  | reloadTail =>
    simp only [below, undecided]
    split <;> omega
  | _ => exact Nat.le_refl 0

end Attempt

def Thread.weight (f : Attempt → Nat) (p : Nat) (t : Thread α) : Nat := (t.on p).elim 0 f

def calls (f : Attempt → Nat) (p : Nat) (c : Config (Shared α) (Thread α)) : Nat :=
  Family.total (Thread.weight f p) c.threads

structure Balanced (c : Config (Shared α) (Thread α)) (p : Nat) : Prop where
  count : (c.shared.producers p).dequeueOptimisticCount = (c.shared.producers p).headIndex +
    (c.shared.producers p).dequeueOvercommit + calls Attempt.undecided p c + calls Attempt.claiming p c +
    calls Attempt.failing p c
  room : ∀ n, (c.shared.producers p).tailIndex ≤ n →
    (c.shared.producers p).headIndex + calls Attempt.claiming p c + calls (Attempt.below n) p c ≤ n
  taken : ∀ i, calls (Attempt.takes i) p c = if i < (c.shared.producers p).headIndex then 1 else 0
  stale : ∀ t ∈ c.threads, ∀ b ∈ t.on p, ∀ k ∈ b.overcommitRead, k ≤ (c.shared.producers p).dequeueOvercommit
  slots : (c.shared.producers p).elements.length =
    (c.shared.producers p).tailIndex + Family.total (Thread.publishing p) c.threads

section
variable {c : Config (Shared α) (Thread α)} {s' : Shared α} {i p : Nat} {t t' : Thread α}

theorem calls_set (hi : c.threads[i]? = some t) (s' : Shared α) (t' : Thread α) (p : Nat) (f : Attempt → Nat) :
    calls f p ⟨s', c.threads.set i t' ++ []⟩ + t.weight f p = calls f p c + t'.weight f p := by
  rw [List.append_nil]
  exact Family.total_set _ hi t'

theorem weight_some {f : Attempt → Nat} {b : Attempt} (h : t.on p = some b) : t.weight f p = f b := by
  rw [Thread.weight, h]
  rfl

theorem weight_none {f : Attempt → Nat} (h : t.on p = none) : t.weight f p = 0 := by
  rw [Thread.weight, h]
  rfl

/-- The weights that the counters are compared with. -/
inductive Attempt.Weighs : (Attempt → Nat) → Prop
  | undecided : Weighs undecided
  | claiming : Weighs claiming
  | failing : Weighs failing
  | below (n : Nat) : Weighs (below n)
  | takes (i : Nat) : Weighs (takes i)

/-- A step after which the calls at `p` weigh what they did. -/
theorem Balanced.same (hB : Balanced c p) (hi : c.threads[i]? = some t)
    (hw : ∀ f, Attempt.Weighs f → t'.weight f p = t.weight f p)
    (hread : ∀ b ∈ t'.on p, ∀ k ∈ b.overcommitRead, k ≤ (c.shared.producers p).dequeueOvercommit)
    (hopt : (s'.producers p).dequeueOptimisticCount = (c.shared.producers p).dequeueOptimisticCount)
    (hhead : (s'.producers p).headIndex = (c.shared.producers p).headIndex)
    (hover : (s'.producers p).dequeueOvercommit = (c.shared.producers p).dequeueOvercommit)
    (htail : (c.shared.producers p).tailIndex ≤ (s'.producers p).tailIndex)
    (hslots : (s'.producers p).elements.length + (c.shared.producers p).tailIndex + t.publishing p =
      (c.shared.producers p).elements.length + (s'.producers p).tailIndex + t'.publishing p) :
    Balanced ⟨s', c.threads.set i t' ++ []⟩ p := by
  have hw : ∀ f, Attempt.Weighs f → calls f p ⟨s', c.threads.set i t' ++ []⟩ = calls f p c := by
    intro f hf
    have h1 := calls_set hi s' t' p f
    rw [hw f hf] at h1
    exact Nat.add_right_cancel h1
  have hpub := Family.total_set (Thread.publishing p) hi t'
  refine ⟨?_, fun n hn => ?_, fun j => ?_, fun u hu b hb k ho => ?_, ?_⟩
  · rw [hw _ .undecided, hw _ .claiming, hw _ .failing, hopt, hhead, hover]
    exact hB.count
  · rw [hw _ .claiming, hw _ (.below n), hhead]
    exact hB.room n (htail.trans hn)
  · rw [hw _ (.takes j), hhead]
    exact hB.taken j
  · rw [hover]
    rcases Family.step_cases hi hu with rfl | hu | ⟨j, _, hu⟩
    · exact hread b hb k ho
    · cases hu
    · exact hB.stale u (Family.mem_of_get hu) b hb k ho
  · have := hB.slots
    simp only [List.append_nil]
    omega

theorem Balanced.read (hB : Balanced c p) (hi : c.threads[i]? = some t) {b : Attempt} (hb : t.on p = some b) :
    ∀ k ∈ b.overcommitRead, k ≤ (c.shared.producers p).dequeueOvercommit :=
  hB.stale t (Family.mem_of_get hi) b hb

theorem Attempt.after_loadOptimistic {s : Shared α} {tail overcommitted : Nat} :
    (Attempt.loadOptimistic tail overcommitted).after s p =
      if (s.producers p).dequeueOptimisticCount - overcommitted < tail then some (.increment overcommitted) else none := by
  by_cases h : (s.producers p).dequeueOptimisticCount - overcommitted < tail <;> simp [Attempt.after, Attempt.act, h]

theorem Attempt.after_reloadTail {s : Shared α} {overcommitted count : Nat} :
    (Attempt.reloadTail overcommitted count).after s p =
      some (if count - overcommitted < (s.producers p).tailIndex then .claim else .overcommit) := by
  simp [Attempt.after, Attempt.act]

/-- A call that reads without counting itself anywhere. -/
theorem Balanced.reads (hB : Balanced c p) (hi : c.threads[i]? = some t) {b : Attempt} {b' : Option Attempt}
    (hb : t.on p = some b) (hb' : t'.on p = b') (hs : s'.producers p = c.shared.producers p)
    (hpub : t'.publishing p = t.publishing p) (hw : ∀ f, Attempt.Weighs f → b'.elim 0 f = f b)
    (hread : ∀ b ∈ b', ∀ k ∈ b.overcommitRead, k ≤ (c.shared.producers p).dequeueOvercommit) :
    Balanced ⟨s', c.threads.set i t' ++ []⟩ p := by
  refine hB.same hi (fun f hf => ?_) (hb' ▸ hread) ?_ ?_ ?_ ?_ ?_
  · rw [weight_some hb, Thread.weight, hb']
    exact hw f hf
  all_goals rw [hs]
  omega

theorem Balanced.below_le (hB : Balanced c p) (n : Nat) :
    calls (Attempt.below n) p c + (c.shared.producers p).headIndex + calls Attempt.claiming p c ≤
      (c.shared.producers p).dequeueOptimisticCount - (c.shared.producers p).dequeueOvercommit := by
  have h : calls (Attempt.below n) p c ≤ calls Attempt.undecided p c := by
    refine Family.total_le_total fun u _ => ?_
    cases hu : u.on p with
    | none => rw [weight_none hu, weight_none hu]
    | some b =>
      rw [weight_some hu, weight_some hu]
      exact b.below_le n
  have := hB.count
  omega

theorem stale_step {b' : Option Attempt} (hB : Balanced c p) (hi : c.threads[i]? = some t) (hon' : t'.on p = b')
    (hle : (c.shared.producers p).dequeueOvercommit ≤ (s'.producers p).dequeueOvercommit)
    (hb' : ∀ b ∈ b', ∀ k ∈ b.overcommitRead, k ≤ (s'.producers p).dequeueOvercommit) :
    ∀ u ∈ c.threads.set i t' ++ [], ∀ b ∈ u.on p, ∀ k ∈ b.overcommitRead,
      k ≤ (s'.producers p).dequeueOvercommit := by
  intro u hu b hb k ho
  rcases Family.step_cases hi hu with rfl | hu | ⟨j, _, hu⟩
  · rw [hon'] at hb
    exact hb' b hb k ho
  · cases hu
  · exact (hB.stale u (Family.mem_of_get hu) b hb k ho).trans hle

theorem Balanced.attempt (hB : Balanced c p) (hi : c.threads[i]? = some t) {b : Attempt} (hb : t.on p = some b)
    (hb' : t'.on p = b.after c.shared p) (hs : s'.producers p = (b.act c.shared p).1.producers p)
    (hpub : t.publishing p = 0) (hpub' : t'.publishing p = 0) : Balanced ⟨s', c.threads.set i t' ++ []⟩ p := by
  have hw : ∀ f, calls f p ⟨s', c.threads.set i t' ++ []⟩ + f b = calls f p c + (b.after c.shared p).elim 0 f := by
    intro f
    have := calls_set hi s' t' p f
    rwa [weight_some hb, Thread.weight, hb'] at this
  have hslots : (c.shared.producers p).elements.length =
      (c.shared.producers p).tailIndex + Family.total (Thread.publishing p) (c.threads.set i t' ++ []) := by
    have h1 := Family.total_set (Thread.publishing p) hi t'
    have h2 := hB.slots
    rw [List.append_nil]
    omega
  have hread := hB.read hi hb
  have hcount := hB.count
  have htaken := hB.taken
  have hp := hpub'.trans hpub.symm
  have hU := hw Attempt.undecided
  have hC := hw Attempt.claiming
  have hF := hw Attempt.failing
  have hN (n : Nat) := hw (Attempt.below n)
  have hT (j : Nat) := hw (Attempt.takes j)
  cases b with
  | loadTail | loadOvercommit =>
    refine hB.reads hi hb hb' hs hp (fun f hf => by cases hf <;> rfl) fun b' hm k ho => ?_
    cases hm
    cases ho <;> exact Nat.le_refl _
  | loadOptimistic tail overcommitted =>
    rw [Attempt.after_loadOptimistic] at hb'
    split at hb'
    · refine hB.reads hi hb hb' hs hp (fun f hf => by cases hf <;> rfl) fun b' hm k ho => hread k ?_
      cases hm
      exact ho
    · exact hB.reads hi hb hb' hs hp (fun f hf => by cases hf <;> rfl) (by simp)
  | increment overcommitted =>
    have hover := hread overcommitted rfl
    simp only [Attempt.act, Shared.modify, Function.update_self] at hs
    simp only [Attempt.after, Attempt.act, Option.elim_some, Attempt.undecided, Attempt.claiming, Attempt.failing,
      Attempt.below, Attempt.takes] at hU hC hF hN hT
    refine ⟨?_, fun n hn => ?_, fun j => ?_, stale_step hB hi hb' ?_ fun b' hm k ho => ?_, ?_⟩ <;> simp only [hs] at *
    · omega
    · -- whoever is counted already would be below what this call has read
      have h1 := hB.below_le n
      have h2 := hB.room n hn
      have h3 := hN n
      split at h3 <;> omega
    · rw [← htaken j]
      exact hT j
    · exact Nat.le_refl _
    · cases hm
      cases ho
      exact hover
    · exact hslots
  | reloadTail overcommitted count =>
    replace hs : s'.producers p = c.shared.producers p := hs
    by_cases hlt : count - overcommitted < (c.shared.producers p).tailIndex
    · rw [Attempt.after_reloadTail, if_pos hlt] at hb'
      simp only [Attempt.after_reloadTail, if_pos hlt, Option.elim_some, Attempt.undecided, Attempt.claiming,
        Attempt.failing, Attempt.below, Attempt.takes] at hU hC hF hN hT
      refine ⟨?_, fun n hn => ?_, fun j => ?_, stale_step hB hi hb' ?_ fun b' hm k ho => ?_, ?_⟩ <;> simp only [hs] at *
      · omega
      · have h1 := hB.room n hn
        have h2 := hN n
        rw [if_pos (by omega)] at h2
        omega
      · rw [← htaken j]
        exact hT j
      · exact Nat.le_refl _
      · cases hm
        cases ho
      · exact hslots
    · rw [Attempt.after_reloadTail, if_neg hlt] at hb'
      simp only [Attempt.after_reloadTail, if_neg hlt, Option.elim_some, Attempt.undecided, Attempt.claiming,
        Attempt.failing, Attempt.below, Attempt.takes] at hU hC hF hN hT
      refine ⟨?_, fun n hn => ?_, fun j => ?_, stale_step hB hi hb' ?_ fun b' hm k ho => ?_, ?_⟩ <;> simp only [hs] at *
      · omega
      · have h1 := hB.room n hn
        have h2 := hN n
        omega
      · rw [← htaken j]
        exact hT j
      · exact Nat.le_refl _
      · cases hm
        cases ho
      · exact hslots
  | claim =>
    simp only [Attempt.act, Shared.modify, Function.update_self] at hs
    simp only [Attempt.after, Attempt.act, Option.elim_some, Attempt.undecided, Attempt.claiming, Attempt.failing,
      Attempt.below, Attempt.takes] at hU hC hF hN hT
    refine ⟨?_, fun n hn => ?_, fun j => ?_, stale_step hB hi hb' ?_ fun b' hm k ho => ?_, ?_⟩ <;> simp only [hs] at *
    · omega
    · have h1 := hB.room n hn
      have h2 := hN n
      omega
    · have h1 := hT j
      have h2 := htaken j
      split at h1 <;> split at h2 <;> split <;> omega
    · exact Nat.le_refl _
    · cases hm
      cases ho
    · exact hslots
  | overcommit =>
    simp only [Attempt.act, Shared.modify, Function.update_self] at hs
    simp only [Attempt.after, Attempt.act, Option.elim_none, Attempt.undecided, Attempt.claiming, Attempt.failing,
      Attempt.below, Attempt.takes] at hU hC hF hN hT
    refine ⟨?_, fun n hn => ?_, fun j => ?_, stale_step hB hi hb' ?_ fun b' hm k ho => ?_, ?_⟩ <;> simp only [hs] at *
    · omega
    · have h1 := hB.room n hn
      have h2 := hN n
      omega
    · rw [← htaken j]
      exact hT j
    · exact Nat.le_succ _
    · cases hm
    · exact hslots
  | move j => exact hB.reads hi hb hb' hs hp (fun f hf => by cases hf <;> rfl) (fun b' hm k ho => by cases hm; cases ho)

theorem Balanced.act (hB : Balanced c p) (hi : c.threads[i]? = some t) (hfree : p = c.shared.size → ∀ u ∈ c.threads,
    u.on p = none ∧ u.publishing p = 0) (h : At c.shared p t s' t') : Balanced ⟨s', c.threads.set i t' ++ []⟩ p := by
  have hnone : ∀ {u : Option Attempt}, u = none → ∀ b ∈ u, ∀ k ∈ b.overcommitRead,
      k ≤ (c.shared.producers p).dequeueOvercommit := by
    rintro _ rfl b hb
    cases hb
  have hidle : t.on p = none → t'.on p = none → ∀ f, Attempt.Weighs f → t'.weight f p = t.weight f p :=
    fun h0 h1 f _ => (weight_none h1).trans (weight_none h0).symm
  cases h with
  | attempt hb hb' hs hpub hpub' => exact hB.attempt hi hb hb' hs hpub hpub'
  | quiet hs hon hpub =>
    have hs' : (s'.producers p).dequeueOptimisticCount = (c.shared.producers p).dequeueOptimisticCount ∧
        (s'.producers p).headIndex = (c.shared.producers p).headIndex ∧
        (s'.producers p).dequeueOvercommit = (c.shared.producers p).dequeueOvercommit ∧
        (s'.producers p).tailIndex = (c.shared.producers p).tailIndex ∧
        (s'.producers p).elements = (c.shared.producers p).elements := by
      rcases hs with hs | ⟨next, hs⟩ <;> rw [hs] <;> exact ⟨rfl, rfl, rfl, rfl, rfl⟩
    obtain ⟨hopt, hhead, hover, htail, hel⟩ := hs'
    refine hB.same hi (fun f hf => ?_) ?_ hopt hhead hover (Nat.le_of_eq htail.symm) (by rw [hel, htail, hpub])
    · rcases hon with h | ⟨h0, h1⟩
      · simp only [Thread.weight, h]
      · rw [weight_none h0, weight_some h1]
        cases hf <;> rfl
    · rcases hon with h | ⟨h0, h1⟩
      · rw [h]
        exact fun b hb => hB.read hi hb
      · rw [h1]
        intro b hb k ho
        cases hb
        cases ho
  | create hs hp hon hon' hpub hpub' =>
    have hfree := hfree hp
    have hz : ∀ u ∈ c.threads.set i t' ++ [], u.on p = none ∧ u.publishing p = 0 :=
      Family.forall_step hfree ⟨hon', hpub'⟩ (by simp)
    have hzero : ∀ f, calls f p ⟨s', c.threads.set i t' ++ []⟩ = 0 := fun f =>
      Family.total_eq_zero.mpr fun u hu => weight_none (hz u hu).1
    refine ⟨?_, fun n _ => ?_, fun j => ?_, fun u hu b hb => ?_, ?_⟩
    · simp only [hzero, hs, Producer.new]
    · simp only [hzero, hs, Producer.new]
      omega
    · simp only [hzero, hs, Producer.new, Nat.not_lt_zero, if_false]
    · rw [(hz u hu).1] at hb
      cases hb
    · rw [Family.total_eq_zero.mpr fun u hu => (hz u hu).2, hs]
      rfl
  | construct hs hon hon' hpub hpub' =>
    refine hB.same hi (hidle hon hon') (hnone hon') ?_ ?_ ?_ ?_ ?_ <;> rw [hs]
    simp only [List.length_append, List.length_singleton]
    omega
  | publish hs hon hon' hpub hpub' =>
    refine hB.same hi (hidle hon hon') (hnone hon') ?_ ?_ ?_ ?_ ?_ <;> rw [hs]
    · exact Nat.le_succ _
    · simp only []
      omega

theorem Balanced.call (hB : Balanced c p) {e : Choice α} {new : List (Thread α)}
    (h : ConcurrentQueue.call c.shared e = some (s', new)) : Balanced ⟨s', c.threads ++ new⟩ p := by
  have hnew : s'.producers = c.shared.producers ∧ ∀ u ∈ new, u.on p = none ∧ u.publishing p = 0 := by
    cases e with
    | enqueue id a =>
      simp only [ConcurrentQueue.call, Option.ite_none_left_eq_some] at h
      obtain ⟨-, h⟩ := h
      cases h
      exact ⟨rfl, by simp [Thread.on, Thread.publishing]⟩
    | dequeue =>
      cases h
      exact ⟨rfl, by simp [Thread.on, Thread.publishing, DequeuePhase.on]⟩
    | step | spurious => cases h
  obtain ⟨hs, hnew⟩ := hnew
  have hw : ∀ f, calls f p ⟨s', c.threads ++ new⟩ = calls f p c := fun f =>
    Family.total_append_zero _ fun u hu => weight_none (hnew u hu).1
  have hpub := Family.total_append_zero (f := Thread.publishing p) c.threads fun u hu => (hnew u hu).2
  refine ⟨?_, fun n hn => ?_, fun j => ?_, Family.forall_append ?_ fun u hu b hb => ?_, ?_⟩
  · simp only [hs, hw]
    exact hB.count
  · simp only [hs, hw] at hn ⊢
    exact hB.room n hn
  · simp only [hs, hw]
    exact hB.taken j
  · simp only [hs]
    exact hB.stale
  · rw [(hnew u hu).1] at hb
    cases hb
  · simp only [hs, hpub]
    exact hB.slots

theorem Balanced.head_le (hB : Balanced c p) :
    (c.shared.producers p).headIndex + calls Attempt.claiming p c ≤ (c.shared.producers p).tailIndex := by
  have := hB.room _ (Nat.le_refl _)
  omega

theorem Listed.mem_on {l : List Nat} (hL : Listed c l) {u : Thread α} (hu : u ∈ c.threads) {b : Attempt}
    (hb : u.on p = some b) : p ∈ l := by
  have hf := hL.fits u hu
  cases u with
  | enqueue => cases hb
  | dequeue ph =>
    cases ph with
    | tryBest q | tryOther _ q =>
      obtain ⟨rfl, _⟩ := Option.ite_none_right_eq_some.mp hb
      exact hf
    | returned r =>
      cases r with
      | none => cases hb
      | some r =>
        obtain ⟨rfl, _⟩ := Option.ite_none_right_eq_some.mp hb
        exact hf r rfl
    | _ => cases hb

theorem Listed.free {l : List Nat} (hL : Listed c l) {u : Thread α} (hu : u ∈ c.threads) :
    u.on c.shared.size = none ∧ u.publishing c.shared.size = 0 := by
  have hne : ∀ q, q ∈ l → q ≠ c.shared.size := fun q hq => Nat.ne_of_lt (hL.made q hq)
  constructor
  · cases h : u.on c.shared.size with
    | none => rfl
    | some b => exact absurd rfl (hne _ (hL.mem_on hu h))
  · have hf := hL.fits u hu
    cases u with
    | dequeue => rfl
    | enqueue id a ph =>
      cases ph with
      | publish q => exact if_neg (hne q hf.1)
      | _ => rfl

theorem balanced_initial : Balanced (initial : Config (Shared α) (Thread α)) p :=
  ⟨rfl, fun _ _ => by simp [initial, calls, Producer.new], fun _ => by simp [initial, calls, Producer.new], by simp [initial],
    rfl⟩

end

/-! ## What is delivered -/

/-- What a call of thread `id` has put in its slot. -/
def Thread.constructed (id : Nat) : Thread α → Option α
  | .enqueue id' a (.publish _) | .enqueue id' a .returned => if id' = id then some a else none
  | _ => none

/-- The elements of the sub-queue of thread `id`, the ones that have been taken too. -/
def Shared.contents (s : Shared α) (id : Nat) : List α :=
  match s.find id with
  | some p => (s.producers p).elements
  | none => []

section
variable {β γ : Type} {f : β → Option γ}

theorem filterMap_set_same : ∀ {l : List β} {i : Nat} {a b : β}, l[i]? = some a → f b = f a →
    (l.set i b).filterMap f = l.filterMap f
  | [], _, _, _, h, _ => by simp at h
  | x :: l, 0, a, b, h, hf => by
    rw [List.getElem?_cons_zero, Option.some.injEq] at h
    subst h
    simp only [List.set_cons_zero, List.filterMap_cons, hf]
  | x :: l, i + 1, a, b, h, hf => by
    rw [List.getElem?_cons_succ] at h
    simp only [List.set_cons_succ, List.filterMap_cons, filterMap_set_same h hf]

/-- The last member that contributes. -/
theorem filterMap_set_last {y : γ} : ∀ {l : List β} {i : Nat} {a b : β}, l[i]? = some a → f a = none → f b = some y →
    (∀ j x, i < j → l[j]? = some x → f x = none) → (l.set i b).filterMap f = l.filterMap f ++ [y]
  | [], _, _, _, h, _, _, _ => by simp at h
  | x :: l, 0, a, b, h, ha, hb, hl => by
    rw [List.getElem?_cons_zero, Option.some.injEq] at h
    subst h
    have : l.filterMap f = [] := by
      refine List.filterMap_eq_nil_iff.mpr fun x hx => ?_
      obtain ⟨j, hj⟩ := List.mem_iff_getElem?.mp hx
      exact hl (j + 1) x (Nat.succ_pos j) hj
    simp only [List.set_cons_zero, List.filterMap_cons, ha, hb, this, List.nil_append]
  | x :: l, i + 1, a, b, h, ha, hb, hl => by
    rw [List.getElem?_cons_succ] at h
    have ih := filterMap_set_last h ha hb fun j x hj hx => hl (j + 1) x (Nat.succ_lt_succ hj) hx
    simp only [List.set_cons_succ, List.filterMap_cons, ih]
    cases f x <;> rfl

end

structure Delivered (c : Config (Shared α) (Thread α)) : Prop where
  order : ∀ id, c.shared.contents id = c.threads.filterMap (Thread.constructed id)
  head_le : ∀ p, (c.shared.producers p).headIndex ≤ (c.shared.producers p).tailIndex
  slots : ∀ p, (c.shared.producers p).elements.length =
    (c.shared.producers p).tailIndex + Family.total (Thread.publishing p) c.threads
  taken : ∀ p i, calls (Attempt.takes i) p c = if i < (c.shared.producers p).headIndex then 1 else 0
  values : ∀ p i v, .dequeue (.returned (some (p, i, v))) ∈ c.threads →
    ∃ a, v = some a ∧ (c.shared.producers p).elements[i]? = some a

section
variable {c : Config (Shared α) (Thread α)} {l l' : List Nat} {s s' : Shared α} {i p : Nat} {t t' : Thread α}

theorem contents_eq (hL : Listed c l) (hp : p < c.shared.size) :
    c.shared.contents (c.shared.producers p).owner = (c.shared.producers p).elements := by
  unfold Shared.contents
  cases h : c.shared.find (c.shared.producers p).owner with
  | none => exact absurd rfl (Shared.find_none h hp)
  | some q =>
    obtain ⟨hq, ho⟩ := Shared.find_some h
    rw [hL.owners q p hq hp ho]

theorem contents_nil {id : Nat} (h : ∀ p, p < s.size → (s.producers p).owner ≠ id) : s.contents id = [] := by
  unfold Shared.contents
  cases hf : s.find id with
  | none => rfl
  | some q =>
    obtain ⟨hq, ho⟩ := Shared.find_some hf
    exact absurd ho (h q hq)

theorem contents_congr (hs : s'.size = s.size) (ho : ∀ p, (s'.producers p).owner = (s.producers p).owner)
    (he : ∀ p, (s'.producers p).elements = (s.producers p).elements) (id : Nat) : s'.contents id = s.contents id := by
  simp only [Shared.contents, Shared.find, hs, ho, he]

theorem contents_create {id : Nat} (hL : Listed c l) (hL' : Listed ⟨c.shared.create id, c.threads.set i t' ++ []⟩ l')
    (h : c.shared.find id = none) (id' : Nat) : (c.shared.create id).contents id' = c.shared.contents id' := by
  have hold : ∀ q, q < c.shared.size → (c.shared.create id).producers q = c.shared.producers q := fun q hq =>
    Function.update_of_ne (Nat.ne_of_lt hq) ..
  have hnew : (c.shared.create id).producers c.shared.size = .new id := Function.update_self ..
  by_cases hid : id' = id
  · subst hid
    have h1 := contents_eq hL' (Nat.lt_succ_self c.shared.size)
    simp only [hnew] at h1
    rw [contents_nil fun q hq => Shared.find_none h hq]
    exact h1
  · cases hf : c.shared.find id' with
    | some q =>
      obtain ⟨hq, rfl⟩ := Shared.find_some hf
      have h1 := contents_eq hL' (hq.trans (Nat.lt_succ_self _))
      simp only [hold q hq] at h1
      rw [h1, contents_eq hL hq]
    | none =>
      rw [contents_nil fun q hq => Shared.find_none hf hq, contents_nil fun q hq => ?_]
      rcases Nat.lt_succ_iff_lt_or_eq.mp hq with hq | rfl
      · rw [hold q hq]
        exact Shared.find_none hf hq
      · rw [hnew]
        exact Ne.symm hid

theorem modify_same {β : Type} (g : Producer α → β) {f : Producer α → Producer α} {q : Nat}
    (hf : g (f (s.producers q)) = g (s.producers q)) (p : Nat) : g ((s.modify q f).producers p) = g (s.producers p) := by
  simp only [Shared.modify, Function.update_apply]
  split
  · next h => rw [h, hf]
  · rfl

/-- An attempt changes nothing but the counters. -/
theorem Attempt.act_same {β : Type} (g : Producer α → β) (hg : ∀ (x : Producer α) (head optimistic overcommit : Nat),
    g { x with headIndex := head, dequeueOptimisticCount := optimistic, dequeueOvercommit := overcommit } = g x)
    (s : Shared α) (q : Nat) (b : Attempt) (p : Nat) : g ((b.act s q).1.producers p) = g (s.producers p) := by
  cases b with
  | increment | claim | overcommit =>
    simp only [Attempt.act]
    apply modify_same g
    apply hg
  | _ => rfl

theorem Attempt.act_elements (s : Shared α) (q : Nat) (b : Attempt) (p : Nat) :
    ((b.act s q).1.producers p).elements = (s.producers p).elements :=
  b.act_same Producer.elements (fun _ _ _ _ => rfl) s q p

theorem DequeuePhase.Moves.elements {ph ph' : DequeuePhase α} (h : ph.Moves s s' ph') (p : Nat) :
    (s'.producers p).elements = (s.producers p).elements := by
  cases h <;> first | rfl | exact Attempt.act_elements ..

theorem contents_modify {f : Producer α → Producer α} (ho : (f (s.producers p)).owner = (s.producers p).owner)
    (he : (f (s.producers p)).elements = (s.producers p).elements) (id : Nat) :
    (s.modify p f).contents id = s.contents id := by
  refine contents_congr ?_ (modify_same Producer.owner ho) (modify_same Producer.elements he) id
  rfl

/-- A slot is constructed by the last call of its thread. -/
theorem order_construct {id : Nat} {a : α} (hC : Calls c) (hL : Listed c l)
    (hi : c.threads[i]? = some (.enqueue id a (.construct p)))
    (hL' : Listed ⟨c.shared.modify p fun x => { x with elements := x.elements ++ [a] },
      c.threads.set i (.enqueue id a (.publish p)) ++ []⟩ l')
    (ho : ∀ id, c.shared.contents id = c.threads.filterMap (Thread.constructed id)) (id' : Nat) :
    (c.shared.modify p fun x => { x with elements := x.elements ++ [a] }).contents id' =
      (c.threads.set i (.enqueue id a (.publish p))).filterMap (Thread.constructed id') := by
  have hf := hL.fits _ (Family.mem_of_get hi)
  have hlt := hL.made p hf.1
  have howner := hf.2
  by_cases hid : id = id'
  · subst hid
    have h1 : (c.shared.modify p fun x => { x with elements := x.elements ++ [a] }).contents id =
        (c.shared.producers p).elements ++ [a] := by
      have h1 := contents_eq hL' hlt
      simpa [Shared.modify, howner] using h1
    have hlast : ∀ j x, i < j → c.threads[j]? = some x → x.constructed id = none := by
      intro j x hij hj
      cases x with
      | dequeue => rfl
      | enqueue id' b ph =>
        by_cases he : id' = id
        · subst he
          cases hC.last i j id' a b _ ph hij hi hj
        · cases ph <;> first | rfl | exact if_neg he
    have hnew : (Thread.enqueue id a (.publish p)).constructed id = some a := if_pos rfl
    rw [filterMap_set_last hi rfl hnew hlast, ← ho id, h1, ← contents_eq hL hlt, howner]
  · rw [filterMap_set_same hi (if_neg hid), ← ho]
    have hs := Shared.SameList.modify (s := c.shared) (p := p)
        (f := fun x => { x with elements := x.elements ++ [a] }) rfl rfl
    simp only [Shared.contents, Shared.find, hs.size, hs.owner]
    cases hfind : c.shared.find id' with
    | none =>
      simp only [Shared.find] at hfind
      rw [hfind]
    | some q =>
      have hne : q ≠ p := by
        rintro rfl
        exact hid (howner.symm.trans (Shared.find_some hfind).2)
      simp only [Shared.find] at hfind
      rw [hfind]
      simp only [Shared.modify, Function.update_of_ne hne]

theorem order_act (hC : Calls c) (hL : Listed c l) (hi : c.threads[i]? = some t) (hm : Moves c.shared t s' t')
    (hL' : Listed ⟨s', c.threads.set i t' ++ []⟩ l')
    (ho : ∀ id, c.shared.contents id = c.threads.filterMap (Thread.constructed id)) (id : Nat) :
    s'.contents id = (c.threads.set i t' ++ []).filterMap (Thread.constructed id) := by
  rw [List.append_nil]
  have same (h : t'.constructed id = t.constructed id) : (c.threads.set i t').filterMap (Thread.constructed id) =
      c.threads.filterMap (Thread.constructed id) := filterMap_set_same hi h
  cases hm with
  | dequeue h =>
    rw [same rfl, ← ho]
    exact contents_congr h.sameList.size h.sameList.owner h.elements id
  | @enqueue id' a ph ph' _ h =>
    cases h with
    | found | loadTail | push | retry => exact (ho id).trans (same rfl).symm
    | create hfind =>
      rw [same rfl, ← ho]
      exact contents_create hL hL' hfind id
    | @link q prev =>
      rw [same rfl, ← ho]
      exact contents_modify rfl rfl id
    | @publish q =>
      rw [same rfl, ← ho]
      exact contents_modify (p := q) (f := fun x => { x with tailIndex := x.tailIndex + 1 }) rfl rfl id
    | construct => exact order_construct hC hL hi hL' ho id

theorem At.elements (h : At s p t s' t') (hp : p ≠ s.size) : (s.producers p).elements <+: (s'.producers p).elements := by
  cases h with
  | quiet hs =>
    rcases hs with hs | ⟨next, hs⟩ <;> exact ⟨[], by rw [List.append_nil, hs]⟩
  | attempt _ _ hs =>
    exact ⟨[], by rw [List.append_nil, hs, Attempt.act_elements]⟩
  | create _ hp' => exact absurd hp' hp
  | construct hs =>
    rw [hs]
    exact List.prefix_append ..
  | publish hs =>
    exact ⟨[], by rw [List.append_nil, hs]⟩

theorem Balanced.slot (hB : Balanced c p) (ht : t ∈ c.threads) {j : Nat} (hon : t.on p = some (.move j)) :
    j < (c.shared.producers p).headIndex := by
  have h1 := Family.le_total (Thread.weight (Attempt.takes j) p) ht
  have h2 : t.weight (Attempt.takes j) p = 1 := (weight_some hon).trans (if_pos rfl)
  have h3 := hB.taken j
  unfold calls at h3
  split at h3
  · assumption
  · omega

theorem Moves.returns (hm : Moves s t s' t') {p i : Nat} {v : Option α}
    (ht' : t' = .dequeue (.returned (some (p, i, v)))) : t.on p = some (.move i) ∧ v = (s.producers p).elements[i]? := by
  have key : ∀ {q : Nat} {b : Attempt} {r : Nat × Option α}, (b.act s q).2 = .inr (some r) →
      b = .move r.1 ∧ r.2 = (s.producers q).elements[r.1]? := by
    intro q b r hb
    cases b with
    | loadOptimistic =>
      simp only [Attempt.act] at hb
      split at hb <;> cases hb
    | move j =>
      cases hb
      exact ⟨rfl, rfl⟩
    | _ => cases hb
  cases hm with
  | enqueue => cases ht'
  | dequeue h =>
    have loop : ∀ (sc : Scores) (ptr : Option Nat), (sc.loop ptr : DequeuePhase α) ≠ .returned (some (p, i, v)) := by
      intro sc ptr
      unfold Scores.loop Scores.chosen
      repeat' split
      all_goals simp
    cases h with
    | loadList | sizeHead => exact (loop _ _ (Thread.dequeue.inj ht')).elim
    | bestTaken hb | otherTaken hb =>
      cases ht'
      obtain ⟨rfl, hv⟩ := key hb
      exact ⟨if_pos rfl, hv⟩
    | _ => cases ht'

theorem Balanced.value (hB : Balanced c p) (ht : t ∈ c.threads) {j : Nat} (hon : t.on p = some (.move j)) :
    ∃ a, (c.shared.producers p).elements[j]? = some a := by
  have h1 := hB.slot ht hon
  have h2 := hB.head_le
  have h3 := hB.slots
  exact ⟨_, List.getElem?_eq_getElem (by omega)⟩

def Returns (c : Config (Shared α) (Thread α)) : Prop :=
  ∀ p i v, .dequeue (.returned (some (p, i, v))) ∈ c.threads → ∃ a, v = some a ∧ (c.shared.producers p).elements[i]? = some a

theorem returns_act (hL : Listed c l) (hB : ∀ p, Balanced c p) (hR : Returns c) (hi : c.threads[i]? = some t)
    (hm : Moves c.shared t s' t') : Returns ⟨s', c.threads.set i t' ++ []⟩ := by
  have grows : ∀ {p j : Nat} {a : α}, p ∈ l → (c.shared.producers p).elements[j]? = some a →
      (s'.producers p).elements[j]? = some a := by
    intro p j a hp hj
    obtain ⟨rest, hrest⟩ := (hm.at p).elements (Nat.ne_of_lt (hL.made p hp))
    obtain ⟨hlt, _⟩ := List.getElem?_eq_some_iff.mp hj
    rw [← hrest, List.getElem?_append_left hlt, hj]
  intro p j v hmem
  rcases Family.step_cases hi hmem with heq | hnew | ⟨k, _, hk⟩
  · obtain ⟨hon, hv⟩ := hm.returns heq.symm
    obtain ⟨a, ha⟩ := (hB p).value (Family.mem_of_get hi) hon
    exact ⟨a, hv.trans ha, grows (hL.mem_on (Family.mem_of_get hi) hon) ha⟩
  · cases hnew
  · obtain ⟨a, rfl, ha⟩ := hR p j v (Family.mem_of_get hk)
    exact ⟨a, rfl, grows (hL.fits _ (Family.mem_of_get hk) _ rfl) ha⟩

theorem call_kept {e : Choice α} {new : List (Thread α)} (h : ConcurrentQueue.call c.shared e = some (s', new)) :
    s'.producers = c.shared.producers ∧ s'.size = c.shared.size ∧
      ∀ u ∈ new, (∀ id, u.constructed id = none) ∧ ∀ r, u ≠ .dequeue (.returned r) := by
  cases e with
  | enqueue id a =>
    simp only [ConcurrentQueue.call, Option.ite_none_left_eq_some] at h
    obtain ⟨-, h⟩ := h
    cases h
    exact ⟨rfl, rfl, by simp [Thread.constructed]⟩
  | dequeue =>
    cases h
    exact ⟨rfl, rfl, by simp [Thread.constructed]⟩
  | step | spurious => cases h

/-- What each thread has enqueued is in a sub-queue of its own, in the order of its calls. An index
below the head is that of one call of `try_dequeue`, one from the head on that of none, and a call
that has returned got the element at its index. -/
theorem run_delivered {tr : List (Config (Shared α) (Thread α) × Label (Choice α))}
    (h : (concurrentQueue α).Run initial tr c) : Delivered c := by
  have hI : (Calls c ∧ ∃ l, Listed c l) ∧ (∀ p, Balanced c p) ∧
      (∀ id, c.shared.contents id = c.threads.filterMap (Thread.constructed id)) ∧ Returns c := by
    refine h.invariant_by (C := fun _ _ => True) (I := fun c => (Calls c ∧ ∃ l, Listed c l) ∧ (∀ p, Balanced c p) ∧
      (∀ id, c.shared.contents id = c.threads.filterMap (Thread.constructed id)) ∧ Returns c) ?_ ?_ ?_ Program.along_true
    · refine ⟨⟨calls_initial, [], listed_initial⟩, fun _ => balanced_initial, fun _ => rfl, fun _ _ _ h => ?_⟩
      simp [initial] at h
    · rintro c e s new ⟨⟨hC, l, hL⟩, hB, ho, hR⟩ - hc
      obtain ⟨hs, hsize, hnew⟩ := call_kept hc
      refine ⟨⟨hC.call hc, l, hL.call hc⟩, fun p => (hB p).call hc, fun id => ?_, fun p i v hm => ?_⟩
      · rw [List.filterMap_append, List.filterMap_eq_nil_iff.mpr fun u hu => (hnew u hu).1 id, List.append_nil, ← ho]
        exact contents_congr hsize (fun _ => by rw [hs]) (fun _ => by rw [hs]) id
      · rcases List.mem_append.mp hm with hm | hm
        · obtain ⟨a, ha⟩ := hR p i v hm
          exact ⟨a, by rwa [hs]⟩
        · exact absurd rfl ((hnew _ hm).2 _)
    · rintro c i e t s t' new ⟨⟨hC, l, hL⟩, hB, ho, hR⟩ - ht ha
      obtain ⟨hm, rfl⟩ := act_moves ha
      obtain ⟨l', _, hL'⟩ := hL.act hC ht hm
      exact ⟨⟨hC.act ht hm, l', hL'⟩,
        fun p => (hB p).act ht (fun hp u hu => by subst hp; exact hL.free hu) (hm.at p),
        order_act hC hL ht hm hL' ho, returns_act hL hB hR ht hm⟩
  obtain ⟨-, hB, ho, hR⟩ := hI
  refine ⟨ho, fun p => ?_, fun p => (hB p).slots, fun p => (hB p).taken, hR⟩
  have := (hB p).head_le
  omega

/-- Thread 7 has enqueued an element, and a call has taken it. -/
def taken : Config (Shared Nat) (Thread Nat) :=
  (concurrentQueue Nat).last initial (.call (.enqueue 7 5) :: List.replicate 6 (.act 0 .step) ++
    .call .dequeue :: List.replicate 10 (.act 1 .step))

theorem run_delivered_taken : Delivered taken ∧ taken.threads[1]? = some (.dequeue (.returned (some (0, 0, some 5)))) :=
  ⟨run_delivered (Program.run_last rfl), rfl⟩

end

end Xdispatch.ConcurrentQueue
