import Xdispatch.Threadpool.Counters

/-!
# The limit of the pool

`schedule` compares `m_active_threads` with `m_max_threads`, and constructs a
worker some steps later. By then other calls may have constructed theirs, and
`m_active_threads` misses those that are not counted yet, or no more: a worker
takes itself off before its last chance for a token, and ends after it. Where
nothing of that comes between, a call that has loaded `m_active_threads` has a
bound for the workers alive (`Thread.bounds`), up to the one that it constructs.
-/

namespace Xdispatch.Threadpool

/-- The worker has not returned from `run` yet. -/
def Worker.alive : Worker → Nat
  | .exited => 0
  | _ => 1

def Thread.alive : Thread → Nat
  | .worker w => w.alive
  | _ => 0

def alive (c : Config Shared Thread) : Nat := Family.total Thread.alive c.threads

/-- A worker that has taken itself off `m_active_threads` and is alive, or a `schedule` that has
constructed a worker and has yet to add it. -/
def Thread.missing : Thread → Nat
  | .worker .recover | .worker .recovered | .worker .exiting | .countActive => 1
  | _ => 0

def missing (c : Config Shared Thread) : Nat := Family.total Thread.missing c.threads

/-- Constructs a worker. -/
def constructs (c : Config Shared Thread) (l : Label Choice) : Bool :=
  match l with
  | .act i .step => c.threads[i]? = some .spawn
  | _ => false

/-- A `schedule` between its load of `m_active_threads` and the worker that it constructs, if it does. -/
def Thread.loaded : Thread → Bool
  | .loadIdle _ | .loadMax _ | .spawn => true
  | _ => false

/-- The steps of `schedule` do not overlap with those that they miss. When it loads `m_active_threads`, no other call
has constructed a worker that it has yet to add, and no worker that has taken itself off is alive. When it constructs a
worker, no other call has loaded `m_active_threads` and is still to decide or to construct. And `m_max_threads` does not
go down between the comparison and the construction. -/
def apart (c : Config Shared Thread) (l : Label Choice) : Bool :=
  match l with
  | .act i .step =>
    match c.threads[i]? with
    | some .loadActive => missing c = 0
    | some .spawn => Family.total (fun t => t.loaded.toNat) c.threads = 1
    | some .unblocked => .spawn ∉ c.threads
    | _ => true
  | _ => true

/-- Fewer than `m_max_threads` workers are alive when one is constructed. -/
def Limited (c : Config Shared Thread) (l : Label Choice) : Prop :=
  constructs c l = true → (alive c : Int) < c.shared.maxThreads

instance (c : Config Shared Thread) (l : Label Choice) : Decidable (Limited c l) := inferInstanceAs (Decidable (_ → _))

def notDestroyed (_ : Config Shared Thread) (l : Label Choice) : Prop := l ≠ .call .destroy

instance (c : Config Shared Thread) (l : Label Choice) : Decidable (notDestroyed c l) := inferInstanceAs (Decidable (_ ≠ _))

theorem Thread.alive_missing (t : Thread) : t.alive + t.uncounted = t.live + t.missing := by
  cases t with
  | worker w => cases w <;> rfl
  | _ => rfl

theorem alive_missing (l : List Thread) : Family.total Thread.alive l + Family.total Thread.uncounted l =
    Family.total Thread.live l + Family.total Thread.missing l := by
  induction l with
  | nil => rfl
  | cons t l ih =>
    have := t.alive_missing
    simp only [Family.total_cons]
    omega

theorem Counted.alive_eq {c : Config Shared Thread} (h : Counted c) :
    c.shared.activeThreads + missing c = alive c := by
  have h1 := h.active
  have h2 := alive_missing c.threads
  simp only [live, alive, missing] at h1 h2 ⊢
  omega

/-- What a call has found out about the workers alive. -/
def Thread.bounds (s : Shared) (alive : Nat) : Thread → Prop
  | .loadIdle active | .loadMax active => alive ≤ active
  | .spawn => alive < s.maxThreads
  | _ => True

structure Bounded (c : Config Shared Thread) : Prop where
  counted : Counted c
  bounds : ∀ t ∈ c.threads, t.bounds c.shared (alive c)

section
variable {c c' : Config Shared Thread} {i : Nat} {t t' : Thread} {s s' : Shared} {new : List Thread} {e : Choice} {n n' : Nat}

theorem bounds_of_not_loaded (h : t.loaded = false) : t.bounds s n := by
  cases t with
  | loadIdle | loadMax | spawn => cases h
  | _ => trivial

theorem Thread.bounds.mono (h : t.bounds s n) (hn : n' ≤ n) (hm : s.maxThreads ≤ s'.maxThreads ∨ t ≠ .spawn) :
    t.bounds s' n' := by
  cases t with
  | loadIdle active | loadMax active =>
    change (n' : Int) ≤ active
    exact (Int.ofNat_le.mpr hn).trans h
  | spawn =>
    have hm := hm.resolve_right (fun h => h rfl)
    have hlt : (n : Int) < s.maxThreads := h
    change (n' : Int) < s'.maxThreads
    omega
  | _ => trivial

/-- A step other than a construction adds no worker, and takes nothing off `m_max_threads` but for `unblocked`. -/
theorem Step.alive_le (h : Step s t s' t' new) (hs : t ≠ .spawn) : t'.alive + Family.total Thread.alive new ≤ t.alive := by
  cases h with
  | worker h =>
    cases h with
    | take h | miss h => cases h <;> exact Nat.le_refl 1
    | exit => exact Nat.zero_le 1
    | _ => exact Nat.le_refl 1
  | spawn => exact absurd rfl hs
  | loadIdle | loadMax => split <;> exact Nat.le_refl 0
  | _ => exact Nat.le_refl 0

theorem Step.max_le (h : Step s t s' t' new) :
    s.maxThreads ≤ s'.maxThreads ∨ t = .unblocked := by
  cases h with
  | worker h => cases h <;> exact Or.inl (Int.le_refl _)
  | blocked =>
    left
    change s.maxThreads ≤ s.maxThreads + 1
    omega
  | unblocked => exact Or.inr rfl
  | _ => exact Or.inl (Int.le_refl _)

/-- The step of a call that is not over is `.step`. -/
theorem act_apart (hC : apart c (.act i e) = true) (ht : c.threads[i]? = some t) (h : act c.shared t e = some (s', t', new)) :
    (t = .loadActive → missing c = 0) ∧ (t = .spawn → Family.total (fun t => t.loaded.toNat) c.threads = 1) ∧
      (t = .unblocked → .spawn ∉ c.threads) := by
  refine ⟨?_, ?_, ?_⟩
  · rintro rfl
    cases e <;> cases h
    simpa [apart, ht] using hC
  · rintro rfl
    cases e <;> cases h
    simpa [apart, ht] using hC
  · rintro rfl
    cases e <;> cases h
    simpa [apart, ht] using hC

theorem act_bounded (hI : Bounded c) (ht : c.threads[i]? = some t) (h : act c.shared t e = some (s', t', new))
    (hC : apart c (.act i e) = true) : Bounded ⟨s', c.threads.set i t' ++ new⟩ := by
  refine ⟨act_counted hI.counted ht h, ?_⟩
  obtain ⟨hload, hspawn, hunblocked⟩ := act_apart hC ht h
  have hstep := act_step h
  have halive := Family.total_step Thread.alive ht t' new
  by_cases hs : t = .spawn
  · subst hs
    cases hstep
    have hone := hspawn rfl
    have := Family.total_step (fun t => t.loaded.toNat) ht .countActive [.worker .loop]
    have hzero : Family.total (fun t => t.loaded.toNat) (c.threads.set i .countActive ++ [.worker .loop]) = 0 := by
      change _ + 1 = _ + 0 + 0 at this
      omega
    intro x hx
    have := Family.total_eq_zero.mp hzero x hx
    exact bounds_of_not_loaded (by simpa using this)
  · have hle : Family.total Thread.alive (c.threads.set i t' ++ new) ≤ alive c := by
      have := hstep.alive_le hs
      unfold alive
      omega
    have ht' := hI.bounds t (Family.mem_of_get ht)
    refine Family.forall_step (fun x hx => ?_) (Thread.bounds.mono (s := s') (n := alive c) ?_ hle
      (Or.inl (Int.le_refl _))) ?_
    · refine (hI.bounds x hx).mono hle (hstep.max_le.imp_right fun hu hxs => ?_)
      exact hunblocked hu (hxs ▸ hx)
    · cases hstep with
      | loadActive =>
        change (alive c : Int) ≤ c.shared.activeThreads
        have := hI.counted.alive_eq
        have := hload rfl
        omega
      | loadIdle =>
        split
        · trivial
        · exact ht'
      | loadMax =>
        split
        next hlt => exact Int.lt_of_le_of_lt ht' hlt
        · trivial
      | spawn => exact absurd rfl hs
      | _ => trivial
    · intro x hx
      cases hstep with
      | spawn => exact absurd rfl hs
      | _ => cases hx

theorem call_starts (h : call s e = some (s', new)) : s' = s ∧ ∀ t ∈ new, t.alive = 0 ∧ t.loaded = false := by
  cases e <;> cases h <;> simp [Thread.alive, Thread.loaded]

theorem next_bounded {l : Label Choice} (hI : Bounded c) (hD : notDestroyed c l) (hC : apart c l = true)
    (h : threadpool.next c l = some c') : Bounded c' := by
  cases l with
  | call e =>
    obtain ⟨s', new, hc, rfl⟩ := Program.next_call h
    refine ⟨call_counted hI.counted (fun he => hD (by rw [he])) hc, ?_⟩
    obtain ⟨rfl, hnew⟩ := call_starts hc
    have halive : alive ⟨c.shared, c.threads ++ new⟩ = alive c :=
      Family.total_append_zero c.threads fun t ht => (hnew t ht).1
    rw [halive]
    exact Family.forall_append hI.bounds fun t ht => bounds_of_not_loaded (hnew t ht).2
  | act i e =>
    obtain ⟨t, s', t', new, ht, ha, rfl⟩ := Program.next_act h
    exact act_bounded hI ht ha hC

end

/-- Where `schedule` does not overlap with what it misses, each worker that it constructs is within the limit. -/
theorem run_limited {maxThreads : Int} {tr : List (Config Shared Thread × Label Choice)} {c : Config Shared Thread}
    (h : threadpool.Run (initial maxThreads) tr c) (hD : Program.Along notDestroyed tr)
    (hC : Program.Along (fun c l => apart c l = true) tr) : Program.Along Limited tr := by
  intro p hp hc
  obtain ⟨before, c', hr, -, hpre⟩ := h.before hp
  have hsub : ∀ q ∈ before, q ∈ tr := fun q hq => hpre.subset (List.mem_append_left _ hq)
  have hI : Bounded p.1 := hr.invariant (C := fun c l => notDestroyed c l ∧ apart c l = true)
    ⟨initial_counted maxThreads, fun t ht => absurd ht List.not_mem_nil⟩ (fun c l c' hI hC hn => next_bounded hI hC.1 hC.2 hn)
    fun q hq => ⟨hD q (hsub q hq), hC q (hsub q hq)⟩
  unfold constructs at hc
  split at hc
  · exact hI.bounds .spawn (Family.mem_of_get (of_decide_eq_true hc))
  · cases hc

/-- Two calls of `execute`, both of which load the counters before one of them constructs its worker. -/
def overlapping : List (Label Choice) :=
  Label.call (Choice.execute (some 0) .default) :: .call (.execute (some 1) .default) ::
    (List.replicate 5 (Label.act 0 Choice.step) ++ List.replicate 5 (Label.act 1 Choice.step) ++
      [Label.act 0 Choice.step, .act 1 .step])

theorem overlapping_not_limited : ∃ tr c, threadpool.Run (initial 1) tr c ∧ Program.Along notDestroyed tr ∧
    ¬ Program.Along Limited tr :=
  ⟨_, _, Program.run_last (l := overlapping) (by decide), by decide, by decide⟩

/-- The second call comes when the first has returned. -/
def oneByOne : List (Label Choice) :=
  Label.call (Choice.execute (some 0) .default) :: List.replicate 7 (Label.act 0 Choice.step) ++
    Label.call (Choice.execute (some 1) .default) :: List.replicate 5 (Label.act 2 Choice.step)

theorem run_limited_oneByOne : Program.Along Limited (threadpool.path (initial 1) oneByOne) :=
  run_limited (Program.run_last (by decide)) (by decide) (by decide)

end Xdispatch.Threadpool
