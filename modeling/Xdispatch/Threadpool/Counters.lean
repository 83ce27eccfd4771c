import Xdispatch.Threadpool.Scheduling

/-!
# What the counters count

As long as the pool is not destroyed, `m_idle_threads` is the number of workers
in `wait_acquire` or on their way out of it, and `m_active_threads` is the
number of workers alive, but for the ones on their last chance and the ones
whose creator has not counted them yet.
-/

namespace Xdispatch.Threadpool

/-- Is counted in `m_idle_threads`. -/
def Worker.idles : Worker → Nat
  | .waiting | .woken | .expired => 1
  | _ => 0

def Thread.idles : Thread → Nat
  | .worker w => w.idles
  | _ => 0

section
variable {s s' : Shared} {w w' : Worker}

theorem Moves.idle_eq (h : Moves s w s' w') : s'.idleThreads + w.idles = s.idleThreads + w'.idles := by
  cases h with
  | take h _ | miss h _ => cases h <;> rfl
  | idle | woken | expired => simp [Worker.idles]
  | _ => rfl

theorem Moves.cancelled_eq (h : Moves s w s' w') : s'.cancelled = s.cancelled := by
  cases h <;> rfl

theorem Moves.asserted_eq (h : Moves s w s' w') (hc : s.cancelled = false) : s'.asserted = s.asserted := by
  cases h with
  | asserts h =>
    rw [hc] at h
    cases h
  | _ => rfl

end

/-! ## Counters of the pool -/

structure Counted (c : Config Shared Thread) : Prop where
  not_cancelled : c.shared.cancelled = false
  not_destroyed : ∀ t ∈ c.threads, t.destroys = false
  operations : c.shared.operations.length ≤ c.shared.tokens + Family.total Thread.holds c.threads
  active : c.shared.activeThreads + Family.total Thread.uncounted c.threads = live c
  idle : c.shared.idleThreads = Family.total Thread.idles c.threads

/-- What a step of a thread does to the counters, with `m_cancelled` unset. -/
structure Counts (s s' : Shared) (t t' : Thread) (new : List Thread) : Prop where
  cancelled : s'.cancelled = s.cancelled
  destroys : t'.destroys = false ∧ ∀ x ∈ new, x.destroys = false
  operations : s'.operations.length + s.tokens + t.holds ≤
    s.operations.length + s'.tokens + t'.holds + Family.total Thread.holds new
  active : s'.activeThreads + t'.uncounted + Family.total Thread.uncounted new + t.live =
    s.activeThreads + t.uncounted + t'.live + Family.total Thread.live new
  idle : s'.idleThreads + t.idles = s.idleThreads + t'.idles + Family.total Thread.idles new

section
variable {c : Config Shared Thread} {i : Nat} {t t' : Thread} {s s' : Shared} {new : List Thread} {e : Choice}

theorem act_counts (hc : s.cancelled = false) (hd : t.destroys = false) (h : act s t e = some (s', t', new)) :
    Counts s s' t t' new := by
  cases act_step h with
  | worker hm =>
    have hs := worker_step hc hm
    refine ⟨hs.cancelled, ⟨rfl, by simp⟩, hs.operations, ?_, ?_⟩
    · simpa [Thread.uncounted, Thread.live] using hs.active
    · simpa [Thread.idles] using hm.idle_eq
  | enqueue | release =>
    refine ⟨rfl, ⟨rfl, by simp⟩, ?_, by simp [Thread.uncounted, Thread.live], by simp [Thread.idles]⟩
    simp only [Thread.holds, List.length_append, List.length_singleton, Family.total_nil]
    omega
  | blocked | unblocked | loadActive =>
    exact ⟨rfl, ⟨rfl, by simp⟩, Nat.le_refl _, by simp [Thread.uncounted, Thread.live], by simp [Thread.idles]⟩
  | loadIdle | loadMax =>
    split
    · exact ⟨rfl, ⟨rfl, by simp⟩, Nat.le_refl _, by simp [Thread.uncounted, Thread.live, Shared.assert],
        by simp [Thread.idles, Shared.assert]⟩
    · exact ⟨rfl, ⟨rfl, by simp⟩, Nat.le_refl _, by simp [Thread.uncounted, Thread.live, Shared.assert],
        by simp [Thread.idles, Shared.assert]⟩
  | spawn =>
    refine ⟨rfl, ⟨rfl, by simp [Thread.destroys]⟩, ?_, ?_, ?_⟩
    · simp [Thread.holds, Worker.holds]
    · simp [Thread.uncounted, Thread.live, Worker.uncounted, Worker.live]
    · simp [Thread.idles, Worker.idles]
  | countActive =>
    exact ⟨rfl, ⟨rfl, by simp⟩, Nat.le_refl _, by simp [Thread.uncounted, Thread.live], by simp [Thread.idles]⟩
  | cancel | loadCount | releaseAll => cases hd

theorem act_counted (hI : Counted c) (ht : c.threads[i]? = some t) (h : act c.shared t e = some (s', t', new)) :
    Counted ⟨s', c.threads.set i t' ++ new⟩ := by
  have hs := act_counts hI.not_cancelled (hI.not_destroyed _ (Family.mem_of_get ht)) h
  have hholds := total_step_eq Thread.holds ht t' new
  have huncounted := total_step_eq Thread.uncounted ht t' new
  have hlive := total_step_eq Thread.live ht t' new
  have hidles := total_step_eq Thread.idles ht t' new
  have h1 := hI.operations
  have h2 := hI.active
  have h3 := hI.idle
  have h1' := hs.operations
  have h2' := hs.active
  have h3' := hs.idle
  refine ⟨hs.cancelled.trans hI.not_cancelled, Family.forall_step hI.not_destroyed hs.destroys.1 hs.destroys.2, ?_, ?_, ?_⟩
  · simp only []
    omega
  · simp only [live] at h2 ⊢
    omega
  · simp only []
    omega

end

theorem call_counted {c : Config Shared Thread} (hI : Counted c) {e : Choice} {s' : Shared} {new : List Thread}
    (hD : e ≠ .destroy) (h : call c.shared e = some (s', new)) : Counted ⟨s', c.threads ++ new⟩ := by
  have key : ∀ t : Thread, t.live = 0 → t.holds = 0 → t.uncounted = 0 → t.idles = 0 → t.destroys = false →
      Counted ⟨c.shared, c.threads ++ [t]⟩ := by
    intro t hl hh hu hi hd
    refine ⟨hI.not_cancelled, Family.forall_append hI.not_destroyed (by simpa using hd), ?_, ?_, ?_⟩
    · simpa [hh] using hI.operations
    · simpa [live, hl, hu] using hI.active
    · simpa [hi] using hI.idle
  cases e with
  | execute op priority | blocked | unblocked =>
    cases h
    exact key _ rfl rfl rfl rfl rfl
  | destroy => exact absurd rfl hD
  | _ => cases h

theorem initial_counted (maxThreads : Int) : Counted (initial maxThreads) := by
  refine ⟨rfl, by simp [initial], Nat.zero_le _, rfl, rfl⟩

theorem next_counted {c c' : Config Shared Thread} {l : Label Choice} (hI : Counted c) (hD : l ≠ .call .destroy)
    (h : threadpool.next c l = some c') : Counted c' := by
  cases l with
  | call e =>
    obtain ⟨s', new, hc, rfl⟩ := Program.next_call h
    exact call_counted hI (fun he => hD (by rw [he])) hc
  | act i e =>
    obtain ⟨t, s', t', new, ht, ha, rfl⟩ := Program.next_act h
    exact act_counted hI ht ha

end Xdispatch.Threadpool
