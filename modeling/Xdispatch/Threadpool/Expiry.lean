import Xdispatch.Threadpool.Counters

/-!
# Workers that expire

A worker that has timed out takes itself off both counters and then tries once
more to take a token. A call that has counted on it released its token before
it loaded the counters, so the worker finds that token; a call that loads the
counters later finds no worker, and starts one.
-/

namespace Xdispatch.Threadpool

/-- As long as there is a token, a worker is alive or a call is about to start one. -/
def Watched (c : Config Shared Thread) : Prop :=
  c.shared.tokens = 0 ∨ 0 < live c ∨ 0 < Family.total (Thread.decides 0) c.threads

section
variable {c : Config Shared Thread} {i : Nat} {w w' : Worker} {t t' : Thread} {s' : Shared} {new : List Thread}
  {e : Choice}

theorem live_of_takes (h : 0 < w.takes) : w.live = 1 := by
  cases w with
  | exiting | exited => cases h
  | _ => rfl

theorem live_pos (ht : c.threads[i]? = some (.worker w)) (h : w.live = 1) : 0 < live c := by
  have := Family.le_total Thread.live (Family.mem_of_get ht)
  simp only [Thread.live, h] at this
  exact this

theorem worker_watched (hI : Counted c) (hW : Watched c) (ht : c.threads[i]? = some (.worker w))
    (h : Moves c.shared w s' w') : Watched ⟨s', c.threads.set i (.worker w') ++ []⟩ := by
  have hlive := total_step_eq Thread.live ht (.worker w') []
  have hdecides := total_step_eq (Thread.decides 0) ht (.worker w') []
  simp only [Thread.live, Thread.decides, Family.total_nil, Nat.add_zero] at hlive hdecides
  have hget := Family.get_step ht (.worker w') []
  rcases (worker_step hI.not_cancelled h).tokens with h0 | ⟨htok, hl⟩
  · exact Or.inl h0
  by_cases hlw : w'.live = 1
  · exact Or.inr (Or.inl (live_pos (c := ⟨s', _⟩) hget hlw))
  · -- the worker was not alive before, so it neither took nor brought a token
    have ht0 : w'.takes = 0 := by
      by_cases hpos : 0 < w'.takes
      · exact absurd (live_of_takes hpos) hlw
      · omega
    rcases hW with h0 | h0 | h0
    · exact Or.inl (by simp only []; omega)
    · right; left
      unfold live at h0 ⊢
      simp only []
      omega
    · right; right
      simp only []
      omega

theorem call_watched (hW : Watched c) (ht : c.threads[i]? = some t) (hlive : t.live = 0)
    (h : t'.decides 0 = 0 → s'.tokens = c.shared.tokens ∧
      (t.decides 0 = 0 ∨ 0 < live c ∨ 0 < Family.total Thread.live new)) :
    Watched ⟨s', c.threads.set i t' ++ new⟩ := by
  have hl := total_step_eq Thread.live ht t' new
  have hd := total_step_eq (Thread.decides 0) ht t' new
  by_cases hd' : t'.decides 0 = 0
  · obtain ⟨htok, h⟩ := h hd'
    have hcases : c.shared.tokens = 0 ∨ 0 < live c + Family.total Thread.live new ∨
        0 < Family.total (Thread.decides 0) c.threads ∧ t.decides 0 = 0 := by
      rcases hW with h0 | h0 | h0 <;> omega
    rcases hcases with h0 | h0 | h0
    · exact Or.inl (htok.trans h0)
    · right; left
      unfold live at h0 ⊢
      simp only []
      omega
    · right; right
      simp only []
      omega
  · have := Family.le_total (Thread.decides 0) (Family.mem_of_get ht)
    right; right
    simp only []
    omega

theorem idle_eq_zero (hI : Counted c) (h0 : live c = 0) : c.shared.idleThreads = 0 := by
  have hle : Family.total Thread.idles c.threads ≤ live c := by
    refine Family.total_le_total fun t _ => ?_
    cases t with
    | worker w => cases w <;> simp [Thread.idles, Thread.live, Worker.idles, Worker.live]
    | _ => exact Nat.le_refl _
  have := hI.idle
  omega

theorem act_watched (hI : Counted c) (hW : Watched c) (hmax : 1 ≤ c.shared.maxThreads)
    (ht : c.threads[i]? = some t) (h : act c.shared t e = some (s', t', new)) :
    Watched ⟨s', c.threads.set i t' ++ new⟩ := by
  have hd := hI.not_destroyed _ (Family.mem_of_get ht)
  cases act_step h with
  | worker hm => exact worker_watched hI hW ht hm
  | enqueue | unblocked | countActive =>
    exact call_watched hW ht rfl fun _ => ⟨rfl, Or.inl rfl⟩
  | release | blocked =>
    exact call_watched hW ht rfl fun h0 => absurd h0 (by decide)
  | loadActive =>
    refine call_watched hW ht rfl fun h0 => ⟨rfl, Or.inr (Or.inl ?_)⟩
    have := hI.active
    simp only [Thread.decides] at h0
    split at h0 <;> omega
  | @loadIdle active =>
    refine call_watched hW ht rfl fun h0 => ⟨rfl, ?_⟩
    by_cases hl : live c = 0
    · rw [idle_eq_zero hI hl] at h0
      exact Or.inl h0
    · exact Or.inr (Or.inl (by omega))
  | @loadMax active =>
    refine call_watched hW ht rfl fun h0 => ⟨rfl, Or.inl ?_⟩
    split at h0
    · exact absurd h0 (by decide)
    · simp only [Thread.decides]
      rw [if_neg (by omega)]
  | spawn =>
    exact call_watched hW ht rfl fun _ => ⟨rfl, Or.inr (Or.inr (by decide))⟩
  | cancel | loadCount | releaseAll => cases hd

end

theorem next_watched {c c' : Config Shared Thread} {l : Label Choice} (hI : Counted c) (hW : Watched c)
    (hmax : 1 ≤ c.shared.maxThreads) (h : threadpool.next c l = some c') : Watched c' := by
  cases l with
  | call e =>
    obtain ⟨s', new, hc, rfl⟩ := Program.next_call h
    have htok : s' = c.shared := by
      cases e with
      | execute op priority | blocked | unblocked | destroy =>
        cases hc
        rfl
      | _ => cases hc
    subst htok
    unfold Watched live at *
    simp only [Family.total_append]
    omega
  | act i e =>
    obtain ⟨t, s', t', new, ht, ha, rfl⟩ := Program.next_act h
    exact act_watched hI hW hmax ht ha

/-- No call is in progress. -/
def Quiet (c : Config Shared Thread) : Prop := ∀ t ∈ c.threads, (∃ w, t = .worker w) ∨ t = .returned

theorem exists_live {c : Config Shared Thread} (h : 0 < live c) :
    ∃ w, Thread.worker w ∈ c.threads ∧ w ≠ .exiting ∧ w ≠ .exited := by
  obtain ⟨t, ht, hl⟩ := Family.exists_of_total_pos h
  cases t with
  | worker w =>
    refine ⟨w, ht, ?_, ?_⟩
    · rintro rfl
      cases hl
    · rintro rfl
      cases hl
  | _ => cases hl

/-- **Expiry does not strand work**: with an operation left in the buckets and no
call in progress, a worker is alive that has not yet failed to take its last token. -/
theorem run_expiry {maxThreads : Int} {tr : List (Config Shared Thread × Label Choice)}
    {c : Config Shared Thread} (h : threadpool.Run (initial maxThreads) tr c)
    (hC : Program.Along (fun c l => 1 ≤ c.shared.maxThreads ∧ l ≠ .call .destroy) tr) (hQ : Quiet c)
    (hops : c.shared.operations ≠ []) : ∃ w, Thread.worker w ∈ c.threads ∧ w ≠ .exiting ∧ w ≠ .exited := by
  obtain ⟨hI, hW⟩ : Counted c ∧ Watched c := by
    refine h.invariant (I := fun c => Counted c ∧ Watched c) ⟨initial_counted maxThreads, Or.inl rfl⟩ ?_ hC
    intro c l c' hI hl hn
    exact ⟨next_counted hI.1 hl.2 hn, next_watched hI.1 hI.2 hl.1 hn⟩
  apply exists_live
  have hdec : Family.total (Thread.decides 0) c.threads = 0 := by
    rw [Family.total_eq_zero]
    intro t ht
    rcases hQ t ht with ⟨w, rfl⟩ | rfl <;> rfl
  by_cases htok : c.shared.tokens = 0
  · -- the token of the operation is held by a worker
    have hpos := List.length_pos_iff.mpr hops
    have hle := hI.operations
    obtain ⟨t, ht, hh⟩ := Family.exists_of_total_pos (f := Thread.holds) (l := c.threads) (by omega)
    rcases hQ t ht with ⟨w, rfl⟩ | rfl
    · obtain ⟨i, hi⟩ := List.mem_iff_getElem?.mp ht
      refine live_pos hi ?_
      cases w with
      | exiting | exited => cases hh
      | _ => rfl
    · cases hh
  · rcases hW with h0 | h0 | h0
    · exact absurd h0 htok
    · exact h0
    · omega

/-- The worker expires while a call counts on it, and recovers. -/
def expires : List (Label Choice) :=
  oneBusy ++ List.replicate 3 (Label.act 1 Choice.step) ++
    [Label.act 1 Choice.giveUp, .act 1 .step, .act 1 .timeout] ++
    Label.call (Choice.execute (some 1) .utility) :: List.replicate 4 (.act 2 .step) ++
    List.replicate 2 (Label.act 1 Choice.step)

theorem run_expiry_expires : ∃ w, Thread.worker w ∈ (threadpool.last (initial 1) expires).threads ∧ w ≠ .exiting ∧
    w ≠ .exited := by
  refine run_expiry (Program.run_last (l := expires) (by decide)) (by decide) ?_ (by decide)
  intro t ht
  have hthreads : (threadpool.last (initial 1) expires).threads = [.returned, .worker .recover, .returned] := by decide
  rw [hthreads] at ht
  simp only [List.mem_cons, List.not_mem_nil, or_false] at ht
  rcases ht with rfl | rfl | rfl
  · exact Or.inr rfl
  · exact Or.inl ⟨_, rfl⟩
  · exact Or.inr rfl

end Xdispatch.Threadpool
