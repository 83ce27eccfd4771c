import Xdispatch.Lifetime.Stages

/-!
# When the operation queue is destroyed

Its destructor comes after the request to detach, when all jobs have been
executed and at most the end of the last drain is left. It waits for that, and
a job of the queue is not what runs it.
-/

namespace Xdispatch.Lifetime

open OperationQueue (Open Detaching Closing Closed operationQueue keepsDraining)

/-! ## The invariant -/

/-- The queue before `~operation_queue` has reset `m_notify_operation`. -/
def restored (q : Config OperationQueue.Shared OperationQueue.Thread) :
    Config OperationQueue.Shared OperationQueue.Thread :=
  ⟨{ q.shared with notifyOperation := true }, q.threads⟩

/-- Within `~serial_queue_impl`, with `m_queue` still to release. -/
def Owner.dies (o : Owner) : Nat :=
  match o.doing with
  | .detach _ | .release => 1
  | _ => 0

def Owner.destroys (o : Owner) : Nat := if o.doing = .destroy then 1 else 0

/-- The owners on the manager's side: the request to attach, and then the entry in `m_queues`. -/
def Shared.attachments (s : Shared) : Nat := if s.handled < 2 then 1 else 0

structure QueueInv (s : Shared) : Prop where
  run : ∃ tr, operationQueue.Run OperationQueue.initial tr (restored s.queue) ∧
    Program.Along (fun c l => keepsDraining c l = true) tr
  notify : s.queue.shared.notifyOperation = true ∨ s.owners = 0
  alive : s.references ≠ 0 → Open s.queue
  dead : s.references = 0 → Detaching s.queue ∨ Closing s.queue ∨ Closed s.queue
  handled : s.handled = 0 ∧ s.registered = 0 ∨ s.handled = 1 ∧ s.registered = 1 ∨
    s.handled = 2 ∧ s.registered = 0 ∧ s.queue.shared.manager = [.attach, .detach]
  destroyed : s.destroyed = true → s.owners = 0 ∧ ∀ t ∈ s.queue.threads, t = .returned

structure Owner.Fits (s : Shared) (o : Owner) : Prop where
  asyncs : ∀ n, o.doing = .async n → 0 < o.references
  destroys : o.doing = .destroy → s.owners = 0 ∧ ∀ x, o.role ≠ .job x
  jobs : ∀ x, o.role = .job x → x < s.jobs ∧ (o.doing = .queued ∨ o.doing = .done ∨ s.runs x = true)

/-- An `async` under way is that of an owner. -/
def Called (c : Config Shared Owner) : Prop :=
  ∀ (n : Nat) (t : OperationQueue.Thread), c.shared.queue.threads[n]? = some t → t.kind = .call →
    ∃ o ∈ c.threads, o.doing = .async n

def Distinct (l : List Owner) : Prop :=
  ∀ (i j : Nat) (o o' : Owner) (x : Nat), l[i]? = some o → l[j]? = some o' → o.role = .job x → o'.role = .job x → i = j

structure Inv (c : Config Shared Owner) : Prop where
  queue : QueueInv c.shared
  references : Family.total Owner.references c.threads = c.shared.references
  dies : Family.total Owner.dies c.threads ≤ if c.shared.references = 0 then 1 else 0
  owners : c.shared.owners =
    (if c.shared.references = 0 then Family.total Owner.dies c.threads else 1) + c.shared.attachments
  once : Family.total Owner.destroys c.threads + c.shared.destroyed.toNat ≤ if c.shared.owners = 0 then 1 else 0
  fits : ∀ o ∈ c.threads, o.Fits c.shared
  called : Called c
  distinct : Distinct c.threads

section
variable {c : Config Shared Owner} {s s' : Shared} {o o' : Owner} {i x : Nat} {new : List Owner}
  {q' : Config OperationQueue.Shared OperationQueue.Thread}

theorem runs_iff : s.runs x = true ↔ ∃ t ∈ s.queue.threads, ∃ r, t = .drainRunning (.operation x) r := by
  unfold Shared.runs
  rw [List.any_eq_true]
  refine exists_congr fun t => and_congr_right fun _ => ?_
  split
  next y _ =>
    rw [beq_iff_eq]
    constructor
    · rintro rfl
      exact ⟨_, rfl⟩
    · rintro ⟨_, h⟩
      cases h
      rfl
  next h => simpa using fun r => h x r

theorem QueueInv.manager (hQ : QueueInv s) :
    s.queue.shared.manager = [.attach] ∨ s.queue.shared.manager = [.attach, .detach] ∧ Closed s.queue := by
  by_cases h : s.references = 0
  · rcases hQ.dead h with h | h | h
    · exact Or.inl h.manager
    · exact Or.inl h.manager
    · exact Or.inr ⟨h.manager, h⟩
  · exact Or.inl (hQ.alive h).manager

/-- The manager gives up its part after the request to detach. -/
theorem QueueInv.closed (hQ : QueueInv s) (h : s.attachments = 0) : Closed s.queue := by
  unfold Shared.attachments at h
  rcases hQ.handled with ⟨h', -⟩ | ⟨h', -⟩ | ⟨-, -, hm⟩
  · simp [h'] at h
  · simp [h'] at h
  · rcases hQ.manager with h | h
    · rw [hm] at h
      cases h
    · exact h.2

theorem Closed.not_runs (h : Closed s.queue) : s.runs x = false := by
  apply Bool.eq_false_of_not_eq_true
  intro hr
  obtain ⟨t, ht, r, rfl⟩ := runs_iff.mp hr
  cases h.ends _ ht

theorem Inv.closed (hI : Inv c) (h : c.shared.owners = 0) : Closed c.shared.queue :=
  hI.queue.closed (by have := hI.owners; omega)

theorem Inv.references_pos (hI : Inv c) (ho : c.threads[i]? = some o) (hr : 0 < o.references) : c.shared.references ≠ 0 := by
  have := Family.le_total Owner.references (Family.mem_of_get ho)
  rw [hI.references] at this
  omega

/-! ## Steps of the queue -/

theorem restored_eq (h : s.queue.shared.notifyOperation = true) : restored s.queue = s.queue := by
  unfold restored
  rw [← h]

theorem keeps_of_kind {q : Config OperationQueue.Shared OperationQueue.Thread}
    (h : ∀ t ∈ q.threads, t.kind ≠ .attach ∧ (t.kind = .call → q.shared.isAttached = true)) :
    keepsDraining q (.act i .step) = true := by
  unfold keepsDraining
  split
  · next h => cases h
  · next j e _ heq =>
    obtain ⟨rfl, rfl⟩ : i = j ∧ OperationQueue.Choice.step = e := by simpa using heq
    split
    next job ht =>
      obtain ⟨h1, h2⟩ := h _ (Family.mem_of_get ht)
      rcases job with _ | _ | _
      · exact h2 rfl
      · exact h2 rfl
      · exact absurd rfl h1
    · rfl
  · rfl

theorem stage_kinds (hQ : QueueInv s) : ∀ t ∈ s.queue.threads,
    t.kind ≠ .attach ∧ (t.kind = .call → s.queue.shared.isAttached = true) := by
  intro t ht
  have other : ∀ {k : OperationQueue.Kind}, t.kind = k → k ≠ .attach → k ≠ .call →
      t.kind ≠ .attach ∧ (t.kind = .call → s.queue.shared.isAttached = true) := fun h h1 h2 =>
    ⟨h ▸ h1, fun h' => absurd (h.symm.trans h') h2⟩
  by_cases h0 : s.references = 0
  · rcases hQ.dead h0 with h | h | h
    · rcases h.kinds t ht with h | h <;> exact other h (by simp) (by simp)
    · rcases h.kinds t ht with h | ⟨h, -⟩ | h <;> exact other h (by simp) (by simp)
    · rcases OperationQueue.ends_kind (h.ends t ht) with h | h <;> exact other h (by simp) (by simp)
  · have hO := hQ.alive h0
    rcases hO.kinds t ht with h | h
    · exact ⟨by simp [h], fun _ => hO.attached⟩
    · exact other h (by simp) (by simp)

/-- What is left after the request to detach does not look at `m_notify_operation`. -/
theorem act_restored {t t' : OperationQueue.Thread} {σ σ' : OperationQueue.Shared} {new : List OperationQueue.Thread}
    (ht : t.ends = true) (h : OperationQueue.act σ t .step = some (σ', t', new)) :
    OperationQueue.act { σ with notifyOperation := true } t .step = some ({ σ' with notifyOperation := true }, t', new) ∧
      σ'.notifyOperation = σ.notifyOperation := by
  cases OperationQueue.act_step h with
  | @lock p hl => exact ⟨by simp [OperationQueue.act, hl], rfl⟩
  | @holding p =>
    cases p with
    | drainPop | unwindFree | drainEnd | unlock | detachReset => exact ⟨rfl, rfl⟩
    | _ => cases ht
  | _ => cases ht

/-- The queue goes on as if `m_notify_operation` had not been reset. -/
theorem QueueInv.next_restored (hQ : QueueInv s) (hown : s.owners = 0 → Closed s.queue)
    (h : operationQueue.next s.queue (.act i .step) = some q') :
    operationQueue.next (restored s.queue) (.act i .step) = some (restored q') ∧
      q'.shared.notifyOperation = s.queue.shared.notifyOperation := by
  obtain ⟨t, σ', t', ws, ht, ha, rfl⟩ := Program.next_act h
  have hmem := Family.mem_of_get ht
  rcases hQ.notify with hn | h0
  · obtain ⟨tr, hr, hA⟩ := hQ.run
    have hI := (OperationQueue.run_wakeInv hr hA).inv
    have hn' := (OperationQueue.step_asserted (OperationQueue.act_step ha) (hI.fits t hmem)).2
    refine ⟨?_, hn'⟩
    rw [restored_eq hn, h, restored, ← hn, ← hn']
  · obtain ⟨ha', hn⟩ := act_restored ((hown h0).ends t hmem) ha
    exact ⟨Program.act_next ht ha', hn⟩

theorem QueueInv.next (hQ : QueueInv s) (hown : s.owners = 0 → Closed s.queue)
    (h : operationQueue.next s.queue (.act i .step) = some q') : QueueInv { s with queue := q' } := by
  obtain ⟨hrest, hn⟩ := hQ.next_restored hown h
  obtain ⟨tr, hr, hA⟩ := hQ.run
  have hW := OperationQueue.run_wakeInv hr hA
  obtain ⟨t, σ', t', ws, ht, ha, rfl⟩ := Program.next_act h
  have hstep := OperationQueue.act_step ha
  have hsame : ¬ Closed s.queue → restored s.queue = s.queue := fun hC =>
    restored_eq (hQ.notify.resolve_right fun h0 => hC (hown h0))
  have hmanager : ∀ {l : List OperationQueue.Request}, s.queue.shared.manager = l → l = [.attach] → ¬ Closed s.queue :=
    fun h1 h2 hC => by cases h2; cases h1.symm.trans hC.manager
  refine ⟨⟨_, hr.snoc hrest, ?_⟩, ?_, fun h0 => OperationQueue.act_open (hQ.alive h0) ht hstep, fun h0 => ?_, ?_, ?_⟩
  · exact Program.along_snoc.mpr ⟨hA, keeps_of_kind (stage_kinds hQ)⟩
  · exact hQ.notify.imp_left hn.trans
  · rcases hQ.dead h0 with h | h | h
    · have hC := hmanager h.manager rfl
      exact OperationQueue.act_detaching (hsame hC ▸ hW) h ht hstep
    · have hC := hmanager h.manager rfl
      exact Or.inr (OperationQueue.act_closing (hsame hC ▸ hW).inv h ht hstep)
    · exact Or.inr (Or.inr (OperationQueue.act_closed h ht hstep))
  · refine hQ.handled.imp_right fun h => h.imp_right fun h => ⟨h.1, h.2.1, ?_⟩
    rcases hQ.manager with hm | ⟨-, hC⟩
    · rw [h.2.2] at hm
      cases hm
    · exact (OperationQueue.act_closed hC ht hstep).manager
  · intro hd
    have := (hQ.destroyed hd).2 t (Family.mem_of_get ht)
    subst this
    cases hstep

theorem QueueInv.called (hQ : QueueInv s) (h : operationQueue.next s.queue (.act i .step) = some q') {n : Nat}
    {t : OperationQueue.Thread} (ht : q'.threads[n]? = some t) (hk : t.kind = .call) :
    ∃ t', s.queue.threads[n]? = some t' ∧ t'.kind = .call := by
  obtain ⟨t₀, σ', t', ws, ht₀, ha, rfl⟩ := Program.next_act h
  obtain ⟨hcall, hnew⟩ := OperationQueue.step_call (OperationQueue.act_step ha)
    (stage_kinds hQ t₀ (Family.mem_of_get ht₀)).1
  rw [List.getElem?_append] at ht
  split at ht
  · rw [List.getElem?_set] at ht
    split at ht
    next hin =>
      subst hin
      split at ht
      · cases ht
        exact ⟨t₀, ht₀, hcall hk⟩
      · cases ht
    · exact ⟨t, ht, hk⟩
  · exact absurd hk (hnew t (Family.mem_of_get ht))

theorem runs_next (h : operationQueue.next s.queue (.act i .step) = some q')
    (hne : ∀ r, s.queue.threads[i]? ≠ some (.drainRunning (.operation x) r)) (hr : s.runs x = true) :
    ({ s with queue := q' } : Shared).runs x = true := by
  obtain ⟨t, σ', t', ws, ht, -, rfl⟩ := Program.next_act h
  obtain ⟨u, hu, r, rfl⟩ := runs_iff.mp hr
  refine runs_iff.mpr ⟨_, Family.mem_step_of_ne ht hu ?_ t' ws, r, rfl⟩
  rintro rfl
  exact hne r ht

/-! ## Steps of the owners -/

theorem Owner.Fits.mono (h : o.Fits s) (hown : s.owners = 0 → s'.owners = 0) (hjobs : s.jobs ≤ s'.jobs)
    (hruns : ∀ x, o.role = .job x → s.runs x = true → s'.runs x = true) : o.Fits s' :=
  ⟨h.asyncs, fun hd => ⟨hown (h.destroys hd).1, (h.destroys hd).2⟩, fun x hx =>
    ⟨(h.jobs x hx).1.trans_le hjobs, (h.jobs x hx).2.imp_right fun h => h.imp_right (hruns x hx)⟩⟩

theorem Distinct.step {l : List Owner} (h : Distinct l) (ho : l[i]? = some o) (hrole : o'.role = o.role)
    (hlen : new.length ≤ 1) (hnew : ∀ k ∈ new, ∀ x, k.role = .job x → ∀ u ∈ l, u.role ≠ .job x) :
    Distinct (l.set i o' ++ new) := by
  -- the owner at an index is new, or has the role that was there
  have hat : ∀ {j : Nat} {u : Owner}, (l.set i o' ++ new)[j]? = some u →
      (j = l.length ∧ u ∈ new) ∨ ∃ v, l[j]? = some v ∧ v.role = u.role := by
    intro j u hj
    rw [List.getElem?_append] at hj
    split at hj
    · right
      rw [List.getElem?_set] at hj
      split at hj
      next hij =>
        subst hij
        split at hj
        · cases hj
          exact ⟨o, ho, hrole.symm⟩
        · cases hj
      · exact ⟨u, hj, rfl⟩
    next hlt =>
      left
      rw [List.length_set] at hlt hj
      have := (List.getElem?_eq_some_iff.mp hj).1
      exact ⟨by omega, Family.mem_of_get hj⟩
  intro j j' u u' x hj hj' hx hx'
  rcases hat hj with ⟨rfl, hm⟩ | ⟨v, hv, hr⟩ <;> rcases hat hj' with ⟨rfl, hm'⟩ | ⟨v', hv', hr'⟩
  · rfl
  · exact absurd (hr'.trans hx') (hnew u hm x hx v' (Family.mem_of_get hv'))
  · exact absurd (hr.trans hx) (hnew u' hm' x hx' v (Family.mem_of_get hv))
  · exact h j j' v v' x hv hv' (hr.trans hx) (hr'.trans hx')

theorem Inv.once_same (hI : Inv c) (h : o'.destroys = o.destroys) (d : Nat)
    (hd : d + o.destroys = Family.total Owner.destroys c.threads + o'.destroys) :
    d + c.shared.destroyed.toNat ≤ if c.shared.owners = 0 then 1 else 0 := by
  rw [h] at hd
  rw [Nat.add_right_cancel hd]
  exact hI.once

theorem destroys_eq_zero (h : o.doing ≠ .destroy) : o.destroys = 0 := if_neg h

/-- One owner has moved, and with `new` owners all fit. -/
theorem Inv.set (hI : Inv c) (ho : c.threads[i]? = some o) (hQ : QueueInv s') (hrole : o'.role = o.role)
    (hlen : new.length ≤ 1) (hnew : ∀ k ∈ new, k.Fits s' ∧ (k.dies = 0 ∧ k.destroys = 0) ∧
      ∀ x, k.role = .job x → c.shared.jobs ≤ x)
    (href : s'.references + o.references = c.shared.references + o'.references + Family.total Owner.references new)
    (hdies : ∀ d, d + o.dies = Family.total Owner.dies c.threads + o'.dies → (d ≤ if s'.references = 0 then 1 else 0) ∧
      s'.owners = (if s'.references = 0 then d else 1) + s'.attachments)
    (honce : ∀ d, d + o.destroys = Family.total Owner.destroys c.threads + o'.destroys →
      d + s'.destroyed.toNat ≤ if s'.owners = 0 then 1 else 0)
    (hown : c.shared.owners = 0 → s'.owners = 0) (hjobs : c.shared.jobs ≤ s'.jobs)
    (hruns : ∀ j u x, j ≠ i → c.threads[j]? = some u → u.role = .job x → c.shared.runs x = true → s'.runs x = true)
    (ho' : o'.Fits s') (hcalled : Called ⟨s', c.threads.set i o' ++ new⟩) : Inv ⟨s', c.threads.set i o' ++ new⟩ := by
  have hd := Family.total_step Owner.dies ho o' new
  have ho₂ := Family.total_step Owner.destroys ho o' new
  rw [Family.total_eq_zero.mpr fun k hk => (hnew k hk).2.1.1, add_zero] at hd
  rw [Family.total_eq_zero.mpr fun k hk => (hnew k hk).2.1.2, add_zero] at ho₂
  obtain ⟨h1, h2⟩ := hdies _ hd
  refine ⟨hQ, Family.total_eq_step hI.references ho href, h1, h2, honce _ ho₂, fun k hk => ?_, hcalled,
    hI.distinct.step ho hrole hlen fun k hk x hx u hu hux => ?_⟩
  · rcases Family.step_cases ho hk with rfl | hk | ⟨j, hij, hk⟩
    · exact ho'
    · exact (hnew k hk).1
    · exact (hI.fits k (Family.mem_of_get hk)).mono hown hjobs fun x hx => hruns j k x hij hk hx
  · have := ((hI.fits u hu).jobs x hux).1
    have := (hnew k hk).2.2 x hx
    omega

theorem Called.step (h : Called c) (ho : c.threads[i]? = some o) (hq : s'.queue = c.shared.queue)
    (hd : ∀ n, o.doing = .async n → ∀ t, c.shared.queue.threads[n]? = some t → t.kind ≠ .call) :
    Called ⟨s', c.threads.set i o' ++ new⟩ := by
  intro n t ht hk
  simp only [hq] at ht
  obtain ⟨u, hu, hun⟩ := h n t ht hk
  refine ⟨u, Family.mem_step_of_ne ho hu ?_ o' new, hun⟩
  rintro rfl
  exact hd n hun t ht hk

theorem Inv.goes (hI : Inv c) (ho : c.threads[i]? = some o) {d : Doing} (hdies : { o with doing := d }.dies = o.dies)
    (hdestroys : { o with doing := d }.destroys = o.destroys) (hfits : { o with doing := d }.Fits c.shared)
    (hd : ∀ n, o.doing = .async n → ∀ t, c.shared.queue.threads[n]? = some t → t.kind ≠ .call) :
    Inv ⟨c.shared, c.threads.set i { o with doing := d } ++ []⟩ := by
  refine hI.set ho hI.queue rfl (by simp) (by simp) rfl (fun n hn => ?_) (hI.once_same hdestroys) id le_rfl
    (fun _ _ _ _ _ _ h => h) hfits (hI.called.step ho rfl hd)
  rw [hdies] at hn
  rw [Nat.add_right_cancel hn]
  exact ⟨hI.dies, hI.owners⟩

theorem Inv.owners_pos (hI : Inv c) (h : c.shared.references ≠ 0) : c.shared.owners ≠ 0 := by
  have := hI.owners
  rw [if_neg h] at this
  omega

theorem QueueInv.run_call (hQ : QueueInv s) (hn : s.queue.shared.notifyOperation = true) {e : OperationQueue.Choice}
    (h : operationQueue.next s.queue (.call e) = some q') : q'.shared = s.queue.shared ∧
      ∃ tr, operationQueue.Run OperationQueue.initial tr (restored q') ∧
        Program.Along (fun c l => keepsDraining c l = true) tr := by
  obtain ⟨tr, hr, hA⟩ := hQ.run
  rw [restored_eq hn] at hr
  have hs : q'.shared = s.queue.shared := by
    obtain ⟨σ', new, hc, rfl⟩ := Program.next_call h
    cases e with
    | async | attach | detach =>
      cases hc
      rfl
    | _ => cases hc
  have hrest : restored q' = q' := by
    rw [restored, hs, ← hn, ← hs]
  exact ⟨hs, _, hrest ▸ hr.snoc h, Program.along_snoc.mpr ⟨hA, rfl⟩⟩

theorem runs_call {e : OperationQueue.Choice} (h : operationQueue.next s.queue (.call e) = some q') (hr : s.runs x = true) :
    ({ s with queue := q' } : Shared).runs x = true := by
  obtain ⟨σ', ws, -, rfl⟩ := Program.next_call h
  obtain ⟨t, ht, r, rfl⟩ := runs_iff.mp hr
  exact runs_iff.mpr ⟨_, List.mem_append_left _ ht, r, rfl⟩

theorem async_inv (hI : Inv c) (ho : c.threads[i]? = some o) (hidle : o.doing = .idle) (hpos : 0 < o.references)
    {captures : Option Nat} (h : async c.shared o captures = some (s', o', new)) :
    Inv ⟨s', c.threads.set i o' ++ new⟩ := by
  have h0 := hI.references_pos ho hpos
  have howners := hI.owners_pos h0
  have hn := hI.queue.notify.resolve_right howners
  simp only [async, Option.map_eq_some_iff, Prod.mk.injEq] at h
  obtain ⟨q, hq, rfl, rfl, rfl⟩ := h
  obtain ⟨hs, hrun⟩ := hI.queue.run_call hn hq
  have h0' : c.shared.references + captures.getD 0 ≠ 0 := by omega
  refine hI.set ho ⟨hrun, Or.inl (hs ▸ hn), fun _ => OperationQueue.call_open (hI.queue.alive h0) hq,
    fun h => absurd h h0', by simpa only [hs] using hI.queue.handled, fun hd => absurd (hI.queue.destroyed hd).1 howners⟩
    rfl ?_ (fun k hk => ?_) ?_ (fun d hd => ?_)
    (hI.once_same ((destroys_eq_zero (by simp)).trans (destroys_eq_zero (by simp [hidle])).symm))
    (fun h => absurd h howners) (Nat.le_add_right _ _) (fun _ _ x _ _ _ hr => runs_call hq hr)
    ⟨fun _ _ => hpos, by simp, fun x hx => ?_⟩ ?_
  · cases captures <;> simp
  · cases captures with
    | none => cases hk
    | some n =>
      cases List.mem_singleton.mp hk
      refine ⟨⟨by simp, by simp, fun x hx => ?_⟩, ⟨rfl, rfl⟩, fun x hx => ?_⟩
      · cases hx
        exact ⟨by simp, Or.inl rfl⟩
      · cases hx
        exact le_rfl
  · cases captures with
    | none => simp
    | some n => simp; omega
  · have hD := hI.dies
    have hO := hI.owners
    simp only [if_neg h0, if_neg h0', Owner.dies, hidle, Shared.attachments] at hd hD hO ⊢
    omega
  · obtain ⟨h1, h2⟩ := (hI.fits o (Family.mem_of_get ho)).jobs x hx
    rw [hidle] at h2
    refine ⟨by simp only []; omega, Or.inr (Or.inr (runs_call hq ?_))⟩
    simpa using h2
  · intro n t ht hk
    obtain ⟨σ', ws, hc, rfl⟩ := Program.next_call hq
    cases hc
    rw [List.getElem?_append] at ht
    split at ht
    · obtain ⟨u, hu, hun⟩ := hI.called n t ht hk
      refine ⟨u, Family.mem_step_of_ne ho hu ?_ _ _, hun⟩
      rintro rfl
      rw [hidle] at hun
      cases hun
    next hlt =>
      have := (List.getElem?_eq_some_iff.mp ht).1
      simp only [List.length_singleton] at this
      exact ⟨_, Family.mem_step_self ho _ _, congrArg Doing.async (by omega)⟩

/-- The owner has one reference more, or hands it on. -/
theorem share_inv (hI : Inv c) (ho : c.threads[i]? = some o) (hidle : o.doing = .idle) (hpos : 0 < o.references)
    (hrole : o'.role = o.role) (hdoing : o'.doing = .idle) (hlen : new.length ≤ 1)
    (hnew : ∀ k ∈ new, k.doing = .idle ∧ k.role = .user)
    (href : 1 + o.references = o'.references + Family.total Owner.references new) :
    Inv ⟨{ c.shared with references := c.shared.references + 1 }, c.threads.set i o' ++ new⟩ := by
  have h0 := hI.references_pos ho hpos
  refine hI.set ho ⟨hI.queue.run, hI.queue.notify, fun _ => hI.queue.alive h0, fun h => absurd h (Nat.succ_ne_zero _),
    hI.queue.handled, hI.queue.destroyed⟩ hrole hlen (fun k hk => ?_) (by simp only []; omega) (fun d hd => ?_)
    (hI.once_same ((destroys_eq_zero (by simp [hdoing])).trans (destroys_eq_zero (by simp [hidle])).symm)) id le_rfl
    (fun _ _ _ _ _ _ h => h) ⟨by simp [hdoing], by simp [hdoing], fun x hx => ?_⟩ (hI.called.step ho rfl (by simp [hidle]))
  · obtain ⟨h1, h2⟩ := hnew k hk
    exact ⟨⟨by simp [h1], by simp [h1], by simp [h2]⟩, ⟨by simp [Owner.dies, h1], destroys_eq_zero (by simp [h1])⟩,
      by simp [h2]⟩
  · have hD := hI.dies
    have hO := hI.owners
    simp only [if_neg h0, Owner.dies, hidle, hdoing, Shared.attachments, Nat.add_eq_zero_iff, one_ne_zero, and_false,
      ite_false] at hd hD hO ⊢
    omega
  · obtain ⟨h1, h2⟩ := (hI.fits o (Family.mem_of_get ho)).jobs x (hrole ▸ hx)
    rw [hidle] at h2
    exact ⟨h1, Or.inr (Or.inr ((h2.resolve_left (by simp)).resolve_left (by simp)))⟩

/-- Who uses the last reference is alone with it. -/
theorem Inv.alone (hI : Inv c) (ho : c.threads[i]? = some o) (hidle : o.doing = .idle) (hpos : 0 < o.references)
    (h1 : c.shared.references = 1) : ∀ t ∈ c.shared.queue.threads, t.kind ≠ .call := by
  intro t ht hk
  obtain ⟨n, hn⟩ := List.mem_iff_getElem?.mp ht
  obtain ⟨u, hu, hun⟩ := hI.called n t hn hk
  have hup := (hI.fits u hu).asyncs n hun
  obtain ⟨j, hj⟩ := List.mem_iff_getElem?.mp hu
  have hij : i ≠ j := by
    rintro rfl
    cases ho.symm.trans hj
    rw [hidle] at hun
    cases hun
  have := Family.le_total_of_ne Owner.references ho hj hij
  rw [hI.references, h1] at this
  omega

theorem drop_inv (hI : Inv c) (ho : c.threads[i]? = some o) (hidle : o.doing = .idle) (hpos : 0 < o.references)
    (h : drop c.shared o = some (s', o', new)) : Inv ⟨s', c.threads.set i o' ++ new⟩ := by
  have h0 := hI.references_pos ho hpos
  have howners := hI.owners_pos h0
  have hn := hI.queue.notify.resolve_right howners
  have hO := hI.queue.alive h0
  have hD := hI.dies
  have hW := hI.owners
  have hfo := hI.fits o (Family.mem_of_get ho)
  have hjob : ∀ x, o.role = .job x → c.shared.runs x = true := by
    intro x hx
    have h2 := (hfo.jobs x hx).2
    rw [hidle] at h2
    exact (h2.resolve_left (by simp)).resolve_left (by simp)
  unfold drop at h
  split at h
  next h1 =>
    simp only [Option.map_eq_some_iff, Prod.mk.injEq] at h
    obtain ⟨q, hq, rfl, rfl, rfl⟩ := h
    obtain ⟨hs, hrun⟩ := hI.queue.run_call hn hq
    have hdet := OperationQueue.call_detaching hO (hI.alone ho hidle hpos h1) hq
    refine hI.set ho ⟨hrun, Or.inl (hs ▸ hn), fun h => absurd (Nat.sub_eq_zero_of_le h1.le) h, fun _ => Or.inl hdet,
      by simpa only [hs] using hI.queue.handled, fun hd => absurd (hI.queue.destroyed hd).1 howners⟩
      rfl (by simp) (by simp) (by simp; omega) (fun d hd => ?_)
      (hI.once_same ((destroys_eq_zero (by simp)).trans (destroys_eq_zero (by simp [hidle])).symm))
      (fun h => absurd h howners) le_rfl
      (fun _ _ x _ _ _ hr => runs_call hq hr) ⟨by simp, by simp, fun x hx => ?_⟩ ?_
    · rw [if_neg h0] at hD hW
      simp only [h1, Owner.dies, hidle, Shared.attachments, Nat.sub_self, ite_true] at hd hW ⊢
      omega
    · exact ⟨(hfo.jobs x hx).1, Or.inr (Or.inr (runs_call hq (hjob x hx)))⟩
    · intro n t ht hk
      rcases hdet.kinds t (Family.mem_of_get ht) with h | h <;> rw [hk] at h <;> cases h
  next h1 =>
    cases h
    have h0' : c.shared.references - 1 ≠ 0 := by omega
    refine hI.set ho ⟨hI.queue.run, hI.queue.notify, fun _ => hO, fun h => absurd h h0', hI.queue.handled,
      hI.queue.destroyed⟩ rfl (by simp) (by simp) (by simp; omega) (fun d hd => ?_) (hI.once_same rfl) id le_rfl
      (fun _ _ _ _ _ _ h => h)
      ⟨by simp [hidle], by simp [hidle], fun x hx => ⟨(hfo.jobs x hx).1, Or.inr (Or.inr (hjob x hx))⟩⟩
      (hI.called.step ho rfl (by simp [hidle]))
    simp only [if_neg h0, if_neg h0', Owner.dies, hidle, Shared.attachments] at hd hD hW ⊢
    omega

theorem release_inv (hI : Inv c) (ho : c.threads[i]? = some o) (hd : o.doing = .release)
    (hs' : s' = { c.shared with owners := c.shared.owners - 1 })
    (ho' : o' = { o with doing := if c.shared.owners = 1 then .destroy else .idle }) :
    Inv ⟨s', c.threads.set i o' ++ []⟩ := by
  have hfo := hI.fits o (Family.mem_of_get ho)
  have hdies := Family.le_total Owner.dies (Family.mem_of_get ho)
  have hD := hI.dies
  have hW := hI.owners
  have hone : o.dies = 1 := by simp [Owner.dies, hd]
  have h0 : c.shared.references = 0 := by
    by_contra h0
    rw [if_neg h0] at hD
    omega
  have hzero : o'.dies = 0 := by
    rw [ho']
    unfold Owner.dies
    split <;> rename_i h <;> split at h <;> first | cases h | rfl
  have hjob : ∀ x, o.role = .job x → c.shared.runs x = true := by
    intro x hx
    have h2 := (hfo.jobs x hx).2
    rw [hd] at h2
    exact (h2.resolve_left (by simp)).resolve_left (by simp)
  rw [if_pos h0] at hD hW
  subst hs'
  refine hI.set ho ⟨hI.queue.run, hI.queue.notify.imp_right fun h => by simp [h], hI.queue.alive, hI.queue.dead,
    hI.queue.handled, fun h => ⟨by simp [(hI.queue.destroyed h).1], (hI.queue.destroyed h).2⟩⟩ (by rw [ho']) (by simp)
    (by simp) (by simp [ho']) (fun d hdd => ?_) (fun d hdd => ?_) (fun h => by simp [h]) le_rfl (fun _ _ _ _ _ _ h => h)
    ⟨fun n hn => ?_, fun hn => ?_, fun x hx => ?_⟩ (hI.called.step ho rfl (by simp [hd]))
  · simp only [h0, ite_true, Shared.attachments] at hW ⊢
    rw [hzero, hone] at hdd
    omega
  · have h := hI.once
    rw [if_neg (by omega)] at h
    rw [destroys_eq_zero (o := o) (by simp [hd]), ho'] at hdd
    simp only [Owner.destroys] at hdd ⊢
    by_cases h1 : c.shared.owners = 1
    · simp [h1] at hdd ⊢
      omega
    · simp [h1] at hdd
      omega
  · rw [ho'] at hn
    simp only [] at hn
    split at hn <;> cases hn
  · have h1 : c.shared.owners = 1 := by
      by_contra h1
      rw [ho', if_neg h1] at hn
      cases hn
    refine ⟨by simp [h1], fun x hx => ?_⟩
    -- a job that runs is before the request to detach
    have hclosed := hI.queue.closed (by omega)
    rw [ho'] at hx
    exact absurd (hjob x hx) (by rw [Closed.not_runs hclosed]; simp)
  · rw [ho'] at hx
    exact ⟨(hfo.jobs x hx).1, Or.inr (Or.inr (hjob x hx))⟩

/-- Nothing of the queue is left when its destructor finds no active drain. -/
theorem QueueInv.finished (hQ : QueueInv s) (hC : Closed s.queue) (hl : s.queue.shared.locked = false)
    (ha : s.queue.shared.activeDrain = false) : ∀ t ∈ s.queue.threads, t = .returned := by
  obtain ⟨tr, hr, hA⟩ := hQ.run
  have hI := (OperationQueue.run_wakeInv hr hA).inv
  have hscoped := OperationQueue.run_scoped hr
  have hmutex := hI.mutex
  simp only [restored, hl, ha, Bool.toNat_false, Family.total_eq_zero] at hscoped hmutex
  intro t ht
  have h1 := hmutex t ht
  have h2 := hscoped t ht
  have h3 := hC.ends t ht
  cases t with
  | returned => rfl
  | holding p | deadlocked => cases h1
  | lock p => cases p <;> first | cases h3 | cases h2
  | _ => cases h3

theorem destroy_inv (hI : Inv c) (ho : c.threads[i]? = some o) (hd : o.doing = .destroy)
    (h : destroy c.shared o = some (s', o', new)) : Inv ⟨s', c.threads.set i o' ++ new⟩ := by
  have hfo := hI.fits o (Family.mem_of_get ho)
  obtain ⟨howners, hrole⟩ := hfo.destroys hd
  have hC := hI.closed howners
  have hW := hI.owners
  have h0 : c.shared.references = 0 := by
    by_contra h0
    rw [if_neg h0] at hW
    omega
  have hQ := hI.queue
  unfold destroy at h
  split at h
  · cases h
  next hl =>
    cases h
    have hl : c.shared.queue.shared.locked = false := by simpa using hl
    have hC' : Closed { c.shared.queue with shared := { c.shared.queue.shared with notifyOperation := false } } :=
      ⟨hC.manager, hC.jobs, hC.ends⟩
    have hdies : ∀ b : Bool, ({ o with doing := if b = true then .destroy else .idle } : Owner).dies = 0 := by
      intro b
      cases b <;> rfl
    have hasync : ∀ (b : Bool) n, (if b = true then Doing.destroy else .idle) ≠ .async n := by
      intro b n
      cases b <;> simp
    refine hI.set ho ⟨hQ.run, Or.inr howners, fun h => absurd h0 h, fun _ => Or.inr (Or.inr hC'), hQ.handled,
      fun hx => ⟨howners, hQ.finished hC hl (by simpa using hx)⟩⟩ rfl (by simp) (by simp) rfl (fun d hdd => ?_)
      (fun d hdd => ?_) id le_rfl (fun _ _ _ _ _ _ h => h)
      ⟨fun n hn => absurd hn (hasync _ n), fun _ => ⟨howners, hrole⟩, fun x hx =>
        absurd hx (hrole x)⟩ fun n t ht hk => ?_
    · rw [hdies] at hdd
      have hone : o.dies = 0 := by simp [Owner.dies, hd]
      rw [hone] at hdd
      rw [Nat.add_right_cancel hdd]
      exact ⟨hI.dies, hI.owners⟩
    · have h := hI.once
      rw [if_pos howners] at h
      simp only [Owner.destroys, hd, if_pos howners, ite_true] at hdd ⊢
      by_cases ha : c.shared.queue.shared.activeDrain = true <;> simp [ha] at hdd ⊢ <;> omega
    · have := OperationQueue.ends_kind (hC.ends t (Family.mem_of_get ht))
      rw [hk] at this
      rcases this with h | h <;> cases h

/-- The manager takes over the part of the request to attach, and gives it up with that to detach. -/
theorem handle_inv (hI : Inv c) (ho : c.threads[i]? = some o) (hd : o.doing = .idle) (hrole : o.role = .manager)
    (h : handle c.shared o = some (s', o', new)) : Inv ⟨s', c.threads.set i o' ++ new⟩ := by
  have hfo := hI.fits o (Family.mem_of_get ho)
  have hQ := hI.queue
  have hW := hI.owners
  have hone : o.dies = 0 := by simp [Owner.dies, hd]
  simp only [handle, Option.map_eq_some_iff] at h
  obtain ⟨r, hr, h⟩ := h
  have hnext : c.shared.handled = 0 ∧ c.shared.registered = 0 ∧ r = .attach ∨
      c.shared.handled = 1 ∧ c.shared.registered = 1 ∧ r = .detach ∧ Closed c.shared.queue := by
    rcases hQ.handled with ⟨h1, h2⟩ | ⟨h1, h2⟩ | ⟨h1, h2, h3⟩ <;> rcases hQ.manager with hm | ⟨hm, hC⟩ <;>
      rw [h1, hm] at hr <;> cases hr
    · exact Or.inl ⟨h1, h2, rfl⟩
    · exact Or.inl ⟨h1, h2, rfl⟩
    · exact Or.inr ⟨h1, h2, rfl, hC⟩
  rcases hnext with ⟨h1, h2, rfl⟩ | ⟨h1, h2, rfl, hC⟩
  · cases h
    refine hI.set ho ⟨hQ.run, hQ.notify, hQ.alive, hQ.dead, Or.inr (Or.inl ⟨by simp [h1], by simp [h2]⟩), hQ.destroyed⟩ rfl
      (by simp) (by simp) rfl (fun d hdd => ?_) (hI.once_same rfl) id le_rfl (fun _ _ _ _ _ _ h => h)
      ⟨by simp [hd], by simp [hd], by simp [hrole]⟩
      (hI.called.step ho rfl (by simp [hd]))
    rw [Nat.add_right_cancel hdd]
    refine ⟨hI.dies, ?_⟩
    simpa [Shared.attachments, h1] using hW
  · have hm := hC.manager
    cases h
    have hdies : ({ o with doing := if c.shared.registered ≠ 0 ∧ c.shared.owners = c.shared.registered then .destroy
        else .idle } : Owner).dies = 0 := by
      unfold Owner.dies
      split <;> rename_i h <;> split at h <;> first | cases h | rfl
    refine hI.set ho ⟨hQ.run, hQ.notify.imp_right fun h => by simp [h], hQ.alive, hQ.dead,
      Or.inr (Or.inr ⟨by simp [h1], rfl, hm⟩), fun h => ⟨by simp [(hQ.destroyed h).1], (hQ.destroyed h).2⟩⟩ rfl (by simp)
      (by simp) rfl (fun d hdd => ?_) (fun d hdd => ?_) (fun h => by simp [h]) le_rfl (fun _ _ _ _ _ _ h => h)
      ⟨fun n hn => ?_, fun hn => ?_, by simp [hrole]⟩ (hI.called.step ho rfl (by simp [hd]))
    · rw [hdies, hone] at hdd
      rw [Nat.add_right_cancel hdd]
      refine ⟨hI.dies, ?_⟩
      simp only [Shared.attachments, h1, h2] at hW ⊢
      simp at hW ⊢
      omega
    · have h := hI.once
      simp only [Shared.attachments, h1] at hW
      rw [if_neg (by simp at hW; omega)] at h
      rw [destroys_eq_zero (o := o) (by simp [hd])] at hdd
      simp only [Owner.destroys, h2] at hdd ⊢
      by_cases h3 : c.shared.owners = 1
      · simp [h3] at hdd ⊢
        omega
      · simp [h3] at hdd
        omega
    · simp only [] at hn
      split at hn <;> cases hn
    · have h3 : c.shared.owners = c.shared.registered := by
        by_contra h3
        simp [h3] at hn
      exact ⟨by simp [h3], by simp [hrole]⟩

theorem finish_inv (hI : Inv c) (ho : c.threads[i]? = some o) {n : Nat} (h : finish c.shared o n = some (s', o', new)) :
    Inv ⟨s', c.threads.set i o' ++ new⟩ := by
  have hQ := hI.queue
  unfold finish at h
  split at h
  next x y r hrole ht =>
    split at h
    next hc =>
      obtain ⟨rfl, hidle, -⟩ := hc
      simp only [Option.map_eq_some_iff, Prod.mk.injEq] at h
      obtain ⟨q, hq, rfl, rfl, rfl⟩ := h
      have hx := ((hI.fits o (Family.mem_of_get ho)).jobs x hrole).1
      refine hI.set ho (hQ.next hI.closed hq) rfl (by simp) (by simp) rfl (fun d hd => ?_)
        (hI.once_same ((destroys_eq_zero (by simp)).trans (destroys_eq_zero (by simp [hidle])).symm)) id le_rfl
        (fun j u y hij hu hy => runs_next hq fun r' hr' => ?_) ⟨by simp, by simp, fun y hy => ?_⟩ fun n t hn hk => ?_
      · have hone : o.dies = 0 := by simp [Owner.dies, hidle]
        rw [hone] at hd
        rw [Nat.add_right_cancel hd]
        exact ⟨hI.dies, hI.owners⟩
      · -- the thread runs the job of this owner, and of no other
        cases ht.symm.trans hr'
        exact hij (hI.distinct j i u o x hu ho hy hrole)
      · cases hrole.symm.trans hy
        exact ⟨hx, Or.inr (Or.inl rfl)⟩
      · obtain ⟨t', hn', hk'⟩ := hQ.called hq hn hk
        obtain ⟨u, hu, hun⟩ := hI.called n t' hn' hk'
        refine ⟨u, Family.mem_step_of_ne ho hu ?_ _ _, hun⟩
        rintro rfl
        rw [hidle] at hun
        cases hun
    · cases h
  · cases h

theorem step_inv (hI : Inv c) (ho : c.threads[i]? = some o) (h : o.step c.shared = some (s', o', new)) :
    Inv ⟨s', c.threads.set i o' ++ new⟩ := by
  have hfo := hI.fits o (Family.mem_of_get ho)
  have returned : ∀ {n : Nat}, c.shared.returned n = true → ∀ t, c.shared.queue.threads[n]? = some t → t.kind ≠ .call := by
    intro n hr t ht
    have : t = .returned := by simpa [Shared.returned, ht] using hr
    simp [this, OperationQueue.Thread.kind]
  unfold Owner.step at h
  cases hd : o.doing with
  | queued =>
    simp only [hd] at h
    split at h
    next x hrole =>
      split at h
      next hr =>
        cases h
        refine hI.goes ho (by simp [Owner.dies, hd]) ?_ ⟨by simp, by simp, fun y hy => ?_⟩ (by simp [hd])
        · exact (destroys_eq_zero (by simp)).trans (destroys_eq_zero (by simp [hd])).symm
        · cases hrole.symm.trans hy
          exact ⟨(hfo.jobs x hrole).1, Or.inr (Or.inr hr)⟩
      · cases h
    · cases h
  | idle =>
    simp only [hd] at h
    split at h
    next hrole => exact handle_inv hI ho hd hrole h
    · cases h
  | async n =>
    simp only [hd] at h
    split at h
    next hr =>
      cases h
      refine hI.goes ho (by simp [Owner.dies, hd]) ?_ ⟨by simp, by simp, fun x hx => ?_⟩ fun m hm => ?_
      · exact (destroys_eq_zero (by simp)).trans (destroys_eq_zero (by simp [hd])).symm
      · obtain ⟨h1, h2⟩ := hfo.jobs x hx
        rw [hd] at h2
        exact ⟨h1, Or.inr (Or.inr ((h2.resolve_left (by simp)).resolve_left (by simp)))⟩
      · cases hd.symm.trans hm
        exact returned hr
    · cases h
  | detach n =>
    simp only [hd] at h
    split at h
    · cases h
      refine hI.goes ho (by simp [Owner.dies, hd]) ?_ ⟨by simp, by simp, fun x hx => ?_⟩ (by simp [hd])
      · exact (destroys_eq_zero (by simp)).trans (destroys_eq_zero (by simp [hd])).symm
      · obtain ⟨h1, h2⟩ := hfo.jobs x hx
        rw [hd] at h2
        exact ⟨h1, Or.inr (Or.inr ((h2.resolve_left (by simp)).resolve_left (by simp)))⟩
    · cases h
  | release =>
    simp only [hd] at h
    cases h
    exact release_inv hI ho hd rfl rfl
  | destroy =>
    simp only [hd] at h
    exact destroy_inv hI ho hd h
  | done =>
    simp only [hd] at h
    cases h

/-! ## Runs -/

theorem act_inv (hI : Inv c) {e : Choice} (ho : c.threads[i]? = some o) (h : act c.shared o e = some (s', o', new)) :
    Inv ⟨s', c.threads.set i o' ++ new⟩ := by
  cases e with
  | async captures =>
    simp only [act, Owner.uses, Option.ite_none_right_eq_some] at h
    exact async_inv hI ho h.1.1 h.1.2 h.2
  | copy =>
    simp only [act, Owner.uses, Option.ite_none_right_eq_some] at h
    obtain ⟨⟨hidle, hpos⟩, h⟩ := h
    cases h
    exact share_inv hI ho hidle hpos rfl hidle (by simp) (by simp) (by simp; omega)
  | share =>
    simp only [act, Owner.uses, Option.ite_none_right_eq_some] at h
    obtain ⟨⟨hidle, hpos⟩, h⟩ := h
    cases h
    exact share_inv hI ho hidle hpos rfl hidle (by simp) (by simp) (by simp; omega)
  | drop =>
    simp only [act, Owner.uses, Option.ite_none_right_eq_some] at h
    exact drop_inv hI ho h.1.1 h.1.2 h.2
  | step => exact step_inv hI ho h
  | finish n => exact finish_inv hI ho h
  | inner => cases h

theorem call_inv (hI : Inv c) {e : Choice} (h : call c.shared e = some (s', new)) : Inv ⟨s', c.threads ++ new⟩ := by
  cases e with
  | inner n =>
    have hQ := hI.queue
    have hsplit : (∀ x r, c.shared.queue.threads[n]? ≠ some (.drainRunning (.operation x) r)) ∧
        (operationQueue.next c.shared.queue (.act n .step)).map (fun q => ({ c.shared with queue := q }, [])) =
          some (s', new) := by
      simp only [call] at h
      split at h
      · cases h
      next hne => exact ⟨hne, h⟩
    obtain ⟨hne, h⟩ := hsplit
    simp only [Option.map_eq_some_iff, Prod.mk.injEq] at h
    obtain ⟨q, hq, rfl, rfl⟩ := h
    rw [List.append_nil]
    refine ⟨hQ.next hI.closed hq, hI.references, hI.dies, hI.owners, hI.once, fun o ho => ?_, fun m t hm hk => ?_,
      hI.distinct⟩
    · exact (hI.fits o ho).mono id le_rfl fun x _ hr => runs_next hq (hne x) hr
    · obtain ⟨t', hm', hk'⟩ := hQ.called hq hm hk
      exact hI.called m t' hm' hk'
  | _ => cases h

theorem initial_inv : Inv initial := by
  have hkinds : ∀ t ∈ constructed.threads, t.kind = .call ∨ t.kind = .other := by decide
  have hrun : operationQueue.Run OperationQueue.initial
      (operationQueue.path OperationQueue.initial (.call .attach :: List.replicate 4 (.act 0 .step))) constructed :=
    Program.run_last (by decide)
  have hrest : restored initial.shared.queue = constructed := restored_eq (s := initial.shared) (by decide)
  refine ⟨⟨⟨_, hrest ▸ hrun, by decide⟩, Or.inl (by decide), fun _ => ⟨by decide, by decide, by decide,
    hkinds⟩, by simp [initial], by simp [initial], by simp [initial]⟩, rfl, by decide, by decide, by decide, ?_, ?_, ?_⟩
  · intro o ho
    simp only [initial, List.mem_cons, List.not_mem_nil, or_false] at ho
    rcases ho with rfl | rfl <;> exact ⟨by simp, by simp, by simp⟩
  · intro n t ht hk
    have : ∀ t ∈ constructed.threads, t.kind ≠ .call := by decide
    exact absurd hk (this t (Family.mem_of_get ht))
  · intro j k u v x hj hk hx hy
    have : ∀ o ∈ initial.threads, ∀ x, o.role ≠ .job x := by
      simp [initial]
    exact absurd hx (this u (Family.mem_of_get hj) x)

theorem run_inv {tr : List (Config Shared Owner × Label Choice)} (h : lifetime.Run initial tr c) : Inv c :=
  h.invariant_by initial_inv (fun _ _ _ _ hI _ hc => call_inv hI hc) (fun _ _ _ _ _ _ _ hI _ ht ha => act_inv hI ht ha)
    Program.along_true

structure Sound (c : Config Shared Owner) : Prop where
  returned : c.shared.destroyed = true → ∀ t ∈ c.shared.queue.threads, t = .returned
  executed : c.shared.destroyed = true → c.shared.queue.shared.jobs = [] ∧
    c.shared.queue.shared.started = c.shared.queue.shared.appended
  untouched : c.shared.destroyed = true → ∀ l c', lifetime.next c l = some c' → c'.shared.queue = c.shared.queue
  outside : ∀ o ∈ c.threads, ∀ x, o.role = .job x → o.doing ≠ .destroy

theorem Inv.executed (hI : Inv c) (hd : c.shared.destroyed = true) : c.shared.queue.shared.jobs = [] ∧
    c.shared.queue.shared.started = c.shared.queue.shared.appended := by
  have hret := (hI.queue.destroyed hd).2
  obtain ⟨tr, hr, hA⟩ := hI.queue.run
  have hW := OperationQueue.run_wakeInv hr hA
  have hO := OperationQueue.run_inOrder hr
  have hzero : Family.total OperationQueue.Thread.drains c.shared.queue.threads = 0 :=
    Family.total_eq_zero.mpr fun t ht => by rw [hret t ht]; rfl
  have hjobs : c.shared.queue.shared.jobs = [] := by
    have h := hW.drains
    rw [show (restored c.shared.queue).threads = c.shared.queue.threads from rfl, hzero] at h
    by_contra hne
    have := OperationQueue.busy_pos (s := (restored c.shared.queue).shared).mpr hne
    omega
  refine ⟨hjobs, ?_⟩
  obtain ⟨waiting, happ, hw⟩ := hO.kept
  have htaken : Family.total (fun t : OperationQueue.Thread => (t.taken : Multiset OperationQueue.Job))
      c.shared.queue.threads = 0 := by
    rw [Family.total_congr (g := fun _ => 0) fun t ht => by rw [hret t ht]; rfl]
    simp [Family.total]
  have hnil : waiting = [] := by
    rw [show (restored c.shared.queue).threads = c.shared.queue.threads from rfl, htaken] at hw
    rw [show (restored c.shared.queue).shared.jobs = c.shared.queue.shared.jobs from rfl, hjobs] at hw
    simpa using hw
  rw [hnil, List.append_nil] at happ
  exact happ.symm

theorem step_queue (hne : o.doing ≠ .destroy) (h : o.step s = some (s', o', new)) : s'.queue = s.queue := by
  unfold Owner.step at h
  cases hd : o.doing with
  | queued =>
    simp only [hd] at h
    split at h
    · split at h
      · cases h
        rfl
      · cases h
    · cases h
  | idle =>
    simp only [hd] at h
    split at h
    · simp only [handle, Option.map_eq_some_iff] at h
      obtain ⟨r, -, h⟩ := h
      cases r <;> cases h <;> rfl
    · cases h
  | async | detach =>
    simp only [hd] at h
    split at h
    · cases h
      rfl
    · cases h
  | release =>
    simp only [hd] at h
    cases h
    rfl
  | destroy => exact absurd hd hne
  | done =>
    simp only [hd] at h
    cases h

theorem Inv.untouched (hI : Inv c) (hd : c.shared.destroyed = true) {l : Label Choice} {c' : Config Shared Owner}
    (h : lifetime.next c l = some c') : c'.shared.queue = c.shared.queue := by
  obtain ⟨howners, hret⟩ := hI.queue.destroyed hd
  have hW := hI.owners
  have h0 : c.shared.references = 0 := by
    by_contra h0
    rw [if_neg h0] at hW
    omega
  have hnext : ∀ n, operationQueue.next c.shared.queue (.act n .step) = none := by
    intro n
    cases ht : c.shared.queue.threads[n]? with
    | none => simp [Program.next, ht]
    | some t => simp [Program.next, ht, hret t (Family.mem_of_get ht), operationQueue, OperationQueue.act]
  cases l with
  | call e =>
    obtain ⟨s', new, hc, rfl⟩ := Program.next_call h
    cases e with
    | inner n =>
      simp only [lifetime, call, hnext] at hc
      split at hc <;> cases hc
    | _ => cases hc
  | act i e =>
    obtain ⟨o, s', o', new, ho, ha, rfl⟩ := Program.next_act h
    have hnone : ∀ {r}, o.uses r ≠ some (s', o', new) := by
      intro r hr
      simp only [Owner.uses, Option.ite_none_right_eq_some] at hr
      exact hI.references_pos ho hr.1.2 h0
    cases e with
    | async | copy | share | drop => exact absurd ha hnone
    | inner => cases ha
    | finish n =>
      change finish c.shared o n = _ at ha
      unfold finish at ha
      split at ha
      · split at ha
        · simp [hnext] at ha
        · cases ha
      · cases ha
    | step =>
      change o.step c.shared = _ at ha
      refine step_queue (fun hd' => ?_) ha
      have h1 := hI.once
      have h2 := Family.le_total Owner.destroys (Family.mem_of_get ho)
      rw [if_pos howners, hd] at h1
      simp only [Owner.destroys, hd', ite_true, Bool.toNat_true] at h1 h2
      omega

/-- **Lifetime.** When `~operation_queue` is done, no wakeup and no drain of the queue is left and no step touches
it any more; all its jobs have been executed. No job of the queue runs the destructor. -/
theorem run_sound {tr : List (Config Shared Owner × Label Choice)} (h : lifetime.Run initial tr c) : Sound c := by
  have hI := run_inv h
  exact ⟨fun hd => (hI.queue.destroyed hd).2, hI.executed, fun hd _ _ => hI.untouched hd, fun o ho x hx hd =>
    ((hI.fits o ho).destroys hd).2 x hx⟩

/-- The job drops the last reference, and the manager waits for the end of the last drain. -/
def ownJob : List (Label Choice) :=
  Label.act 1 (Choice.async (some 1)) :: List.replicate 4 (.call (.inner 1)) ++
    [Label.act 1 Choice.step, .act 1 .drop] ++ List.replicate 5 (Label.call (Choice.inner 2)) ++
    [Label.act 2 Choice.step, .act 2 .drop] ++ List.replicate 5 (Label.call (Choice.inner 3)) ++
    [Label.act 2 Choice.step, .act 2 .step, .act 2 (.finish 2)] ++ List.replicate 5 (Label.call (Choice.inner 2)) ++
    List.replicate 6 (Label.call (Choice.inner 4)) ++ List.replicate 3 (Label.act 0 Choice.step) ++
    List.replicate 4 (Label.call (Choice.inner 4)) ++ [Label.act 0 Choice.step]

theorem run_sound_own_job : Sound (lifetime.last initial ownJob) ∧
    (lifetime.last initial ownJob).shared.destroyed = true :=
  ⟨run_sound (Program.run_last (by decide)), by decide⟩

end

end Xdispatch.Lifetime
