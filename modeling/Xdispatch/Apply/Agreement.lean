import Xdispatch.Apply.Steps

/-!
# What `apply` has done when it returns

Whatever the queue, its operation has been executed once with each index and with
no other. If the queue is a serial one, in the order of the indices.
-/

namespace Xdispatch.Apply

section
variable {σ τ ε : Type} {E : Executor σ τ ε} {s s' : Shared σ τ} {q : Config σ (τ × Body)} {e : ε} {a i x : Nat}
  {t t' : τ} {new : List τ} {σ' : σ} {op : Option (Nat × Nat)} {u : Thread}

/-! ## Calls of the queue -/

theorem QueueInv.grow (hQ : QueueInv E s) (op : Option (Nat × Nat)) : QueueInv E { s with ops := s.ops ++ [op] } := by
  have hlen : ∀ {x}, x < s.ops.length → x < (s.ops ++ [op]).length := fun h => by
    rw [List.length_append]
    omega
  exact ⟨hQ.run, fun x hx => hlen (hQ.added x hx), fun p hp x hx => hlen (hQ.adding p hp x hx),
    fun p hp x hx => ⟨hlen (hQ.running p hp x hx).1, (hQ.running p hp x hx).2⟩, hQ.idle, hQ.executed⟩

theorem Thread.Fits.grow (hE : E.Lawful) (hQ : QueueInv E s) (hf : u.Fits E s) (op : Option (Nat × Nat)) :
    u.Fits E { s with ops := s.ops ++ [op] } := by
  have hv : view E { s with ops := s.ops ++ [op] } u.id = view E s u.id := view_grow hE hQ
  refine ⟨hf.posted.keep (by rw [hv]) (by rw [hv]) fun n k h => ?_, hf.waited.mono (by rw [hv]) (by rw [hv])
    fun n _ h => Or.inl h, by rw [hv]; exact hf.consumed, by rw [hv]; exact hf.completed⟩
  obtain ⟨p, x, hp, hx, hk⟩ := h
  exact ⟨p, x, hp, hx, (indexOf_grow s.ops (hQ.adding p (Family.mem_of_get hp) x hx)).trans hk⟩

theorem Thread.Fits.append (hf : u.Fits E s) (hk : E.Keeps s.queue.shared σ') (h0 : addsOf E s.ops u.id new = 0) :
    u.Fits E { s with queue := ⟨σ', s.queue.threads ++ idles new⟩ } := by
  have hv := view_append (E := E) (a := u.id) hk new
  rw [h0, add_zero] at hv
  refine ⟨hf.posted.keep (by rw [hv]) (by rw [hv]) fun n k h => ?_, hf.waited.mono (by rw [hv]) (by rw [hv])
    fun n _ h => Or.inl ?_, by rw [hv]; exact hf.consumed, by rw [hv]; exact hf.completed⟩
  · obtain ⟨p, x, hp, hx, hk⟩ := h
    exact ⟨p, x, Family.get_append hp _, hx, hk⟩
  · obtain ⟨p, hp, hw⟩ := h
    exact ⟨p, Family.get_append hp _, hw⟩

theorem QueueInv.run_append (hQ : QueueInv E s) {q' : Config σ (τ × Body)} {l : Label ε}
    (h : E.program.next (erase s.queue) l = some (erase q')) : ∃ tr, E.program.Run E.initial tr (erase q') := by
  obtain ⟨tr, hr⟩ := hQ.run
  exact ⟨_, hr.snoc h⟩

theorem start_eq (hE : E.Lawful) (h : s.start (E := E) op = some s') : ∃ σ' t,
    E.Keeps s.queue.shared σ' ∧ E.adding t = some s.ops.length ∧ E.running t = none ∧
      s' = { s with queue := ⟨σ', s.queue.threads ++ idles [t]⟩, ops := s.ops ++ [op] } ∧
        ∃ e, E.program.next (erase s.queue) (.call e) = some (erase s'.queue) := by
  simp only [Shared.start, Option.map_eq_some_iff] at h
  obtain ⟨q, hq, rfl⟩ := h
  obtain ⟨σ', new, hc, rfl, hn⟩ := lifted_call hq
  obtain ⟨hk, t, rfl, ha, hr⟩ := hE.async _ _ _ _ hc
  exact ⟨σ', t, hk, ha, hr, rfl, _, hn⟩

theorem start_inv (hE : E.Lawful) (hQ : QueueInv E s) (h : s.start (E := E) op = some s') : QueueInv E s' := by
  obtain ⟨σ', t, hk, ha, hr, rfl, e, hn⟩ := start_eq hE h
  refine (hQ.grow op).append hk (fun t' ht' => ?_) (hQ.run_append hn)
  cases List.mem_singleton.mp ht'
  refine ⟨hr, fun x hx => ?_⟩
  rw [ha] at hx
  cases hx
  simp

theorem start_adds (ha : E.adding t = some s.ops.length) : addsOf E (s.ops ++ [op]) a [t] =
    ((op.bind fun p => if p.1 = a then some p.2 else none).toList : Multiset Nat) := by
  have := indexOf_new (a := a) op s.ops
  simp only [addsOf, Family.total_cons, Family.total_nil, add_zero, ha, Option.toList_some, indices]
  cases h : op.bind fun p => if p.1 = a then some p.2 else none <;> simp [this, h]

theorem start_fits (hE : E.Lawful) (hQ : QueueInv E s) (h : s.start (E := E) op = some s') (hf : u.Fits E s)
    (hop : ∀ p, op = some p → p.1 ≠ u.id) : u.Fits E s' := by
  obtain ⟨σ', t, hk, ha, -, rfl, -⟩ := start_eq hE h
  refine (hf.grow hE hQ op).append hk ?_
  rw [start_adds ha]
  cases op with
  | none => rfl
  | some p => simp [hop p rfl]

theorem post_fits (hE : E.Lawful) (hQ : QueueInv E s) (h : s.start (E := E) (some (u.id, i)) = some s')
    (hf : u.Fits E s) (hph : u.phase = .loop i) (hi : i < u.times) :
    { u with phase := .async i s.queue.threads.length }.Fits E s' := by
  obtain ⟨σ', t, hk, ha, -, rfl, -⟩ := start_eq hE h
  have hg := hf.grow hE hQ (some (u.id, i))
  have hv := view_append (E := E) (s := { s with ops := s.ops ++ [some (u.id, i)] }) (a := u.id) hk [t]
  have hadds : addsOf E (s.ops ++ [some (u.id, i)]) u.id [t] = {i} := by
    rw [start_adds ha]
    simp
  simp only [hadds] at hv
  have hp := hg.posted
  rw [hph] at hp
  refine ⟨⟨hi, Or.inr ⟨?_, ?_, ?_⟩⟩, trivial, ?_, ?_⟩
  · rw [hv]
    exact hp.2.1
  · rw [hv]
    change (view E { s with ops := s.ops ++ [some (u.id, i)] } u.id).adds + {i} = {i}
    rw [hp.2.2, zero_add]
  · refine ⟨(t, .idle), s.ops.length, ?_, ha, ?_⟩
    · simp [idles]
    · rw [indexOf_new]
      simp
  · rw [hv]
    exact hg.consumed
  · rw [hv]
    exact hg.completed

/-! ## Every step of the queue -/

/-- The queue and all calls of `apply` still fit. -/
structure Keeps (E : Executor σ τ ε) (s s' : Shared σ τ) : Prop where
  queue : QueueInv E s'
  consumables : s'.consumables.length = s.consumables.length
  ops : s'.ops = s.ops
  fits : ∀ u : Thread, u.Fits E s → u.Fits E s'

theorem idle_keeps (hQ : QueueInv E s) {q' : Config σ (τ × Body)} (h : (lifted E).next s.queue (.call e) = some q')
    (hE : ∀ σ' new, E.program.call s.queue.shared e = some (σ', new) → E.Keeps s.queue.shared σ' ∧ ∀ t ∈ new, E.Idle t) :
    Keeps E s { s with queue := q' } := by
  obtain ⟨σ', new, hc, rfl, hn⟩ := lifted_call h
  obtain ⟨hk, hidle⟩ := hE _ _ hc
  refine ⟨hQ.append hk (fun t ht => ⟨(hidle t ht).2, fun x hx => ?_⟩) (hQ.run_append hn), rfl, rfl, fun u hu =>
    hu.append hk (addsOf_idle s.ops hidle)⟩
  rw [(hidle t ht).1] at hx
  cases hx

theorem move_keeps (hE : E.Lawful) (hQ : QueueInv E s) {b b' : Body} (ht : s.queue.threads[i]? = some (t, b))
    (ha : E.program.act s.queue.shared t e = some (σ', t', new)) (hp : Passes E t b t' b') :
    Keeps E s (s.move i σ' t' b' new) := by
  obtain ⟨hm, hnew⟩ := hE.act _ _ _ _ _ _ ha
  have hn : E.program.next (erase s.queue) (.act i e) = some (erase (s.move i σ' t' b' new).queue) := by
    simp [Program.next, erase, Shared.move, ht, ha, List.map_set]
  obtain ⟨tr, hr⟩ := hQ.run
  have hget : (erase (s.move i σ' t' b' new).queue).threads[i]? = some t' := by
    simp only [Shared.move, erase, List.map_append, List.map_set]
    exact Family.get_step (a := t) (by simp [ht]) _ _
  have hw : Waits E t t' (s.move i σ' t' b' new) := fun hw =>
    hE.waited tr _ i e _ t t' hr (by simp [erase, ht]) hw hn hget
  have hQ' := hQ.move hE ht hm hp hnew (hQ.run_append hn)
  exact ⟨hQ', rfl, rfl, fun u hu => hu.move ht hm hp hnew hQ' hw⟩

theorem act_keeps (hE : E.Lawful) (hQ : QueueInv E s) {q' : Config σ (τ × Body)}
    (h : (lifted E).next s.queue (.act i e) = some q') : Keeps E s { s with queue := q' } := by
  obtain ⟨t, b, σ', t', new, ht, hr, ha, rfl, -⟩ := lifted_act h
  exact move_keeps hE hQ ht ha (Or.inl ⟨hr, hQ.idle _ (Family.mem_of_get ht) hr, rfl⟩)

theorem body_keeps (hE : E.Lawful) (hQ : QueueInv E s) {b : Body} (ht : s.queue.threads[i]? = some (t, b))
    (hx : E.running t = some x) (h : s.body (E := E) i t x b = some s') : Keeps E s s' := by
  cases b with
  | idle => cases h
  | execute =>
    cases h
    refine ⟨hQ.setBody ht hx ?_ rfl rfl ?_, rfl, rfl, fun u hu => execute_fits hu ht hx⟩
    · split <;> simp
    · rw [if_neg (by split <;> simp)]
      simp only [Multiset.coe_nil, add_zero, ite_true]
      exact (Multiset.coe_add _ _).symm
  | consume =>
    simp only [Shared.body, Option.map_eq_some_iff] at h
    obtain ⟨p, hp, rfl⟩ := h
    refine ⟨hQ.setBody ht hx ?_ rfl rfl ?_, ?_, rfl, fun u hu => consume_fits hE hQ hu ht hx hp⟩
    · split <;> simp
    · rw [if_neg (by split <;> simp)]
      simp
    · simp [Shared.setBody]
  | complete =>
    simp only [Shared.body, Option.map_eq_some_iff] at h
    obtain ⟨p, hp, rfl⟩ := h
    refine ⟨hQ.setBody ht hx (by simp) rfl rfl (by simp), ?_, rfl, fun u hu => complete_fits hu ht hx hp⟩
    simp [Shared.setBody]
  | «return» =>
    simp only [Shared.body, Option.map_eq_some_iff] at h
    obtain ⟨⟨σ', t', new⟩, ha, rfl⟩ := h
    exact move_keeps hE hQ ht ha (Or.inr ⟨by simp [hx], rfl, rfl⟩)

/-! ## The calls of `apply` -/

variable {c c' : Config (Shared σ τ) Thread} {l : Label (Choice ε)}

theorem Keeps.inv (hI : Inv E c) (h : Keeps E c.shared s') : Inv E ⟨s', c.threads⟩ :=
  ⟨h.queue, hI.ids, h.consumables.trans hI.consumables, fun a i ha => hI.ops a i (h.ops ▸ ha),
    fun t ht => h.fits t (hI.fits t ht)⟩

theorem Inv.set (hI : Inv E c) {i : Nat} {u u' : Thread} (hu : c.threads[i]? = some u) (hQ : QueueInv E s')
    (hcons : s'.consumables.length = c.shared.consumables.length)
    (hops : ∀ a k, some (a, k) ∈ s'.ops → some (a, k) ∈ c.shared.ops ∨ a = u.id) (hid : u'.id = u.id)
    (hf : ∀ t ∈ c.threads, t.id ≠ u.id → t.Fits E s') (hu' : u'.Fits E s') :
    Inv E ⟨s', c.threads.set i u' ++ []⟩ := by
  have hlt := (List.getElem?_eq_some_iff.mp hu).1
  have huid := hI.ids i u hu
  simp only [List.append_nil]
  refine ⟨hQ, fun j t hj => ?_, by simpa using hcons.trans hI.consumables, fun a k ha => ?_, fun t ht => ?_⟩
  · by_cases hij : i = j
    · subst hij
      rw [List.getElem?_set_self hlt] at hj
      cases hj
      exact hid.trans huid
    · rw [List.getElem?_set_ne hij] at hj
      exact hI.ids j t hj
  · rw [List.length_set]
    rcases hops a k ha with ha | rfl
    · exact hI.ops a k ha
    · rw [huid]
      exact hlt
  · obtain ⟨j, hj⟩ := List.mem_iff_getElem?.mp ht
    by_cases hij : i = j
    · subst hij
      rw [List.getElem?_set_self hlt] at hj
      cases hj
      exact hu'
    · rw [List.getElem?_set_ne hij] at hj
      refine hf t (Family.mem_of_get hj) fun he => hij ?_
      rw [← huid, ← he, hI.ids j t hj]

theorem Inv.goes (hI : Inv E c) {i : Nat} {u : Thread} {ph : Phase} (hu : c.threads[i]? = some u)
    (hp : ph.Posted E c.shared u.id u.times) (hw : ph.Waited E c.shared u.id u.times) :
    Inv E ⟨c.shared, c.threads.set i { u with phase := ph } ++ []⟩ := by
  have hf := hI.fits u (Family.mem_of_get hu)
  exact hI.set hu hI.queue rfl (fun _ _ h => Or.inl h) rfl (fun t ht _ => hI.fits t ht)
    ⟨hp, hw, hf.consumed, hf.completed⟩

/-! ## A new call -/

theorem indices_none {ops : List (Option (Nat × Nat))} (h : ∀ i, some (a, i) ∉ ops) (l : List Nat) :
    indices ops a l = [] := by
  apply List.filterMap_eq_nil_iff.mpr
  intro x _
  unfold indexOf
  cases ho : ops[x]? with
  | none => rfl
  | some o =>
    rcases o with _ | ⟨b, i⟩
    · rfl
    · have hb : b ≠ a := fun hb => h i (hb ▸ Family.mem_of_get ho)
      simp [hb]

/-- Other calls see nothing of a consumable that is new. -/
theorem view_fresh (times : Nat) (ha : a < s.consumables.length) :
    view E { s with consumables := s.consumables ++ [⟨times, false⟩] } a = view E s a := by
  simp only [view, Shared.resources, Shared.completed, List.getElem?_append_left ha]

theorem Thread.Fits.fresh {times : Nat} (hf : u.Fits E s) (ha : u.id < s.consumables.length) :
    u.Fits E { s with consumables := s.consumables ++ [⟨times, false⟩] } := by
  have hv := view_fresh (E := E) times ha
  exact ⟨hf.posted.keep (by rw [hv]) (by rw [hv]) fun _ _ h => h, hf.waited.mono (by rw [hv]) (by rw [hv])
    fun _ _ h => Or.inl h, by rw [hv]; exact hf.consumed, by rw [hv]; exact hf.completed⟩

theorem fresh_fits {times : Nat} (h : ∀ i, some (s.consumables.length, i) ∉ s.ops) :
    Thread.Fits E { s with consumables := s.consumables ++ [⟨times, false⟩] }
      ⟨s.consumables.length, times, .loop 0⟩ := by
  have hcomes : ∀ b, Family.total (comes E s.ops s.consumables.length b) s.queue.threads = 0 := fun b =>
    Family.total_eq_zero.mpr fun p _ => by simp [comes, indices_none h]
  have hadds : Family.total (fun p : τ × Body => (indices s.ops s.consumables.length (E.adding p.1).toList : Multiset Nat))
      s.queue.threads = 0 := by
    rw [Family.total_congr (g := fun _ => 0) fun p _ => by rw [indices_none h]; rfl]
    exact total_zero _
  refine ⟨⟨Nat.zero_le _, indices_none h _, hadds⟩, trivial, fun _ => ?_, ?_⟩
  · simp [view, hcomes, indices_none h, Shared.resources]
  · simp [view, hcomes, Shared.completed]

/-! ## What a step can be -/

/-- The steps of a call of `apply`: it posts the next operation, or is done with that and waits. -/
inductive Step (E : Executor σ τ ε) (s : Shared σ τ) (u : Thread) : Shared σ τ → Thread → Prop
  | posts (j : Nat) (s' : Shared σ τ) : u.phase = .loop j → j < u.times → s.start (E := E) (some (u.id, j)) = some s' →
      Step E s u s' { u with phase := .async j s.queue.threads.length }
  | polls (j : Nat) : u.phase = .loop j → ¬ j < u.times → E.wait = none → Step E s u s { u with phase := .check }
  | waits (j : Nat) (e : ε) (q : Config σ (τ × Body)) : u.phase = .loop j → ¬ j < u.times → E.wait = some e →
      (lifted E).next s.queue (.call e) = some q →
      Step E s u { s with queue := q } { u with phase := .waitAll s.queue.threads.length }
  | posted (j n : Nat) : u.phase = .async j n → s.returned (E := E) n = true → Step E s u s { u with phase := .loop (j + 1) }
  | checks : u.phase = .check → Step E s u s { u with phase := if s.resources u.id = 0 then .returned else .barrier }
  | passes : u.phase = .barrier → s.completed u.id = true → Step E s u s { u with phase := .returned }
  | waited (n : Nat) : u.phase = .waitAll n → s.returned (E := E) n = true → Step E s u s { u with phase := .returned }

/-- The steps that are none of a call of `apply`. -/
inductive Calls (E : Executor σ τ ε) (s : Shared σ τ) : Shared σ τ → List Thread → Prop
  | apply (times : Nat) : Calls E s { s with consumables := s.consumables ++ [⟨times, false⟩] }
      [⟨s.consumables.length, times, .loop 0⟩]
  | async (s' : Shared σ τ) : s.start (E := E) none = some s' → Calls E s s' []
  | others (e : ε) (q : Config σ (τ × Body)) : E.others e = true → (lifted E).next s.queue (.call e) = some q →
      Calls E s { s with queue := q } []
  | inner (i : Nat) (e : ε) (q : Config σ (τ × Body)) : (lifted E).next s.queue (.act i e) = some q →
      Calls E s { s with queue := q } []
  | body (i x : Nat) (t : τ) (b : Body) (s' : Shared σ τ) : s.queue.threads[i]? = some (t, b) → E.running t = some x →
      s.body (E := E) i t x b = some s' → Calls E s s' []

theorem apply_step {u u' : Thread} {e : Choice ε} {new : List Thread} (h : act E s u e = some (s', u', new)) :
    new = [] ∧ Step E s u s' u' := by
  cases e with
  | step =>
    simp only [act] at h
    split at h
    next j hp =>
      split at h
      next hj =>
        simp only [Option.map_eq_some_iff, Prod.mk.injEq] at h
        obtain ⟨s₁, hs, rfl, rfl, rfl⟩ := h
        exact ⟨rfl, .posts j _ hp hj hs⟩
      next hj =>
        split at h
        next hn =>
          cases h
          exact ⟨rfl, .polls j hp hj hn⟩
        next e he =>
          simp only [Option.map_eq_some_iff, Prod.mk.injEq] at h
          obtain ⟨q, hq, rfl, rfl, rfl⟩ := h
          exact ⟨rfl, .waits j e q hp hj he hq⟩
    next j n hp =>
      split at h <;> cases h
      next hr => exact ⟨rfl, .posted j n hp hr⟩
    next hp =>
      cases h
      exact ⟨rfl, .checks hp⟩
    next hp =>
      split at h <;> cases h
      next hc => exact ⟨rfl, .passes hp hc⟩
    next n hp =>
      split at h <;> cases h
      next hr => exact ⟨rfl, .waited n hp hr⟩
    · cases h
  | apply | async | inner | body => cases h

theorem call_calls {e : Choice ε} {new : List Thread} (h : call E s e = some (s', new)) : Calls E s s' new := by
  cases e with
  | apply times =>
    cases h
    exact .apply times
  | async =>
    simp only [call, Option.map_eq_some_iff, Prod.mk.injEq] at h
    obtain ⟨s₁, hs, rfl, rfl⟩ := h
    exact .async _ hs
  | inner l =>
    cases l with
    | call e =>
      simp only [call] at h
      split at h
      next ho =>
        simp only [Option.map_eq_some_iff, Prod.mk.injEq] at h
        obtain ⟨q, hq, rfl, rfl⟩ := h
        exact .others e q ho hq
      · cases h
    | act i e =>
      simp only [call, Option.map_eq_some_iff, Prod.mk.injEq] at h
      obtain ⟨q, hq, rfl, rfl⟩ := h
      exact .inner i e q hq
  | body i =>
    simp only [call, Option.bind_eq_some_iff, Option.map_eq_some_iff, Prod.mk.injEq] at h
    obtain ⟨⟨t, b⟩, ht, x, hx, s₁, hs, rfl, rfl⟩ := h
    exact .body i x t b _ ht hx hs
  | step => cases h

/-! ## Runs -/

theorem Inv.apply (hI : Inv E c) (times : Nat) :
    Inv E ⟨{ c.shared with consumables := c.shared.consumables ++ [⟨times, false⟩] },
      c.threads ++ [⟨c.shared.consumables.length, times, .loop 0⟩]⟩ := by
  have hold : ∀ t ∈ c.threads, t.id < c.shared.consumables.length := by
    intro t ht
    obtain ⟨i, hi⟩ := List.mem_iff_getElem?.mp ht
    rw [hI.ids i t hi, hI.consumables]
    exact (List.getElem?_eq_some_iff.mp hi).1
  refine ⟨⟨hI.queue.run, hI.queue.added, hI.queue.adding, hI.queue.running, hI.queue.idle, hI.queue.executed⟩,
    fun i t hi => ?_, by simp [hI.consumables], fun a i ha => ?_, ?_⟩
  · rcases List.getElem?_append.symm.trans hi with hi
    split at hi
    · exact hI.ids i t hi
    next hlt =>
      have h0 : i - c.threads.length = 0 := by
        have := (List.getElem?_eq_some_iff.mp hi).1
        simp only [List.length_singleton] at this
        omega
      rw [h0] at hi
      cases hi
      change c.shared.consumables.length = i
      rw [hI.consumables]
      omega
  · rw [List.length_append]
    exact Nat.lt_add_right _ (hI.ops a i ha)
  · refine Family.forall_append (fun t ht => (hI.fits t ht).fresh (hold t ht)) fun t ht => ?_
    cases List.mem_singleton.mp ht
    refine fresh_fits fun i hi => ?_
    have := hI.ops _ i hi
    rw [hI.consumables] at this
    exact lt_irrefl _ this

theorem call_inv (hE : E.Lawful) (hI : Inv E c) {new : List Thread} (h : Calls E c.shared s' new) :
    Inv E ⟨s', c.threads ++ new⟩ := by
  cases h with
  | apply times => exact hI.apply times
  | async _ hs =>
    rw [List.append_nil]
    have hops : s'.ops = c.shared.ops ++ [none] ∧ s'.consumables = c.shared.consumables := by
      obtain ⟨_, _, -, -, -, rfl, -⟩ := start_eq hE hs
      exact ⟨rfl, rfl⟩
    refine ⟨start_inv hE hI.queue hs, hI.ids, hops.2 ▸ hI.consumables, fun a i ha => ?_, fun t ht =>
      start_fits hE hI.queue hs (hI.fits t ht) (by simp)⟩
    exact hI.ops a i (by simpa [hops.1] using ha)
  | others e q ho hq =>
    rw [List.append_nil]
    exact (idle_keeps hI.queue hq fun σ' new hc => hE.others _ _ _ _ ho hc).inv hI
  | inner i e q hq =>
    rw [List.append_nil]
    exact (act_keeps hE hI.queue hq).inv hI
  | body i x t b _ ht hx hs =>
    rw [List.append_nil]
    exact (body_keeps hE hI.queue ht hx hs).inv hI

theorem returned_get {n : Nat} (h : s.returned (E := E) n = true) :
    ∃ p, s.queue.threads[n]? = some p ∧ E.returned p.1 = true := by
  unfold Shared.returned at h
  cases hp : s.queue.threads[n]? with
  | none => simp [hp] at h
  | some p => exact ⟨p, rfl, by simpa [hp] using h⟩

theorem act_inv (hE : E.Lawful) (hI : Inv E c) {i : Nat} {u u' : Thread} (hu : c.threads[i]? = some u)
    (h : Step E c.shared u s' u') : Inv E ⟨s', c.threads.set i u' ++ []⟩ := by
  have hf := hI.fits u (Family.mem_of_get hu)
  have hp := hf.posted
  have hw := hf.waited
  cases h with
  | posts j _ hph hj hs =>
    have hops : s'.ops = c.shared.ops ++ [some (u.id, j)] ∧ s'.consumables = c.shared.consumables := by
      obtain ⟨_, _, -, -, -, rfl, -⟩ := start_eq hE hs
      exact ⟨rfl, rfl⟩
    refine hI.set hu (start_inv hE hI.queue hs) (by rw [hops.2]) (fun a k ha => ?_) rfl (fun t ht hne =>
      start_fits hE hI.queue hs (hI.fits t ht) ?_) (post_fits hE hI.queue hs hf hph hj)
    · rw [hops.1] at ha
      exact (List.mem_append.mp ha).imp_right fun ha => by simpa using And.left (by simpa using ha)
    · rintro p ⟨⟩
      exact hne.symm
  | polls j hph hj hn =>
    simp only [hph] at hp
    cases Nat.le_antisymm hp.1 (Nat.le_of_not_lt hj)
    exact hI.goes hu ⟨hp.2.1, hp.2.2⟩ hn
  | waits j e q hph hj he hq =>
    simp only [hph] at hp
    have hdone : j = u.times := Nat.le_antisymm hp.1 (Nat.le_of_not_lt hj)
    have hk := idle_keeps hI.queue hq fun σ' new hc => by
      obtain ⟨hk, t, rfl, hidle, -⟩ := hE.wait _ _ _ _ he hc
      exact ⟨hk, by simpa using hidle⟩
    have hI' := hk.inv hI
    have hp' := (hk.fits u hf).posted
    rw [hph, hdone] at hp'
    refine hI'.goes (c := ⟨_, c.threads⟩) hu ⟨hp'.2.1, hp'.2.2⟩ ⟨by simp [he], Or.inl ?_⟩
    obtain ⟨σ', new, hc, rfl, -⟩ := lifted_call hq
    obtain ⟨-, t, rfl, -, hwait⟩ := hE.wait _ _ _ _ he hc
    exact ⟨(t, .idle), by simp [idles], hwait⟩
  | posted j n hph hr =>
    simp only [hph] at hp
    obtain ⟨p, hpn, hret⟩ := returned_get hr
    refine hI.goes hu ?_ trivial
    rcases hp.2 with h | ⟨-, -, p', x, hpn', hx, -⟩
    · exact ⟨hp.1, h⟩
    · cases hpn.symm.trans hpn'
      rw [(hE.returned _ hret).1] at hx
      cases hx
  | checks hph =>
    simp only [hph] at hp hw
    by_cases h0 : c.shared.resources u.id = 0
    · rw [if_pos h0]
      exact hI.goes hu hp ((if_pos hw).mpr h0)
    · rw [if_neg h0]
      exact hI.goes hu hp hw
  | passes hph hc =>
    simp only [hph] at hp hw
    exact hI.goes hu hp ((if_pos hw).mpr (hf.completed (Or.inl hc)))
  | waited n hph hr =>
    simp only [hph] at hp hw
    obtain ⟨p, hpn, hret⟩ := returned_get hr
    refine hI.goes hu hp ?_
    rcases hw.2 with ⟨p', hpn', hwait⟩ | hex
    · cases hpn.symm.trans hpn'
      rw [(hE.returned _ hret).2] at hwait
      cases hwait
    · simp only [Phase.Waited]
      rw [if_neg hw.1]
      exact hex

theorem init_inv (hE : E.Lawful) : Inv E (initial E) := by
  have hidle : ∀ p ∈ idles E.initial.threads, E.Idle p.1 := forall_idles hE.empty.2.2
  refine ⟨⟨⟨[], ?_⟩, ?_, ?_, ?_, ?_, ?_⟩, by simp [initial], rfl, by simp [initial], by simp [initial]⟩
  · have : erase (initial E).shared.queue = E.initial := by simp [erase, initial]
    rw [this]
    exact .nil
  · simp [initial, hE.empty.1]
  · intro p hp x hx
    rw [(hidle p hp).1] at hx
    cases hx
  · intro p hp x hx
    rw [(hidle p hp).2] at hx
    cases hx
  · exact forall_idles fun _ _ _ => rfl
  · simp [initial, hE.empty.2.1, pending, total_idles, pend, total_zero]

theorem run_inv (hE : E.Lawful) {tr : List (Config (Shared σ τ) Thread × Label (Choice ε))}
    (h : (applying E).Run (initial E) tr c) : Inv E c :=
  h.invariant_by (init_inv hE) (fun _ _ _ _ hI _ hc => call_inv hE hI (call_calls hc))
    (fun _ _ _ _ _ _ _ hI _ ht ha => by
      obtain ⟨rfl, hs⟩ := apply_step ha
      exact act_inv hE hI ht hs) Program.along_true

/-! ## Ordered queues -/

/-- On an ordered queue the operations are executed as they were started. -/
def Follows (E : Executor σ τ ε) (s : Shared σ τ) : Prop := s.executed <+: E.started s.queue.shared

theorem execute_follows (hO : E.Ordered) (hQ : QueueInv E s) (hF : Follows E s)
    (ht : s.queue.threads[i]? = some (t, .execute)) (hx : E.running t = some x) :
    s.executed ++ [x] <+: E.started s.queue.shared := by
  obtain ⟨tr, hr⟩ := hQ.run
  obtain ⟨l, hl⟩ := hF
  have hpend : (l : Multiset Nat) = pending E s.queue.threads := by
    have := hQ.executed
    rw [← hl, ← Multiset.coe_add] at this
    exact add_left_cancel this
  have hmem : x ∈ l := by
    refine Multiset.mem_coe.mp (hpend ▸ Multiset.mem_of_le ?_ (Multiset.mem_singleton_self x))
    have : (pend E (t, .execute) : Multiset Nat) = {x} := by simp [pend, hx]
    exact this ▸ List.single_le_sum (fun _ _ => Multiset.zero_le _) _
      (List.mem_map.mpr ⟨_, Family.mem_of_get ht, rfl⟩)
  -- one operation is running at most, so that it is the next of those started
  have hone : l.length ≤ 1 := by
    have := (Multiset.card_le_card (pending_le s.queue.threads)).trans (hO tr _ hr).2
    rwa [← hpend, Multiset.coe_card] at this
  have hlx : l = [x] := by
    cases l with
    | nil => cases hmem
    | cons y l =>
      have h0 : l = [] := List.length_eq_zero_iff.mp (by simpa using hone)
      subst h0
      rw [List.mem_singleton.mp hmem]
  exact hlx ▸ hl ▸ List.prefix_rfl

theorem Moves.started (h : E.Moves s.queue.shared t σ' t') : E.started s.queue.shared <+: E.started σ' := by
  cases h with
  | start x _ _ _ hs => exact hs ▸ List.prefix_append _ _
  | add x _ _ _ _ hs => exact hs ▸ List.prefix_rfl
  | finish x _ _ _ hk => exact hk.2 ▸ List.prefix_rfl
  | other _ _ _ hk => exact hk.2 ▸ List.prefix_rfl

theorem start_follows (hE : E.Lawful) (h : s.start (E := E) op = some s') (hF : Follows E s) : Follows E s' := by
  obtain ⟨σ', t, hk, -, -, rfl, -⟩ := start_eq hE h
  exact hF.trans (hk.2 ▸ List.prefix_rfl)

theorem call_follows {e : ε} {q' : Config σ (τ × Body)} (h : (lifted E).next s.queue (.call e) = some q')
    (hk : ∀ σ' new, E.program.call s.queue.shared e = some (σ', new) → E.Keeps s.queue.shared σ')
    (hF : Follows E s) : Follows E { s with queue := q' } := by
  obtain ⟨σ', new, hc, rfl, -⟩ := lifted_call h
  exact hF.trans ((hk _ _ hc).2 ▸ List.prefix_rfl)

theorem next_follows (hE : E.Lawful) (hO : E.Ordered) (hI : Inv E c) (hF : Follows E c.shared)
    (h : (applying E).next c l = some c') : Follows E c'.shared := by
  cases l with
  | call e =>
    obtain ⟨s', new, hc, rfl⟩ := Program.next_call h
    cases call_calls hc with
    | apply => exact hF
    | async _ hs => exact start_follows hE hs hF
    | others e q ho hq => exact call_follows hq (fun σ' new hc => (hE.others _ _ _ _ ho hc).1) hF
    | inner i e q hq =>
      obtain ⟨t, b, σ', t', new, ht, -, ha, rfl, -⟩ := lifted_act hq
      exact hF.trans (Moves.started (hE.act _ _ _ _ _ _ ha).1)
    | body i x t b _ ht hx hs =>
      cases b with
      | idle => cases hs
      | execute =>
        cases hs
        exact execute_follows hO hI.queue hF ht hx
      | consume | complete =>
        simp only [Shared.body, Option.map_eq_some_iff] at hs
        obtain ⟨p, -, rfl⟩ := hs
        exact hF
      | «return» =>
        simp only [Shared.body, Option.map_eq_some_iff] at hs
        obtain ⟨⟨σ', t', new⟩, ha, rfl⟩ := hs
        exact hF.trans (Moves.started (hE.act _ _ _ _ _ _ ha).1)
  | act i e =>
    obtain ⟨u, s', u', new, -, ha, rfl⟩ := Program.next_act h
    obtain ⟨-, hs⟩ := apply_step ha
    cases hs with
    | posts _ _ _ _ hs => exact start_follows hE hs hF
    | waits _ _ _ _ _ he hq => exact call_follows hq (fun σ' new hc => (hE.wait _ _ _ _ he hc).1) hF
    | _ => exact hF

theorem run_follows (hE : E.Lawful) (hO : E.Ordered) {tr : List (Config (Shared σ τ) Thread × Label (Choice ε))}
    (h : (applying E).Run (initial E) tr c) : Follows E c.shared := by
  induction h with
  | nil => exact List.nil_prefix
  | snoc hr hn ih => exact next_follows hE hO (run_inv hE hr) ih hn

/-! ## When `apply` has returned -/

/-- The indices that were executed of a call, in the order of their execution. -/
def executedOf (c : Config (Shared σ τ) Thread) (u : Thread) : List Nat := indices c.shared.ops u.id c.shared.executed

theorem run_perm (hE : E.Lawful) {tr : List (Config (Shared σ τ) Thread × Label (Choice ε))}
    (h : (applying E).Run (initial E) tr c) (hu : u ∈ c.threads) (hr : u.phase = .returned) :
    (executedOf c u).Perm (List.range u.times) :=
  (run_inv hE h).perm hE hu hr

theorem run_range (hE : E.Lawful) (hO : E.Ordered) {tr : List (Config (Shared σ τ) Thread × Label (Choice ε))}
    (h : (applying E).Run (initial E) tr c) (hu : u ∈ c.threads) (hr : u.phase = .returned) :
    executedOf c u = List.range u.times := by
  have hI := run_inv hE h
  have hp := (hI.fits u hu).posted
  rw [hr] at hp
  obtain ⟨tr', hq⟩ := hI.queue.run
  have hpre : c.shared.executed <+: E.added c.shared.queue.shared := (run_follows hE hO h).trans (hO tr' _ hq).1
  have hidx : executedOf c u <+: List.range u.times := hp.1 ▸ hpre.filterMap _
  exact hidx.eq_of_length (run_perm hE h hu hr).length_eq

end

end Xdispatch.Apply
