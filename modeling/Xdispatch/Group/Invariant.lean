import Xdispatch.Group.Model

/-!
# What every state of a group satisfies

`Inv` ties the counters to the operations: `m_resources` of a consumable is the
number of operations counted on it that have not consumed yet, and every
consumable an operation is counted on is reachable from `m_consumable` through
`m_preceeding`. Nothing is assumed about the order of the steps.
-/

namespace Xdispatch.Group

/-- `k` is `c` or precedes it. -/
inductive Chain (heap : Nat → Consumable) : Nat → Nat → Prop
  | refl (c) : Chain heap c c
  | step {c p k} : (heap c).preceeding = some p → Chain heap p k → Chain heap c k

theorem Chain.mono {heap heap' : Nat → Consumable}
    (h : ∀ c p, (heap c).preceeding = some p → (heap' c).preceeding = some p) {c k : Nat}
    (hc : Chain heap c k) : Chain heap' c k := by
  induction hc with
  | refl => exact .refl _
  | step hp _ ih => exact .step (h _ _ hp) ih

theorem Chain.none_eq {heap : Nat → Consumable} {c k : Nat} (h : (heap c).preceeding = none)
    (hc : Chain heap c k) : k = c := by
  cases hc with
  | refl => rfl
  | step hp _ => rw [h] at hp; cases hp

theorem Chain.some_cases {heap : Nat → Consumable} {c p k : Nat} (h : (heap c).preceeding = some p)
    (hc : Chain heap c k) : k = c ∨ Chain heap p k := by
  cases hc with
  | refl => exact Or.inl rfl
  | step hp hk => rw [h] at hp; cases hp; exact Or.inr hk

/-! ## Shared state -/

@[simp] theorem modify_heap_self (s : Shared) (c : Nat) (f : Consumable → Consumable) :
    (s.modify c f).heap c = f (s.heap c) := by
  simp [Shared.modify]

theorem modify_heap_ne (s : Shared) {c k : Nat} (f : Consumable → Consumable) (h : k ≠ c) :
    (s.modify c f).heap k = s.heap k := by
  simp [Shared.modify, Function.update_of_ne h]

theorem modify_preceeding (s : Shared) (c : Nat) {f : Consumable → Consumable}
    (hf : ∀ x, (f x).preceeding = x.preceeding) (k : Nat) :
    ((s.modify c f).heap k).preceeding = (s.heap k).preceeding := by
  by_cases h : k = c
  · subst h; rw [modify_heap_self, hf]
  · rw [modify_heap_ne s f h]

/-- What no step undoes. -/
structure Grows (s s' : Shared) : Prop where
  preceeding : ∀ c p, (s.heap c).preceeding = some p → (s'.heap c).preceeding = some p
  head : ∀ k, Chain s.heap s.consumable k → Chain s'.heap s'.consumable k
  executed : ∀ o ∈ s.executed, o ∈ s'.executed

theorem grows_refl (s : Shared) : Grows s s := ⟨fun _ _ h => h, fun _ h => h, fun _ h => h⟩

theorem grows_of_heap {s s' : Shared} (hh : ∀ c, (s'.heap c).preceeding = (s.heap c).preceeding)
    (hc : s'.consumable = s.consumable) (he : ∀ o ∈ s.executed, o ∈ s'.executed) : Grows s s' := by
  have hp : ∀ c p, (s.heap c).preceeding = some p → (s'.heap c).preceeding = some p :=
    fun c p h => by rw [hh c, h]
  exact ⟨hp, fun k h => hc ▸ h.mono hp, he⟩

theorem grows_swap {s : Shared} (hfresh : ∀ c, s.size ≤ c → s.heap c = ⟨none, 0, false⟩) :
    Grows s (s.swap s.consumable) := by
  have hp : ∀ c p, (s.heap c).preceeding = some p →
      ((s.swap s.consumable).heap c).preceeding = some p := by
    intro c p h
    have hne : c ≠ s.size := fun e => by rw [e, hfresh _ (Nat.le_refl _)] at h; cases h
    simpa [Shared.swap, Function.update_of_ne hne] using h
  refine ⟨hp, fun k h => .step (p := s.consumable) ?_ (h.mono hp), fun _ h => h⟩
  simp [Shared.swap]

/-! ## Counting -/

/-- The operation has been added to `m_resources` of `k` and has not consumed yet. -/
def OperationPhase.countedOn (k : Nat) : OperationPhase → Nat
  | .post c | .queued c | .running c | .consume c | .fetchSub c => if c = k then 1 else 0
  | _ => 0

def Thread.countedOn (k : Nat) : Thread → Nat
  | .operation _ ph => ph.countedOn k
  | .wait _ => 0

def OperationPhase.consumable : OperationPhase → Option Nat
  | .addResource c | .post c | .queued c | .running c | .consume c | .fetchSub c | .complete c => some c
  | _ => none

/-- The posted operation `id` is counted on `c` and has not finished. -/
def Outstanding (ts : List Thread) (id c : Nat) : Prop :=
  Thread.operation id (.queued c) ∈ ts ∨ Thread.operation id (.running c) ∈ ts

structure Inv (c : Config Shared Thread) : Prop where
  fresh : ∀ k, c.shared.size ≤ k → c.shared.heap k = ⟨none, 0, false⟩
  head_lt : c.shared.consumable < c.shared.size
  preceeding_lt : ∀ k p, (c.shared.heap k).preceeding = some p → p < k
  resources : ∀ k, (c.shared.heap k).resources = Family.total (Thread.countedOn k) c.threads
  linked : ∀ id ph, Thread.operation id ph ∈ c.threads → ∀ k, ph.consumable = some k →
    Chain c.shared.heap c.shared.consumable k
  added : ∀ p ∈ c.shared.added, Chain c.shared.heap c.shared.consumable p.2 ∧
    (p.1 ∈ c.shared.executed ∨ Outstanding c.threads p.1 p.2)
  not_asserted : c.shared.asserted = false
  now_nonneg : 0 ≤ c.shared.now

theorem initial_inv (now : Nat) : Inv (initial now) := by
  refine ⟨fun _ _ => rfl, by simp [initial], fun k p h => by simp [initial] at h, fun k => rfl, ?_, ?_, rfl, ?_⟩
  · intro id ph h; simp [initial] at h
  · intro p h; simp [initial] at h
  · simp [initial]

theorem Inv.countedOn_le {c : Config Shared Thread} (h : Inv c) {t : Thread} (ht : t ∈ c.threads) (k : Nat) :
    t.countedOn k ≤ (c.shared.heap k).resources := by
  rw [h.resources k]
  exact Family.le_total _ ht

theorem Inv.executed_of_zero {c : Config Shared Thread} (h : Inv c) {p : Nat × Nat}
    (hp : p ∈ c.shared.added) (h0 : (c.shared.heap p.2).resources = 0) : p.1 ∈ c.shared.executed := by
  rcases (h.added p hp).2 with he | ho | ho
  · exact he
  · have := h.countedOn_le ho p.2
    simp [Thread.countedOn, OperationPhase.countedOn, h0] at this
  · have := h.countedOn_le ho p.2
    simp [Thread.countedOn, OperationPhase.countedOn, h0] at this

/-! ## Preservation -/

theorem call_grows {s s' : Shared} {e : Choice} {new : List Thread} (h : call s e = some (s', new)) :
    Grows s s' := by
  cases e with
  | async | wait _ | notify | tick _ =>
    cases h
    exact grows_of_heap (fun _ => rfl) rfl fun _ h => h
  | _ => simp [call] at h

theorem operation_grows {s s' : Shared} {id : Nat} {ph ph' : OperationPhase}
    (h : ph.act s id = some (s', ph')) : Grows s s' := by
  cases ph with
  | done => simp [OperationPhase.act] at h
  | _ =>
    cases h
    first
      | exact grows_refl s
      | exact grows_of_heap (fun _ => rfl) rfl fun _ h => by simp [h]
      | exact grows_of_heap (modify_preceeding s _ fun _ => rfl) rfl fun _ h => h

/-- What one step of a wait can do. -/
inductive WaitStep (s : Shared) (w : Wait) : Choice → Shared → WaitPhase → Prop
  | taken : w.phase = .pooled → WaitStep s w .step s .load
  | loads : w.phase = .load → WaitStep s w .step s (.swap s.consumable)
  | exchanges : w.phase = .swap s.consumable →
      WaitStep s w .step (s.swap s.consumable) (.descend s.consumable [])
  | reloads (old : Nat) (e : Choice) : w.phase = .swap old → (e = .step → s.consumable ≠ old) → WaitStep s w e s .load
  | descends (c p : Nat) (stack : List Nat) : w.phase = .descend c stack → (s.heap c).preceeding = some p → p ≠ c →
      WaitStep s w .step s (.descend p (c :: stack))
  | arrives (c : Nat) (stack : List Nat) : w.phase = .descend c stack →
      (∀ p, (s.heap c).preceeding = some p → p = c) → WaitStep s w .step s (.check c stack)
  | drained (c : Nat) (stack : List Nat) : w.phase = .check c stack → (s.heap c).resources = 0 →
      WaitStep s w .step s (satisfied stack)
  | counts (c : Nat) (stack : List Nat) : w.phase = .check c stack → (s.heap c).resources ≠ 0 →
      WaitStep s w .step s (.barrierWait c stack)
  | completed (c : Nat) (stack : List Nat) : w.phase = .barrierWait c stack → (s.heap c).barrier = true →
      WaitStep s w .step s (satisfied stack)
  | blocks (c : Nat) (stack : List Nat) : w.phase = .barrierWait c stack → (s.heap c).barrier = false →
      WaitStep s w .step s (.blocked c stack
        (if w.timeout = waitForever then none else some (waitForDeadline s.now w.timeout)))
  | wakes (c : Nat) (stack : List Nat) (d : Option Int) : w.phase = .blocked c stack d → (s.heap c).barrier = true →
      WaitStep s w .step s (satisfied stack)
  | expires (c : Nat) (stack : List Nat) (deadline : Int) : w.phase = .blocked c stack (some deadline) →
      deadline ≤ s.now → (s.heap c).barrier = false → WaitStep s w .timeout s (.returned false)
  | submits (n : Nat) (r : Bool) : w.phase = .returned r → w.notification = some n →
      WaitStep s w .step { s with submitted := s.submitted ++ [n] } .submitted

theorem wait_cases {s s' : Shared} {w : Wait} {e : Choice} {ph : WaitPhase} (h : w.act s e = some (s', ph)) :
    WaitStep s w e s' ph := by
  unfold Wait.act at h
  split at h
  next hp =>
    cases h
    exact .taken hp
  next hp =>
    cases h
    exact .loads hp
  next old hp =>
    split at h
    next heq =>
      subst heq
      cases h
      exact .exchanges hp
    next hne =>
      cases h
      exact .reloads old _ hp fun _ => hne
  next old hp =>
    cases h
    exact .reloads old _ hp fun he => by cases he
  next c stack hp =>
    split at h
    next p hprec =>
      split at h
      next heq =>
        cases h
        exact .arrives c stack hp fun q hq => by rw [hprec] at hq; cases hq; exact heq
      next hne =>
        cases h
        exact .descends c p stack hp hprec hne
    next hnone =>
      cases h
      exact .arrives c stack hp fun q hq => by rw [hnone] at hq; cases hq
  next c stack hp =>
    split at h
    next h0 =>
      cases h
      exact .drained c stack hp h0
    next h0 =>
      cases h
      exact .counts c stack hp h0
  next c stack hp =>
    split at h
    next hb =>
      cases h
      exact .completed c stack hp hb
    next hb =>
      cases h
      exact .blocks c stack hp (Bool.eq_false_iff.mpr hb)
  next c stack d hp =>
    split at h
    next hb =>
      cases h
      exact .wakes c stack d hp hb
    next => cases h
  next c stack deadline hp =>
    split at h
    next hd =>
      cases h
      exact .expires c stack deadline hp hd.1 hd.2
    next => cases h
  next r hp =>
    split at h
    next n hn =>
      cases h
      exact .submits n r hp hn
    next => cases h
  next => cases h

theorem satisfied_ne_submitted (stack : List Nat) : satisfied stack ≠ .submitted := by
  cases stack <;> simp [satisfied]

theorem wait_shared {s s' : Shared} {w : Wait} {e : Choice} {ph : WaitPhase} (h : w.act s e = some (s', ph)) :
    (s' = s ∧ ph ≠ .submitted) ∨
      (w.phase = .swap s.consumable ∧ s' = s.swap s.consumable ∧ ph = .descend s.consumable []) ∨
      ∃ n r, w.notification = some n ∧ w.phase = .returned r ∧ ph = .submitted ∧
        s' = { s with submitted := s.submitted ++ [n] } := by
  cases wait_cases h with
  | exchanges hp => exact Or.inr (Or.inl ⟨hp, rfl, rfl⟩)
  | submits n r hp hn => exact Or.inr (Or.inr ⟨n, r, hn, hp, rfl, rfl⟩)
  | drained c stack | completed c stack | wakes c stack => exact Or.inl ⟨rfl, satisfied_ne_submitted stack⟩
  | _ => exact Or.inl ⟨rfl, by simp⟩

theorem wait_grows {c : Config Shared Thread} (hI : Inv c) {s' : Shared} {w : Wait} {e : Choice}
    {ph : WaitPhase} (h : w.act c.shared e = some (s', ph)) : Grows c.shared s' := by
  rcases wait_shared h with ⟨rfl, -⟩ | ⟨-, rfl, -⟩ | ⟨n, r, -, -, -, rfl⟩
  · exact grows_refl _
  · exact grows_swap hI.fresh
  · exact grows_of_heap (fun _ => rfl) rfl fun _ h => h

theorem Chain.le {heap : Nat → Consumable} (hlt : ∀ k p, (heap k).preceeding = some p → p < k) {c k : Nat}
    (h : Chain heap c k) : k ≤ c := by
  induction h with
  | refl => exact Nat.le_refl _
  | step hp _ ih => have := hlt _ _ hp; omega

theorem Inv.consumable_lt {c : Config Shared Thread} (h : Inv c) {id : Nat} {ph : OperationPhase}
    (ht : Thread.operation id ph ∈ c.threads) {k : Nat} (hk : ph.consumable = some k) : k < c.shared.size := by
  have := (h.linked id ph ht k hk).le h.preceeding_lt
  have := h.head_lt
  omega

theorem fetched_countedOn {p : Prop} [Decidable p] (c k : Nat) :
    (if p then OperationPhase.complete c else .done).countedOn k = 0 := by
  split <;> rfl

theorem operation_resources {s s' : Shared} {id : Nat} {ph ph' : OperationPhase}
    (h : ph.act s id = some (s', ph')) (hle : ∀ k, ph.countedOn k ≤ (s.heap k).resources) (k : Nat) :
    (s'.heap k).resources + ph.countedOn k = (s.heap k).resources + ph'.countedOn k := by
  cases ph with
  | done => simp [OperationPhase.act] at h
  | addResource c =>
    cases h
    by_cases hk : k = c
    · subst hk; simp [Consumable.addResource, OperationPhase.countedOn]
    · simp [modify_heap_ne s _ hk, OperationPhase.countedOn, Ne.symm hk]
  | fetchSub c =>
    cases h
    rw [fetched_countedOn]
    by_cases hk : k = c
    · subst hk
      have := hle k
      simp only [OperationPhase.countedOn, ite_true] at this
      simp only [modify_heap_self, Consumable.consumeResource, OperationPhase.countedOn, ite_true]
      omega
    · simp [modify_heap_ne s _ hk, OperationPhase.countedOn, Ne.symm hk]
  | complete c =>
    cases h
    by_cases hk : k = c
    · subst hk; simp [Consumable.complete, OperationPhase.countedOn]
    · simp [modify_heap_ne s _ hk, OperationPhase.countedOn]
  | _ =>
    cases h
    simp [OperationPhase.countedOn]

theorem operation_consumable {s s' : Shared} {id : Nat} {ph ph' : OperationPhase}
    (h : ph.act s id = some (s', ph')) {k : Nat} (hk : ph'.consumable = some k) :
    ph.consumable = some k ∨ (ph = .load ∧ k = s.consumable) := by
  cases ph with
  | done => simp [OperationPhase.act] at h
  | load =>
    cases h
    simp only [OperationPhase.consumable, Option.some.injEq] at hk
    exact Or.inr ⟨rfl, hk.symm⟩
  | fetchSub c =>
    cases h
    split at hk
    · exact Or.inl hk
    · cases hk
  | _ =>
    cases h
    first
      | exact Or.inl hk
      | cases hk

/-- An operation changes the consumable that it stands at, and no other. -/
theorem operation_heap {s s' : Shared} {id : Nat} {ph ph' : OperationPhase} (h : ph.act s id = some (s', ph')) (k : Nat) :
    s'.heap k = s.heap k ∨ ph = .addResource k ∧ s'.heap k = (s.heap k).addResource ∨
      ph = .fetchSub k ∧ s'.heap k = (s.heap k).consumeResource ∨ ph = .complete k ∧ s'.heap k = (s.heap k).complete := by
  have key : ∀ c f, (s.modify c f).heap k = s.heap k ∨ c = k ∧ (s.modify c f).heap k = f (s.heap k) := by
    intro c f
    by_cases hk : k = c
    · subst hk
      exact Or.inr ⟨rfl, modify_heap_self s k f⟩
    · exact Or.inl (modify_heap_ne s f hk)
  cases ph with
  | done => simp [OperationPhase.act] at h
  | addResource c =>
    cases h
    exact (key c _).imp_right fun ⟨hc, he⟩ => Or.inl ⟨by rw [hc], he⟩
  | fetchSub c =>
    cases h
    exact (key c _).imp_right fun ⟨hc, he⟩ => Or.inr (Or.inl ⟨by rw [hc], he⟩)
  | complete c =>
    cases h
    exact (key c _).imp_right fun ⟨hc, he⟩ => Or.inr (Or.inr ⟨by rw [hc], he⟩)
  | _ =>
    cases h
    exact Or.inl rfl

theorem operation_fresh {s s' : Shared} {id : Nat} {ph ph' : OperationPhase}
    (h : ph.act s id = some (s', ph')) (hlt : ∀ k, ph.consumable = some k → k < s.size) :
    s'.size = s.size ∧ s'.consumable = s.consumable ∧ s'.now = s.now ∧
      (∀ k, (s'.heap k).preceeding = (s.heap k).preceeding) ∧
      ∀ k, s.size ≤ k → s'.heap k = s.heap k := by
  have hrest : s'.size = s.size ∧ s'.consumable = s.consumable ∧ s'.now = s.now := by
    cases ph with
    | done => simp [OperationPhase.act] at h
    | _ =>
      cases h
      exact ⟨rfl, rfl, rfl⟩
  refine ⟨hrest.1, hrest.2.1, hrest.2.2, fun k => ?_, fun k hk => ?_⟩
  · rcases operation_heap h k with he | ⟨-, he⟩ | ⟨-, he⟩ | ⟨-, he⟩ <;>
      simp [he, Consumable.addResource, Consumable.consumeResource, Consumable.complete]
  · have hne : ph.consumable ≠ some k := fun hc => Nat.not_lt.mpr hk (hlt k hc)
    rcases operation_heap h k with he | ⟨rfl, -⟩ | ⟨rfl, -⟩ | ⟨rfl, -⟩
    · exact he
    all_goals exact absurd rfl hne

theorem operation_added {s s' : Shared} {id : Nat} {ph ph' : OperationPhase} {ts : List Thread} {i : Nat}
    (ht : ts[i]? = some (.operation id ph)) (h : ph.act s id = some (s', ph')) {o k : Nat}
    (ho : o ∈ s.executed ∨ Outstanding ts o k) :
    o ∈ s'.executed ∨ Outstanding (ts.set i (.operation id ph') ++ []) o k := by
  have hg := operation_grows h
  rcases ho with ho | ho | ho
  · exact Or.inl (hg.executed o ho)
  · by_cases he : Thread.operation o (.queued k) = .operation id ph
    · cases he
      cases h
      exact Or.inr (Or.inr (Family.mem_step_self ht _ _))
    · exact Or.inr (Or.inl (Family.mem_step_of_ne ht ho he _ _))
  · by_cases he : Thread.operation o (.running k) = .operation id ph
    · cases he
      cases h
      exact Or.inl (by simp)
    · exact Or.inr (Or.inr (Family.mem_step_of_ne ht ho he _ _))

theorem operation_history {s s' : Shared} {id : Nat} {ph ph' : OperationPhase}
    (h : ph.act s id = some (s', ph')) :
    (∀ p ∈ s'.added, p ∈ s.added ∨ ∃ k, p = (id, k) ∧ ph = .post k ∧ ph' = .queued k) ∧
      (s'.asserted = true → s.asserted = true ∨ ∃ k, ph = .consume k ∧ (s.heap k).resources = 0) := by
  cases ph with
  | done => simp [OperationPhase.act] at h
  | post c =>
    cases h
    refine ⟨fun p hp => ?_, fun h => Or.inl h⟩
    rcases List.mem_append.mp hp with hp | hp
    · exact Or.inl hp
    · exact Or.inr ⟨c, List.mem_singleton.mp hp, rfl, rfl⟩
  | consume c =>
    cases h
    refine ⟨fun p hp => Or.inl hp, fun h => ?_⟩
    simp only [Bool.or_eq_true, beq_iff_eq] at h
    exact h.imp_right fun h => ⟨c, rfl, h⟩
  | _ =>
    cases h
    exact ⟨fun p hp => Or.inl hp, fun h => Or.inl h⟩

theorem operation_inv {c : Config Shared Thread} (hI : Inv c) {i id : Nat} {ph ph' : OperationPhase}
    {s' : Shared} (ht : c.threads[i]? = some (.operation id ph)) (h : ph.act c.shared id = some (s', ph')) :
    Inv ⟨s', c.threads.set i (.operation id ph') ++ []⟩ := by
  have hm := Family.mem_of_get ht
  have hg := operation_grows h
  obtain ⟨hsize, hhead, hnow, hprec, hheap⟩ := operation_fresh h fun k hk => hI.consumable_lt hm hk
  obtain ⟨hadd, hass⟩ := operation_history h
  refine ⟨?_, ?_, ?_, ?_, ?_, ?_, ?_, ?_⟩
  · intro k hk
    rw [hsize] at hk
    rw [hheap k hk, hI.fresh k hk]
  · rw [hsize, hhead]; exact hI.head_lt
  · intro k p hp
    rw [hprec] at hp
    exact hI.preceeding_lt k p hp
  · intro k
    have h1 := Family.total_step (Thread.countedOn k) ht (.operation id ph') []
    have h2 := operation_resources h (fun k => hI.countedOn_le hm k) k
    have h3 := hI.resources k
    simp only [Thread.countedOn, Family.total_nil, Nat.add_zero] at h1
    show (s'.heap k).resources = Family.total (Thread.countedOn k) (c.threads.set i (.operation id ph') ++ [])
    omega
  · intro id' ph₁ hm' k hk
    have key : ∀ t ∈ c.threads.set i (.operation id ph') ++ [], ∀ id' ph₁, t = .operation id' ph₁ →
        ∀ k, ph₁.consumable = some k → Chain s'.heap s'.consumable k := by
      refine Family.forall_step ?_ ?_ (by simp)
      · rintro t ht' id' ph₁ rfl k hk
        exact hg.head k (hI.linked id' ph₁ ht' k hk)
      · rintro id' ph₁ he k hk
        cases he
        rcases operation_consumable h hk with hk | ⟨-, rfl⟩
        · exact hg.head k (hI.linked id ph hm k hk)
        · rw [← hhead]; exact .refl _
    exact key _ hm' id' ph₁ rfl k hk
  · intro p hp
    rcases hadd p hp with hp | ⟨k, rfl, rfl, rfl⟩
    · obtain ⟨hc, ho⟩ := hI.added p hp
      exact ⟨hg.head _ hc, operation_added ht h ho⟩
    · exact ⟨hg.head _ (hI.linked id _ hm k rfl), Or.inr (Or.inl (Family.mem_step_self ht _ _))⟩
  · cases ha : s'.asserted with
    | false => rfl
    | true =>
      rcases hass ha with h' | ⟨k, rfl, h0⟩
      · rw [hI.not_asserted] at h'; cases h'
      · have := hI.countedOn_le hm k
        simp [Thread.countedOn, OperationPhase.countedOn, h0] at this
  · rw [hnow]; exact hI.now_nonneg

theorem inv_of_grows {c : Config Shared Thread} (hI : Inv c) {s' : Shared} {ts : List Thread}
    (hg : Grows c.shared s') (hfresh : ∀ k, s'.size ≤ k → s'.heap k = ⟨none, 0, false⟩)
    (hhead : s'.consumable < s'.size) (hprec : ∀ k p, (s'.heap k).preceeding = some p → p < k)
    (hres : ∀ k, (s'.heap k).resources = (c.shared.heap k).resources)
    (htot : ∀ k, Family.total (Thread.countedOn k) ts = Family.total (Thread.countedOn k) c.threads)
    (hops : ∀ id ph, Thread.operation id ph ∈ ts → Thread.operation id ph ∈ c.threads ∨ ph = .load)
    (hmem : ∀ id ph, Thread.operation id ph ∈ c.threads → Thread.operation id ph ∈ ts)
    (hadd : s'.added = c.shared.added) (hass : s'.asserted = c.shared.asserted)
    (hnow : c.shared.now ≤ s'.now) : Inv ⟨s', ts⟩ := by
  refine ⟨hfresh, hhead, hprec, fun k => ?_, fun id ph hm k hk => ?_, fun p hp => ?_, ?_, ?_⟩
  · rw [htot]; exact (hres k).trans (hI.resources k)
  · rcases hops id ph hm with hm | rfl
    · exact hg.head k (hI.linked id ph hm k hk)
    · cases hk
  · replace hp : p ∈ c.shared.added := hadd ▸ hp
    obtain ⟨hc, ho⟩ := hI.added p hp
    exact ⟨hg.head _ hc, ho.imp (hg.executed _) (Or.imp (hmem _ _) (hmem _ _))⟩
  · rw [hass]; exact hI.not_asserted
  · exact Int.le_trans hI.now_nonneg hnow

theorem wait_inv {c : Config Shared Thread} (hI : Inv c) {i : Nat} {w : Wait} {e : Choice} {s' : Shared}
    {ph : WaitPhase} (ht : c.threads[i]? = some (.wait w)) (h : w.act c.shared e = some (s', ph)) :
    Inv ⟨s', c.threads.set i (.wait { w with phase := ph }) ++ []⟩ := by
  have htot : ∀ k, Family.total (Thread.countedOn k) (c.threads.set i (.wait { w with phase := ph }) ++ []) =
      Family.total (Thread.countedOn k) c.threads := by
    intro k
    have := Family.total_step (Thread.countedOn k) ht (.wait { w with phase := ph }) []
    simpa [Thread.countedOn] using this
  have hops : ∀ id ph', Thread.operation id ph' ∈ c.threads.set i (.wait { w with phase := ph }) ++ [] →
      Thread.operation id ph' ∈ c.threads ∨ ph' = .load := by
    intro id ph' hm
    exact Or.inl (Family.mem_of_step hm (by simp))
  have hmem : ∀ id ph', Thread.operation id ph' ∈ c.threads →
      Thread.operation id ph' ∈ c.threads.set i (.wait { w with phase := ph }) ++ [] :=
    fun id ph' hm => Family.mem_step_of_ne ht hm (by simp) _ _
  have hg := wait_grows hI h
  rcases wait_shared h with ⟨rfl, -⟩ | ⟨-, rfl, -⟩ | ⟨n, r, -, -, -, rfl⟩
  · exact inv_of_grows hI hg hI.fresh hI.head_lt hI.preceeding_lt (fun _ => rfl) htot hops hmem rfl rfl
      (Int.le_refl _)
  · refine inv_of_grows hI hg ?_ (Nat.lt_succ_self _) ?_ ?_ htot hops hmem rfl rfl (Int.le_refl _)
    · intro k hk
      have hlt : c.shared.size + 1 ≤ k := hk
      have hne : k ≠ c.shared.size := by omega
      show Function.update c.shared.heap c.shared.size _ k = _
      rw [Function.update_of_ne hne, hI.fresh k (by omega)]
    · intro k p hp
      by_cases hk : k = c.shared.size
      · subst hk
        simp only [Shared.swap, Function.update_self, Option.some.injEq] at hp
        subst hp
        exact hI.head_lt
      · simp only [Shared.swap, Function.update_of_ne hk] at hp
        exact hI.preceeding_lt k p hp
    · intro k
      by_cases hk : k = c.shared.size
      · subst hk
        simp [Shared.swap, hI.fresh _ (Nat.le_refl _)]
      · simp [Shared.swap, Function.update_of_ne hk]
  · exact inv_of_grows hI hg hI.fresh hI.head_lt hI.preceeding_lt (fun _ => rfl) htot hops hmem rfl rfl
      (Int.le_refl _)

theorem call_inv {c : Config Shared Thread} (hI : Inv c) {e : Choice} {s' : Shared} {new : List Thread}
    (h : call c.shared e = some (s', new)) : Inv ⟨s', c.threads ++ new⟩ := by
  have hg := call_grows h
  cases e with
  | async =>
    cases h
    refine inv_of_grows hI hg hI.fresh hI.head_lt hI.preceeding_lt (fun _ => rfl) ?_ ?_ ?_ rfl rfl (Int.le_refl _)
    · simp [Thread.countedOn, OperationPhase.countedOn]
    · intro id ph hm
      rcases List.mem_append.mp hm with hm | hm
      · exact Or.inl hm
      · cases List.mem_singleton.mp hm
        exact Or.inr rfl
    · exact fun id ph hm => List.mem_append_left _ hm
  | wait _ | notify | tick _ =>
    cases h
    refine inv_of_grows hI hg hI.fresh hI.head_lt hI.preceeding_lt (fun _ => rfl) ?_ ?_ ?_ rfl rfl ?_
    · simp [Thread.countedOn]
    · intro id ph hm
      exact Or.inl (by simpa using hm)
    · exact fun id ph hm => List.mem_append_left _ hm
    · first | exact Int.le_refl _ | exact Int.le_add_of_nonneg_right (Int.natCast_nonneg _)
  | _ => simp [call] at h

theorem act_cases {s s' : Shared} {t t' : Thread} {e : Choice} {new : List Thread}
    (h : act s t e = some (s', t', new)) : new = [] ∧
      ((∃ id ph ph', t = .operation id ph ∧ t' = .operation id ph' ∧ ph.act s id = some (s', ph')) ∨
        ∃ w ph, t = .wait w ∧ t' = .wait { w with phase := ph } ∧ w.act s e = some (s', ph)) := by
  cases t with
  | operation id ph =>
    cases e with
    | step =>
      simp only [act, Option.map_eq_some_iff, Prod.mk.injEq] at h
      obtain ⟨⟨s₁, ph'⟩, h, rfl, rfl, rfl⟩ := h
      exact ⟨rfl, Or.inl ⟨id, ph, ph', rfl, rfl, h⟩⟩
    | _ => simp [act] at h
  | wait w =>
    simp only [act, Option.map_eq_some_iff, Prod.mk.injEq] at h
    obtain ⟨⟨s₁, ph'⟩, h, rfl, rfl, rfl⟩ := h
    exact ⟨rfl, Or.inr ⟨w, ph', rfl, rfl, h⟩⟩

theorem act_inv {c : Config Shared Thread} (hI : Inv c) {i : Nat} {t t' : Thread} {e : Choice} {s' : Shared}
    {new : List Thread} (ht : c.threads[i]? = some t) (ha : act c.shared t e = some (s', t', new)) :
    Inv ⟨s', c.threads.set i t' ++ new⟩ := by
  obtain ⟨rfl, ⟨id, ph, ph', rfl, rfl, h⟩ | ⟨w, ph, rfl, rfl, h⟩⟩ := act_cases ha
  · exact operation_inv hI ht h
  · exact wait_inv hI ht h

theorem run_inv {now : Nat} {tr : List (Config Shared Thread × Label Choice)} {c : Config Shared Thread}
    (h : group.Run (initial now) tr c) : Inv c :=
  h.invariant_by (initial_inv now) (fun _ _ _ _ hI _ h => call_inv hI h)
    (fun _ _ _ _ _ _ _ hI _ ht h => act_inv hI ht h) Program.along_true

end Xdispatch.Group
