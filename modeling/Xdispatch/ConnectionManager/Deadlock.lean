import Xdispatch.Lib.Deadlock
import Xdispatch.ConnectionManager.Model

/-!
# Waiting in a connection manager

A reset waits for the handlers that it disconnects while it holds `m_CS`. If the
function of such a handler has called the manager, or comes to, neither of the
two can go on. Nobody waits for a handler without holding `m_CS`, so this is the
only way in which threads wait for each other.
-/

namespace Xdispatch.ConnectionManager

namespace Frame

def holds : Frame → Bool
  | .disconnects _ | .disables .. | .waits .. => true
  | _ => false

def awaits : Frame → Bool
  | .waits .. => true
  | _ => false

/-- The handler has been entered, and has not completed its barrier. -/
def inScope (h : HandlerId) : Frame → Bool
  | .execute k | .leaving k | .completing k => k = h
  | _ => false

end Frame

def holding (t : Thread) : Bool := t.any Frame.holds

def within (t : Thread) (h : HandlerId) : Bool := t.any (Frame.inScope h)

def barrier (s : Shared) (h : HandlerId) : Bool := (s.handlers h).cancelable.barrier

/-- Who waits for whom: the innermost call of a thread wants `m_CS`, or waits for a barrier that has
not been completed and that a thread in the scope of the handler is to complete. -/
def graph (c : Config Shared Thread) : Waiting Nat where
  locks i := ∃ op stack, c.threads[i]? = some (.lock op :: stack)
  holds i := ∃ t, c.threads[i]? = some t ∧ holding t = true
  awaits i j := ∃ h rest stack t, c.threads[i]? = some (.waits h rest :: stack) ∧ barrier c.shared h = false ∧
    c.threads[j]? = some t ∧ within t h = true

/-- No set of threads wait for each other. -/
def DeadlockFree (c : Config Shared Thread) : Prop := ¬ Deadlocked (graph c).waitsFor

/-- The step leaves the thread in the `m_barrier.wait` of a handler. -/
def comesToWait (s : Shared) : Thread → Option HandlerId
  | .disables h rest :: stack => if s.waitsFor (.disables h rest :: stack) h && !barrier s h then some h else none
  | _ => none

/-- A handler calls the manager only while nobody waits for the end of a handler on this thread, and a
reset does not come to wait for a handler whose thread waits for `m_CS`. -/
def callsFreely (c : Config Shared Thread) : Label Choice → Prop
  | .act i (.operation _) => ∀ j, ¬ (graph c).awaits j i
  | .act i .step => ∀ t h j u, c.threads[i]? = some t → comesToWait c.shared t = some h → c.threads[j]? = some u →
      within u h = true → ¬ (graph c).locks j
  | _ => True

structure Inv (c : Config Shared Thread) : Prop where
  below : ∀ t ∈ c.threads, ∀ f ∈ t.tail, ∃ h, f = .execute h
  mutex : Family.total (fun t => (holding t).toNat) c.threads = c.shared.locked.toNat
  outside : ∀ h rest stack, .waits h rest :: stack ∈ c.threads → current stack h = false

/-! ## Deadlocks -/

section
variable {c c' : Config Shared Thread} {i j : Nat} {t t' : Thread} {s s' : Shared} {f : Frame} {fs stack : List Frame}
  {h k : HandlerId} {e : Choice} {l : Label Choice}

theorem within_executing (hall : ∀ f ∈ stack, ∃ h, f = Frame.execute h) : within stack h = current stack h := by
  rw [Bool.eq_iff_iff]
  simp only [within, current, List.any_eq_true, List.contains_iff_mem]
  constructor
  · rintro ⟨f, hf, hs⟩
    obtain ⟨k, rfl⟩ := hall f hf
    simp only [Frame.inScope, decide_eq_true_eq] at hs
    exact hs ▸ hf
  · exact fun hm => ⟨_, hm, by simp [Frame.inScope]⟩

theorem holding_executing (hall : ∀ f ∈ stack, ∃ h, f = Frame.execute h) : holding stack = false := by
  rw [← Bool.not_eq_true]
  simp only [holding, List.any_eq_true]
  rintro ⟨f, hf, hh⟩
  obtain ⟨k, rfl⟩ := hall f hf
  cases hh

theorem Inv.not_awaits_self (hI : Inv c) : ¬ (graph c).awaits i i := by
  rintro ⟨h, rest, stack, t, ht, -, ht', hs⟩
  cases ht.symm.trans ht'
  have hm := Family.mem_of_get ht
  have hall : ∀ f ∈ stack, ∃ h, f = Frame.execute h := hI.below _ hm
  have : within stack h = true := by simpa [within, Frame.inScope] using hs
  rw [within_executing hall, hI.outside _ _ _ hm] at this
  cases this

theorem holds_of_awaits (hw : (graph c).awaits i j) : (graph c).holds i := by
  obtain ⟨h, rest, stack, t, ht, -⟩ := hw
  exact ⟨_, ht, by simp [holding, Frame.holds]⟩

theorem Inv.holds_unique (hI : Inv c) (hi : (graph c).holds i) (hj : (graph c).holds j) : i = j := by
  obtain ⟨t, ht, hht⟩ := hi
  obtain ⟨u, hu, hhu⟩ := hj
  refine Classical.byContradiction fun hne => ?_
  have hle := Family.le_total_of_ne (fun t => (holding t).toNat) ht hu hne
  rw [hI.mutex] at hle
  simp only [hht, hhu, Bool.toNat_true] at hle
  have := Bool.toNat_le c.shared.locked
  omega

theorem Inv.not_locks (hI : Inv c) (hh : (graph c).holds i) : ¬ (graph c).locks i := by
  rintro ⟨op, stack, ht⟩
  obtain ⟨t, ht', hht⟩ := hh
  cases ht.symm.trans ht'
  have : holding stack = false := holding_executing (hI.below _ (Family.mem_of_get ht))
  simp only [holding] at this hht
  simp [Frame.holds, this] at hht

/-- The one that holds `m_CS` and waits is in every deadlock, and so is one that it waits for. -/
theorem Inv.deadlocked_iff (hI : Inv c) :
    Deadlocked (graph c).waitsFor ↔ ∃ i j, (graph c).awaits i j ∧ (graph c).locks j := by
  constructor
  · rintro ⟨S, ⟨x, hx⟩, hS⟩
    have hawaits : ∃ i ∈ S, ∃ j ∈ S, (graph c).awaits i j := by
      obtain ⟨y, hy, ⟨-, hhy⟩ | hxy⟩ := hS x hx
      · obtain ⟨z, hz, ⟨hly, -⟩ | hyz⟩ := hS y hy
        · exact absurd hly (hI.not_locks hhy)
        · exact ⟨y, hy, z, hz, hyz⟩
      · exact ⟨x, hx, y, hy, hxy⟩
    obtain ⟨i, -, j, hj, hij⟩ := hawaits
    obtain ⟨m, -, ⟨hl, -⟩ | hjm⟩ := hS j hj
    · exact ⟨i, j, hij, hl⟩
    · cases hI.holds_unique (holds_of_awaits hij) (holds_of_awaits hjm)
      exact absurd hij hI.not_awaits_self
  · rintro ⟨i, j, hij, hj⟩
    exact .of_circle (.tail (.single (Or.inr hij)) (Or.inl ⟨hj, holds_of_awaits hij⟩))

/-! ## Steps -/

/-- None of what is done to a handler takes back that its barrier has been completed. -/
inductive Change : (Handler → Handler) → Prop
  | emit : Change .emit
  | begin : Change .begin
  | finish : Change .finish
  | erase : Change .erase
  | enter : Change .enter
  | leave : Change .leave
  | complete : Change .complete
  | disable : Change .disable

theorem Change.barrier {f : Handler → Handler} (hf : Change f) {r : Handler} (hb : (f r).cancelable.barrier = false) :
    r.cancelable.barrier = false := by
  cases hf with
  | enter =>
    simp only [Handler.enter, Cancelable.enter] at hb
    split at hb <;> exact hb
  | leave =>
    simp only [Handler.leave, Cancelable.leave] at hb
    split at hb <;> exact hb
  | complete => cases hb
  | _ => exact hb

theorem barrier_modify {g : Handler → Handler} (hg : Change g) (hb : barrier (s.modify k g) h = false) :
    barrier s h = false := by
  simp only [barrier, Shared.modify] at hb
  split at hb
  · exact hg.barrier hb
  · exact hb

theorem act_barrier (ha : f.act s t = some (s', fs)) (hb : barrier s' h = false) : barrier s h = false := by
  cases f with
  | invoke k =>
    simp only [Frame.act, Option.some.injEq] at ha
    split at ha <;> cases ha
    · exact barrier_modify .enter hb
    · exact barrier_modify .finish hb
  | execute k =>
    cases ha
    exact hb
  | leaving k =>
    simp only [Frame.act, Option.some.injEq] at ha
    split at ha <;> cases ha
    · exact barrier_modify .leave (barrier_modify .finish hb)
    · exact hb
  | completing k =>
    cases ha
    exact barrier_modify .complete (barrier_modify .finish hb)
  | lock op =>
    simp only [Frame.act] at ha
    split at ha <;> cases ha
    exact hb
  | disconnects rest =>
    rcases rest with - | ⟨- | k, rest⟩
    · cases ha
      exact hb
    · cases ha
      exact hb
    · simp only [Frame.act, Option.some.injEq] at ha
      split at ha <;> cases ha
      · exact barrier_modify .erase hb
      · exact hb
  | disables k rest =>
    cases ha
    exact barrier_modify .disable hb
  | waits k rest =>
    simp only [Frame.act] at ha
    split at ha <;> cases ha
    exact hb

/-- What a step of the innermost call `f` of thread `t` leaves in its place. -/
structure Effect (s : Shared) (t : Thread) (f : Frame) (s' : Shared) (fs : List Frame) : Prop where
  single : fs.length ≤ 1
  locks : ∀ op, Frame.lock op ∉ fs
  locked : f.holds = true ∧ s'.locked = false ∧ fs = [] ∨ (holding fs = f.holds ∧ s'.locked = s.locked) ∨
    f.holds = false ∧ s.locked = false ∧ holding fs = true ∧ s'.locked = true
  waits : ∀ h rest, .waits h rest ∈ fs → f = .disables h rest ∧ s.waitsFor t h = true

theorem act_effect (ha : f.act s t = some (s', fs)) : Effect s t f s' fs := by
  have key : ∀ g : Frame, fs = [g] → s'.locked = s.locked → g.holds = f.holds → (∀ op, g ≠ .lock op) →
      (∀ h rest, g ≠ .waits h rest) → Effect s t f s' fs := by
    rintro g rfl hs hg hl hw
    exact ⟨Nat.le_refl _, fun op hm => hl op (List.mem_singleton.mp hm).symm, Or.inr (Or.inl ⟨by simp [holding, hg], hs⟩),
      fun h rest hm => absurd (List.mem_singleton.mp hm).symm (hw h rest)⟩
  have last : fs = [] → s'.locked = s.locked → f.holds = false → Effect s t f s' fs := by
    rintro rfl hs hf
    exact ⟨Nat.zero_le _, by simp, Or.inr (Or.inl ⟨by simp [holding, hf], hs⟩), by simp⟩
  cases f with
  | invoke k =>
    simp only [Frame.act, Option.some.injEq] at ha
    split at ha <;> cases ha
    · exact key _ rfl rfl rfl (by simp) (by simp)
    · exact last rfl rfl rfl
  | execute k =>
    cases ha
    exact key _ rfl rfl rfl (by simp) (by simp)
  | leaving k =>
    simp only [Frame.act, Option.some.injEq] at ha
    split at ha <;> cases ha
    · exact last rfl rfl rfl
    · exact key _ rfl rfl rfl (by simp) (by simp)
  | completing k =>
    cases ha
    exact last rfl rfl rfl
  | lock op =>
    simp only [Frame.act] at ha
    split at ha <;> cases ha
    next hl => exact ⟨Nat.le_refl _, by simp, Or.inr (Or.inr ⟨rfl, by simpa using hl, rfl, rfl⟩), by simp⟩
  | disconnects rest =>
    rcases rest with - | ⟨- | k, rest⟩
    · cases ha
      exact ⟨Nat.zero_le _, by simp, Or.inl ⟨rfl, rfl, rfl⟩, by simp⟩
    · cases ha
      exact key _ rfl rfl rfl (by simp) (by simp)
    · simp only [Frame.act, Option.some.injEq] at ha
      split at ha <;> cases ha
      · exact key _ rfl rfl rfl (by simp) (by simp)
      · exact key _ rfl rfl rfl (by simp) (by simp)
  | disables k rest =>
    cases ha
    by_cases hw : s.waitsFor t k = true
    · simp only [hw, if_true]
      refine ⟨Nat.le_refl _, by simp, Or.inr (Or.inl ⟨rfl, rfl⟩), fun h rest' hm => ?_⟩
      cases List.mem_singleton.mp hm
      exact ⟨rfl, hw⟩
    · simp only [hw, if_false, Bool.false_eq_true]
      exact ⟨Nat.le_refl _, by simp, Or.inr (Or.inl ⟨rfl, rfl⟩), by simp⟩
  | waits k rest =>
    simp only [Frame.act] at ha
    split at ha <;> cases ha
    exact key _ rfl rfl rfl (by simp) (by simp)

/-- A thread begins with an invocation or before `m_CS`. -/
inductive Begins : Frame → Prop
  | invoke (h : HandlerId) : Begins (.invoke h)
  | lock (op : Operation) : Begins (.lock op)

theorem Begins.idle (hb : Begins f) : f.holds = false ∧ (∀ h, f.inScope h = false) ∧ ∀ h rest, f ≠ .waits h rest := by
  cases hb <;> exact ⟨rfl, fun _ => rfl, by simp⟩

/-- What a call begins with changes neither the mutex nor any barrier. -/
structure Same (s s' : Shared) : Prop where
  locked : s'.locked = s.locked
  barrier : ∀ h, barrier s' h = barrier s h

theorem same_modify {g : Handler → Handler} (hg : ∀ r, (g r).cancelable = r.cancelable) : Same s (s.modify k g) := by
  refine ⟨rfl, fun h => ?_⟩
  simp only [ConnectionManager.barrier, Shared.modify]
  split
  · rw [hg]
  · rfl

inductive Steps (c : Config Shared Thread) : Label Choice → Config Shared Thread → Prop
  | emit (e : Choice) (s : Shared) : Same c.shared s → Steps c (.call e) ⟨s, c.threads⟩
  | start (e : Choice) (s : Shared) (g : Frame) : Begins g → Same c.shared s →
      Steps c (.call e) ⟨s, c.threads ++ [[g]]⟩
  | nest (i : Nat) (e : Choice) (s : Shared) (g : Frame) (h : HandlerId) (stack : List Frame) :
      c.threads[i]? = some (.execute h :: stack) → Begins g → (∀ op, g = .lock op ↔ e = .operation op) → e ≠ .step →
      Same c.shared s → Steps c (.act i e) ⟨s, c.threads.set i (g :: .execute h :: stack)⟩
  | act (i : Nat) (f : Frame) (stack : List Frame) (s : Shared) (fs : List Frame) : c.threads[i]? = some (f :: stack) →
      f.act c.shared (f :: stack) = some (s, fs) → Steps c (.act i .step) ⟨s, c.threads.set i (fs ++ stack)⟩

theorem run_eq (hr : s.run h = some s') : s' = s.modify h .begin := by
  unfold Shared.run at hr
  split at hr <;> cases hr
  rfl

theorem next_steps (hn : connectionManager.next c l = some c') : Steps c l c' := by
  cases l with
  | call e =>
    obtain ⟨s', new, hc, rfl⟩ := Program.next_call hn
    cases e with
    | emit h =>
      simp only [connectionManager, call] at hc
      split at hc <;> cases hc
      rw [List.append_nil]
      exact .emit _ _ (same_modify fun _ => rfl)
    | run h =>
      simp only [connectionManager, call, Option.map_eq_some_iff, Prod.mk.injEq] at hc
      obtain ⟨s₁, hr, rfl, rfl⟩ := hc
      rw [run_eq hr]
      exact .start _ _ _ (.invoke h) (same_modify fun _ => rfl)
    | operation op =>
      cases hc
      exact .start _ _ _ (.lock op) ⟨rfl, fun _ => rfl⟩
    | step => cases hc
  | act i e =>
    obtain ⟨t, s', t', new, ht, ha, rfl⟩ := Program.next_act hn
    simp only [connectionManager, ConnectionManager.act] at ha
    split at ha
    next f stack =>
      simp only [Option.map_eq_some_iff, Prod.mk.injEq] at ha
      obtain ⟨⟨s₁, fs⟩, ha, rfl, rfl, rfl⟩ := ha
      rw [List.append_nil]
      exact .act i f stack s₁ fs ht ha
    next h stack k =>
      simp only [Option.map_eq_some_iff, Prod.mk.injEq] at ha
      obtain ⟨s₁, hr, rfl, rfl, rfl⟩ := ha
      rw [run_eq hr, List.append_nil]
      exact .nest i _ _ _ h stack ht (.invoke k) (by simp) (by simp) (same_modify fun _ => rfl)
    next h stack op =>
      cases ha
      rw [List.append_nil]
      exact .nest i _ _ _ h stack ht (.lock op) (by simp) (by simp) ⟨rfl, fun _ => rfl⟩
    · cases ha

theorem holding_cons (f : Frame) (stack : List Frame) : holding (f :: stack) = (f.holds || holding stack) := rfl

theorem holding_append (fs stack : List Frame) : holding (fs ++ stack) = (holding fs || holding stack) := by
  simp [holding]

theorem tail_append (h : fs.length ≤ 1) (hall : ∀ f ∈ stack, ∃ h, f = Frame.execute h) :
    ∀ f ∈ (fs ++ stack).tail, ∃ h, f = Frame.execute h := by
  intro f hf
  refine hall f ?_
  rcases fs with - | ⟨g, - | ⟨g', gs⟩⟩
  · exact List.mem_of_mem_tail hf
  · exact hf
  · simp at h

/-- What is the innermost call after a step is what the step came to, or the function of a handler. -/
theorem top_cases {g : Frame} {stack' : List Frame} (h : fs.length ≤ 1) (hall : ∀ f ∈ stack, ∃ h, f = Frame.execute h)
    (hm : g :: stack' = fs ++ stack) : (∃ h, g = .execute h) ∨ stack' = stack ∧ g ∈ fs := by
  rcases fs with - | ⟨g', - | ⟨g'', gs⟩⟩
  · refine Or.inl (hall g ?_)
    rw [List.nil_append] at hm
    exact hm ▸ List.mem_cons_self ..
  · obtain ⟨rfl, rfl⟩ := List.cons.inj hm
    exact Or.inr ⟨rfl, List.mem_singleton_self _⟩
  · simp at h

theorem inv_steps (hI : Inv c) (hs : Steps c l c') : Inv c' := by
  cases hs with
  | emit e s hs => exact ⟨hI.below, hI.mutex.trans (by rw [hs.locked]), hI.outside⟩
  | start e s g hb hs =>
    refine ⟨Family.forall_append hI.below (by simp), ?_, fun h rest stack hm => ?_⟩
    · rw [Family.total_append, hI.mutex, hs.locked]
      simp [holding, hb.idle.1]
    · rcases List.mem_append.mp hm with hm | hm
      · exact hI.outside h rest stack hm
      · simp only [List.mem_singleton, List.cons.injEq] at hm
        exact absurd hm.1.symm (hb.idle.2.2 h rest)
  | nest i e s g h stack ht hb _ _ hs =>
    have hall : ∀ f ∈ stack, ∃ h, f = Frame.execute h := hI.below _ (Family.mem_of_get ht)
    have htot := Family.total_set (fun t => (holding t).toNat) ht (g :: .execute h :: stack)
    refine ⟨fun t hm => ?_, ?_, fun k rest stack' hm => ?_⟩
    · rcases List.mem_or_eq_of_mem_set hm with hm | rfl
      · exact hI.below t hm
      · simpa using hall
    · rw [hI.mutex, holding_cons g, hb.idle.1, Bool.false_or] at htot
      rw [hs.locked]
      exact Nat.add_right_cancel htot
    · rcases List.mem_or_eq_of_mem_set hm with hm | hm
      · exact hI.outside k rest stack' hm
      · exact absurd (List.cons.inj hm).1.symm (hb.idle.2.2 k rest)
  | act i f stack s fs ht ha =>
    have hmem := Family.mem_of_get ht
    have hall : ∀ f ∈ stack, ∃ h, f = Frame.execute h := hI.below _ hmem
    have he := act_effect ha
    have htot := Family.total_set (fun t => (holding t).toNat) ht (fs ++ stack)
    have hle := Family.le_total (fun t => (holding t).toNat) hmem
    refine ⟨fun t hm => ?_, ?_, fun k rest stack' hm => ?_⟩
    · rcases List.mem_or_eq_of_mem_set hm with hm | rfl
      · exact hI.below t hm
      · exact tail_append he.single hall
    · rw [hI.mutex] at htot hle
      simp only [holding_cons, holding_append, holding_executing hall, Bool.or_false] at htot hle
      change Family.total (fun t => (holding t).toNat) (c.threads.set i (fs ++ stack)) = s.locked.toNat
      rcases he.locked with ⟨hf, hs, rfl⟩ | ⟨hf, hs⟩ | ⟨hf, hs, hfs, hs'⟩
      · have hone := Bool.toNat_le c.shared.locked
        rw [hf] at htot hle
        change _ + 1 = _ + 0 at htot
        change 1 ≤ _ at hle
        rw [hs, Bool.toNat_false]
        omega
      · rw [hf] at htot
        rw [hs]
        exact Nat.add_right_cancel htot
      · rw [hf, hs, hfs] at htot
        rw [hs']
        change _ + 0 = 0 + 1 at htot
        exact htot
    · rcases List.mem_or_eq_of_mem_set hm with hm | hm
      · exact hI.outside k rest stack' hm
      · obtain ⟨rfl, hw⟩ := (top_cases he.single hall hm).resolve_left (by simp)
        obtain ⟨rfl, hw⟩ := he.waits k rest hw
        simp only [Shared.waitsFor, Bool.and_eq_true, Bool.not_eq_true'] at hw
        simpa [current] using hw.1

/-! ## Circles -/

/-- No reset waits for a handler on a thread that waits for `m_CS`. -/
def Clear (c : Config Shared Thread) : Prop := ∀ i j, (graph c).awaits i j → ¬ (graph c).locks j

theorem awaits_of (hb : ∀ h, barrier c'.shared h = false → barrier c.shared h = false)
    (hi : ∀ h rest stack, c'.threads[i]? = some (.waits h rest :: stack) → c.threads[i]? = some (.waits h rest :: stack))
    (hj : ∀ t', c'.threads[j]? = some t' → ∃ t, c.threads[j]? = some t ∧ ∀ h, within t' h = true → within t h = true)
    (hw : (graph c').awaits i j) : (graph c).awaits i j := by
  obtain ⟨h, rest, stack, t', ht, hbar, ht', hwi⟩ := hw
  obtain ⟨t, htj, hle⟩ := hj t' ht'
  exact ⟨h, rest, stack, t, hi h rest stack ht, hb h hbar, htj, hle h hwi⟩

theorem get_set {k : Nat} (ht : c.threads[i]? = some t) (t' : Thread) :
    k = i ∧ (c.threads.set i t')[k]? = some t' ∨ k ≠ i ∧ (c.threads.set i t')[k]? = c.threads[k]? := by
  by_cases hki : k = i
  · subst hki
    exact Or.inl ⟨rfl, Family.get_set_self ht t'⟩
  · exact Or.inr ⟨hki, List.getElem?_set_ne (Ne.symm hki)⟩

theorem get_new {ts : List Thread} {g : Frame} (h : (ts ++ [[g]])[i]? = some t) : ts[i]? = some t ∨ t = [g] := by
  rcases Nat.lt_or_ge i ts.length with hi | hi
  · rw [List.getElem?_append_left hi] at h
    exact Or.inl h
  · exact Or.inr (List.mem_singleton.mp (List.mem_of_getElem? (by rwa [List.getElem?_append_right hi] at h)))

theorem clear_steps (hI : Inv c) (hN : Clear c) (hC : callsFreely c l) (hs : Steps c l c') : Clear c' := by
  cases hs with
  | emit e s hs =>
    intro i j hw
    refine hN i j (awaits_of ?_ ?_ ?_ hw)
    · exact fun h hb => (hs.barrier h).symm.trans hb
    · exact fun _ _ _ h => h
    · exact fun t ht => ⟨t, ht, fun _ => id⟩
  | start e s g hb hs =>
    rintro i j ⟨h, rest, stack, t, hi, hbar, hj, hwi⟩ ⟨op, stack', hl⟩
    have hi : c.threads[i]? = some (.waits h rest :: stack) :=
      (get_new hi).resolve_right fun heq => hb.idle.2.2 h rest (List.cons.inj heq).1.symm
    have hj' : c.threads[j]? = some t := (get_new hj).resolve_right fun heq => by
      rw [heq] at hwi
      simp [within, hb.idle.2.1 h] at hwi
    cases hj.symm.trans hl
    exact hN i j ⟨h, rest, stack, _, hi, (hs.barrier h).symm.trans hbar, hj', hwi⟩ ⟨op, stack', hj'⟩
  | nest i e s g h stack ht hb hop he hs =>
    have hset := fun k => get_set (k := k) ht (g :: .execute h :: stack)
    rintro a b hw ⟨op, stack', hl⟩
    have ha : (graph c).awaits a b := by
      refine awaits_of ?_ ?_ ?_ hw
      · exact fun h hb => (hs.barrier h).symm.trans hb
      · intro k rest stack' hk
        rcases hset a with ⟨rfl, hg⟩ | ⟨-, hg⟩
        · exact absurd (List.cons.inj (Option.some.inj (hk.symm.trans hg))).1.symm (hb.idle.2.2 k rest)
        · exact hg.symm.trans hk
      · intro t' ht'
        rcases hset b with ⟨rfl, hg⟩ | ⟨-, hg⟩
        · cases hg.symm.trans ht'
          exact ⟨_, ht, fun k hk => by simpa [within, hb.idle.2.1 k] using hk⟩
        · exact ⟨t', hg.symm.trans ht', fun _ => id⟩
    rcases hset b with ⟨rfl, hg⟩ | ⟨-, hg⟩
    · -- the thread has come to the mutex
      cases (hop op).mp (List.cons.inj (Option.some.inj (hg.symm.trans hl))).1
      exact hC a ha
    · exact hN a b ha ⟨op, stack', hg.symm.trans hl⟩
  | act i f stack s fs ht ha =>
    have hset := fun k => get_set (k := k) ht (fs ++ stack)
    have hall : ∀ f ∈ stack, ∃ h, f = Frame.execute h := hI.below _ (Family.mem_of_get ht)
    have he := act_effect ha
    rintro a b hw ⟨op, stack', hl⟩
    have hb : b ≠ i := by
      rintro rfl
      rcases hset b with ⟨-, hg⟩ | ⟨hne, -⟩
      · have heq := Option.some.inj (hl.symm.trans hg)
        exact he.locks op ((top_cases he.single hall heq).resolve_left (by simp)).2
      · exact hne rfl
    have hlb : c.threads[b]? = some (.lock op :: stack') := by
      rcases hset b with ⟨rfl, -⟩ | ⟨-, hg⟩
      · exact absurd rfl hb
      · exact hg.symm.trans hl
    rcases hset a with ⟨rfl, hg⟩ | ⟨hne, hg⟩
    · -- the reset has come to wait
      obtain ⟨h, rest, stack'', t, hta, hbar, htb, hwi⟩ := hw
      have heq := Option.some.inj (hta.symm.trans hg)
      obtain ⟨rfl, hw⟩ := he.waits h rest ((top_cases he.single hall heq).resolve_left (by simp)).2
      have hbar := act_barrier ha hbar
      refine hC _ h b _ ht ?_ hlb ?_ ⟨op, stack', hlb⟩
      · simp [comesToWait, hw, hbar]
      · cases hl.symm.trans htb
        exact hwi
    · refine hN a b (awaits_of ?_ ?_ ?_ hw) ⟨op, stack', hlb⟩
      · exact fun h => act_barrier ha
      · exact fun h rest stack'' hk => hg.symm.trans hk
      · intro t ht'
        cases hl.symm.trans ht'
        exact ⟨_, hlb, fun _ => id⟩

/-- The two kinds of steps that `callsFreely` rules out close a circle. -/
theorem not_clear_steps (hC : ¬ callsFreely c l) (hs : Steps c l c') : ¬ Clear c' := by
  intro hN
  cases hs with
  | emit | start => exact hC trivial
  | nest i e s g h stack ht hb hop he hs =>
    cases e with
    | operation op =>
      refine hC fun a ha => ?_
      obtain ⟨k, rest, stack', t, hta, hbar, hti, hwi⟩ := ha
      have hne : a ≠ i := by
        rintro rfl
        cases ht.symm.trans hta
      cases (hop op).mpr rfl
      cases ht.symm.trans hti
      refine hN a i ⟨k, rest, stack', _, ?_, (hs.barrier k).trans hbar, Family.get_set_self ht _, ?_⟩
        ⟨op, _, Family.get_set_self ht _⟩
      · rw [← hta]
        exact List.getElem?_set_ne (Ne.symm hne)
      · simpa [within, Frame.inScope] using hwi
    | step => exact he rfl
    | _ => exact hC trivial
  | act i f stack s fs ht ha =>
    refine hC fun t h j u ht' hw hj hwi hl => ?_
    cases ht.symm.trans ht'
    obtain ⟨op, stack', hlj⟩ := hl
    cases f with
    | disables k rest =>
      simp only [comesToWait] at hw
      split at hw <;> cases hw
      next hwait =>
      simp only [Bool.and_eq_true, Bool.not_eq_true'] at hwait
      simp only [Frame.act, hwait.1, if_true, Option.some.injEq, Prod.mk.injEq] at ha
      obtain ⟨rfl, rfl⟩ := ha
      have hne : j ≠ i := by
        rintro rfl
        cases ht.symm.trans hlj
      refine hN i j ⟨h, rest, stack, u, Family.get_set_self ht _, ?_, ?_, hwi⟩ ⟨op, stack', ?_⟩
      · simpa [barrier, Shared.modify, Handler.disable, Cancelable.disable] using hwait.2
      · rw [← hj]
        exact List.getElem?_set_ne (Ne.symm hne)
      · rw [← hlj]
        exact List.getElem?_set_ne (Ne.symm hne)
    | _ => cases hw

theorem initial_inv : Inv initial ∧ Clear initial := by
  refine ⟨⟨by simp [initial], rfl, by simp [initial]⟩, ?_⟩
  rintro i j ⟨h, rest, stack, t, ht, -⟩
  cases ht

theorem Inv.deadlockFree_iff (hI : Inv c) : DeadlockFree c ↔ Clear c := by
  unfold DeadlockFree
  rw [hI.deadlocked_iff]
  constructor
  · exact fun h i j ha hl => h ⟨i, j, ha, hl⟩
  · rintro h ⟨i, j, ha, hl⟩
    exact h i j ha hl

/-- The threads that use a connection manager wait for each other only in the runs in which the manager
is called, or a reset comes to wait, where `callsFreely` rules it out. -/
theorem manager_deadlockFree_iff {tr : List (Config Shared Thread × Label Choice)} (h : connectionManager.Run initial tr c) :
    Program.Along callsFreely tr ↔ (∀ p ∈ tr, DeadlockFree p.1) ∧ DeadlockFree c := by
  refine h.along_iff (I := fun c => Inv c ∧ Clear c) initial_inv ?_ (fun _ hI => hI.1.deadlockFree_iff.mpr hI.2) ?_
  · intro c l c' hI hC hn
    exact ⟨inv_steps hI.1 (next_steps hn), clear_steps hI.1 hI.2 hC (next_steps hn)⟩
  · intro c l c' hI hC hn hd
    have hI' := inv_steps hI.1 (next_steps hn)
    exact not_clear_steps hC (next_steps hn) (hI'.deadlockFree_iff.mp hd)

end

/-- No reset waits for a handler when a handler calls the manager, and none comes to wait. -/
def uncontended (c : Config Shared Thread) : Label Choice → Bool
  | .act _ (.operation _) => c.threads.all fun t => t.head?.all fun f => !f.awaits
  | .act i .step => c.threads[i]?.all fun t => comesToWait c.shared t = none
  | _ => true

theorem uncontended_callsFreely {c : Config Shared Thread} {l : Label Choice} (hu : uncontended c l = true) :
    callsFreely c l := by
  cases l with
  | call e => trivial
  | act i e =>
    cases e with
    | operation op =>
      rintro j ⟨h, rest, stack, t, ht, -⟩
      have := List.all_eq_true.mp hu _ (Family.mem_of_get ht)
      cases this
    | step =>
      intro t h j u ht hw
      simp only [uncontended, ht, Option.all_some, decide_eq_true_eq] at hu
      rw [hu] at hw
      cases hw
    | _ => trivial

/-- The manager gets the connections `l`, and each of their handlers is called on a thread of its own. -/
def managed (l : List HandlerId) : List (Label Choice) :=
  (l.zipIdx.flatMap fun p => [Label.call (Choice.operation (.add (some p.1))), .act p.2 .step, .act p.2 .step]) ++
    l.map (Label.call ∘ Choice.emit) ++
    l.zipIdx.flatMap fun p => [Label.call (Choice.run p.1), .act (l.length + p.2) .step]

/-- The function of a handler resets the manager that has its own connection, as the test of the repository does. -/
def resetItself : List (Label Choice) :=
  managed [⟨0, 0⟩] ++ Label.act 1 (Choice.operation .reset) :: List.replicate 7 (.act 1 .step)

theorem manager_deadlockFree_iff_itself : (∀ p ∈ connectionManager.path initial resetItself, DeadlockFree p.1) ∧
    DeadlockFree (connectionManager.last initial resetItself) := by
  refine (manager_deadlockFree_iff (Program.run_last (l := resetItself) (by decide))).mp fun p hp => ?_
  have hall : ∀ p ∈ connectionManager.path initial resetItself, uncontended p.1 p.2 = true := by decide
  exact uncontended_callsFreely (hall p hp)

/-- Two handlers on two threads reset it: the one that has `m_CS` waits for the other, which wants it. -/
def resetBoth : List (Label Choice) :=
  managed [⟨0, 0⟩, ⟨0, 1⟩] ++
    Label.act 3 (Choice.operation .reset) :: .act 2 (.operation .reset) :: List.replicate 5 (.act 2 .step)

theorem resetBoth_deadlocks : ¬ ∀ (tr : List (Config Shared Thread × Label Choice)) (c : Config Shared Thread),
    connectionManager.Run initial tr c → DeadlockFree c := by
  intro hall
  have hfree := hall _ _ (Program.run_last (l := resetBoth) (by decide))
  have hawaits : (graph (connectionManager.last initial resetBoth)).awaits 2 3 := ⟨⟨0, 1⟩, [], _, _, rfl, rfl, rfl, rfl⟩
  have hlocks : (graph (connectionManager.last initial resetBoth)).locks 3 := ⟨.reset, _, rfl⟩
  exact hfree (.of_circle (.tail (.single (Or.inr hawaits)) (Or.inl ⟨hlocks, holds_of_awaits hawaits⟩)))

end Xdispatch.ConnectionManager
