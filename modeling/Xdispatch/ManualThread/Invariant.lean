import Xdispatch.ManualThread.Model
import Xdispatch.Lifetime.Stages

/-!
# Where the wakeups are

A wakeup of the queue is in `m_queued_ops`, in the rest of a batch, or being run;
what is left of it otherwise has returned, or was destroyed by an exception. All
this holds in any run. So outside of `run` no drain is in progress: the guards of
`drain` have popped the entry, reset the flag and released the mutex.
-/

namespace Xdispatch.OperationQueue

/-! ## Calls and drains -/

def Critical.ofCall : Critical → Bool
  | .asyncPush (some (.operation _)) | .asyncNotify | .unlock => true
  | _ => false

/-- A call of `async`. -/
def Thread.ofCall : Thread → Bool
  | .lock p | .holding p => p.ofCall
  | .returned => true
  | _ => false

def Critical.ofDrain : Critical → Bool
  | .drainBegin | .drainSwap _ | .drainUnlock .. | .drainPop _ | .drainYield | .unwindPop _ | .unwindFree | .drainEnd
  | .unlock => true
  | _ => false

def Thread.ofDrain : Thread → Bool
  | .lock p | .holding p => p.ofDrain
  | .drainProcess .. | .drainRunning .. | .deadlocked | .returned => true

/-- Has emptied the entry at the head of the list, and not popped it. -/
def Critical.emptied : Critical → Nat
  | .drainUnlock .. | .drainPop _ | .unwindPop _ => 1
  | _ => 0

def Thread.emptied : Thread → Nat
  | .lock p | .holding p => p.emptied
  | .drainProcess .. | .drainRunning .. => 1
  | .deadlocked | .returned => 0

/-- What a thread posts is a wakeup, one at most. -/
def Posts (new : List Thread) : Prop := new = [] ∨ new = [.lock .drainBegin]

theorem notifyUnsafe_posts (s : Shared) : Posts s.notifyUnsafe := by
  unfold Posts Shared.notifyUnsafe
  split
  · exact Or.inr rfl
  · exact Or.inl rfl

theorem emptied_le_drains (t : Thread) : t.emptied ≤ t.drains := by
  cases t with
  | lock p | holding p => cases p <;> first | exact Nat.le_refl _ | exact Nat.zero_le _
  | _ => exact Nat.le_refl _

section
variable {s s' : Shared} {t t' : Thread} {e : Choice} {new : List Thread}

theorem step_ofCall (h : Step s t e s' t' new) (ht : t.ofCall = true) :
    t'.ofCall = true ∧ s'.isAttached = s.isAttached ∧ Posts new := by
  cases h with
  | lock => exact ⟨ht, rfl, Or.inl rfl⟩
  | @holding p =>
    cases p with
    | asyncPush job =>
      refine ⟨?_, rfl, Or.inl rfl⟩
      simp only [Critical.act]
      split <;> rfl
    | asyncNotify => exact ⟨rfl, rfl, notifyUnsafe_posts s⟩
    | unlock => exact ⟨rfl, rfl, Or.inl rfl⟩
    | _ => cases ht
  | _ => cases ht

theorem drainLoop_ofDrain (jobs : List (Option Job)) (r : Nat) : (drainLoop jobs r).ofDrain = true := by
  unfold drainLoop
  split
  · rfl
  · split <;> rfl

theorem step_ofDrain (h : Step s t e s' t' new) (ht : t.ofDrain = true) :
    t'.ofDrain = true ∧ s'.isAttached = s.isAttached ∧ Posts new := by
  cases h with
  | lock => exact ⟨ht, rfl, Or.inl rfl⟩
  | start | skip | throw | deadlock => exact ⟨rfl, rfl, Or.inl rfl⟩
  | @finish job =>
    obtain ⟨m, hm⟩ := run_eq s job
    rw [hm]
    exact ⟨rfl, rfl, Or.inl rfl⟩
  | @holding p =>
    cases p with
    | drainBegin | drainPop => exact ⟨drainLoop_ofDrain _ _, rfl, Or.inl rfl⟩
    | drainSwap =>
      refine ⟨rfl, ?_, Or.inl rfl⟩
      simp only [Critical.act, Shared.swapFront]
      split <;> rfl
    | drainYield => exact ⟨rfl, rfl, notifyUnsafe_posts s⟩
    | drainUnlock | unwindPop | unwindFree | drainEnd | unlock => exact ⟨rfl, rfl, Or.inl rfl⟩
    | _ => cases ht

theorem step_posts (h : Step s t e s' t' new) (ht : t.ofCall = true ∨ t.ofDrain = true) :
    s'.isAttached = s.isAttached ∧ Posts new := by
  rcases ht with ht | ht
  · exact (step_ofCall h ht).2
  · exact (step_ofDrain h ht).2

theorem Posts.get (h : Posts new) {ts : List Thread} {m n : Nat} (hm : m ∈ List.range' ts.length new.length) :
    (ts.set n t' ++ new)[m]? = some (.lock .drainBegin) := by
  have hm := List.mem_range'_1.mp hm
  rw [List.getElem?_append_right (by simpa using hm.1), List.length_set]
  rcases h with rfl | rfl
  · simp only [List.length_nil] at hm
    omega
  · obtain rfl : m = ts.length := by
      simp only [List.length_singleton] at hm
      omega
    rw [Nat.sub_self]
    rfl

theorem Posts.emptied (h : Posts new) : Family.total Thread.emptied new = 0 := by
  rcases h with rfl | rfl <;> rfl

theorem Emptied.count {jobs : List (Option Job)} {r : Nat} (h : Emptied jobs r) :
    jobs.count none = jobs.tail.count none + 1 := by
  cases jobs with
  | nil => cases h.2.2
  | cons job jobs =>
    cases h.2.2
    exact List.count_cons_self

theorem step_emptied (h : Step s t e s' t' new) (hf : t.Fits s.jobs) (hp : t.ofCall = true ∨ t.ofDrain = true)
    (hs : t.drains ≠ 0 → s.jobs.count none = t.emptied) :
    s'.jobs.count none + t.emptied = s.jobs.count none + t'.emptied + Family.total Thread.emptied new := by
  have hloop : ∀ jobs r, (drainLoop jobs r).emptied = 0 := by
    intro jobs r
    unfold drainLoop
    split
    · rfl
    · split <;> rfl
  cases h with
  | lock | start | skip | throw | deadlock => rfl
  | @finish job =>
    obtain ⟨m, hm⟩ := run_eq s job
    rw [hm]
    rfl
  | @holding p =>
    cases p with
    | asyncPush job =>
      cases job with
      | none => rcases hp with hp | hp <;> cases hp
      | some job =>
        have h0 : (if s.notifies then Critical.asyncNotify else .unlock).emptied = 0 := by
          split <;> rfl
        simp only [Critical.act, Shared.pushBack, List.count_append, Thread.emptied, h0]
        rfl
    | asyncNotify | drainYield => exact (notifyUnsafe_posts s).emptied ▸ rfl
    | drainBegin =>
      simp only [Critical.act, Thread.emptied, hloop]
      rfl
    | drainSwap r =>
      cases hj : s.jobs with
      | nil =>
        have := hf.1
        have := hf.2
        simp only [hj, List.length_nil] at this
        omega
      | cons job jobs =>
        have h0 : (job :: jobs).count none = 0 := hj ▸ hs (by simp [Thread.drains, Critical.drains])
        have hjob := (List.count_eq_zero.mp h0)
        have : jobs.count none = 0 := List.count_eq_zero.mpr fun h => hjob (List.mem_cons_of_mem _ h)
        simp only [Critical.act, swapFront_cons hj, List.count_cons_self, h0, this]
        rfl
    | drainPop r =>
      change s.jobs.tail.count none + 1 = s.jobs.count none + (drainLoop s.jobs.tail (r - 1)).emptied + 0
      rw [hloop, Emptied.count hf]
    | unwindPop r =>
      change s.jobs.tail.count none + 1 = s.jobs.count none + 0 + 0
      rw [Emptied.count hf]
    | drainUnlock | unwindFree | drainEnd | unlock => rfl
    | _ => rcases hp with hp | hp <;> cases hp

end

theorem Inv.emptied {c : Config Shared Thread} (h : Inv c) {i : Nat} {t : Thread} (ht : c.threads[i]? = some t)
    (hd : t.drains ≠ 0) : Family.total Thread.emptied c.threads = t.emptied := by
  refine Family.total_eq_of_others Thread.emptied ht fun j x hij hx => ?_
  have := h.alone ht hd hij hx
  have := emptied_le_drains x
  omega

end Xdispatch.OperationQueue

namespace Xdispatch.ManualThread

open OperationQueue (operationQueue)

/-! ## The place of a wakeup -/

def Work.wakeup : Work → Option Nat
  | .drain n => some n
  | .other _ => none

def wakeupsOf (l : List Work) : Multiset Nat := (l.filterMap Work.wakeup : List Nat)

@[simp] theorem wakeupsOf_nil : wakeupsOf [] = 0 := rfl

theorem wakeupsOf_append (l l' : List Work) : wakeupsOf (l ++ l') = wakeupsOf l + wakeupsOf l' := by
  simp [wakeupsOf, List.filterMap_append]

theorem wakeupsOf_cons (w : Work) (l : List Work) : wakeupsOf (w :: l) = (w.wakeup.toList : Multiset Nat) + wakeupsOf l := by
  cases w <;> simp [wakeupsOf, List.filterMap_cons, Work.wakeup]

theorem wakeupsOf_drains (l : List Nat) : wakeupsOf (l.map .drain) = (l : Multiset Nat) := by
  induction l with
  | nil => rfl
  | cons n l ih => rw [List.map_cons, wakeupsOf_cons, ih]; rfl

theorem mem_wakeupsOf {l : List Work} {n : Nat} : n ∈ wakeupsOf l ↔ Work.drain n ∈ l := by
  simp only [wakeupsOf, Multiset.mem_coe, List.mem_filterMap]
  constructor
  · rintro ⟨w, hw, h⟩
    cases w with
    | drain m =>
      cases h
      exact hw
    | other id => cases h
  · exact fun h => ⟨_, h, rfl⟩

namespace Driver

/-- The rest of the batch. -/
def activeOps : Driver → List Work
  | .next ops | .running _ ops _ => ops
  | _ => []

def current : Driver → Option Nat
  | .running op _ _ => op.wakeup
  | _ => none

end Driver

/-- The wakeups that nobody runs. -/
def pending (s : Shared) (d : Driver) : Multiset Nat :=
  wakeupsOf s.queuedOps + wakeupsOf d.activeOps + wakeupsOf s.dropped

/-- With the one that is being run. -/
def held (s : Shared) (d : Driver) : Multiset Nat := (d.current.toList : Multiset Nat) + pending s d

theorem mem_held {s : Shared} {d : Driver} {n : Nat} : n ∈ held s d ↔ d.current = some n ∨ n ∈ pending s d := by
  simp [held, Option.mem_toList]

structure Inv (s : Shared) (d : Driver) : Prop where
  run : ∃ tr, operationQueue.Run OperationQueue.initial tr s.queue
  attached : s.queue.shared.isAttached = true
  emptied : Family.total OperationQueue.Thread.emptied s.queue.threads = s.queue.shared.jobs.count none
  callers : ∀ n t, s.queue.threads[n]? = some t → n ∉ s.wakeups → t.ofCall = true
  known : ∀ n ∈ held s d, n ∈ s.wakeups
  distinct : (held s d).Nodup
  posted : ∀ n ∈ pending s d, s.queue.threads[n]? = some (.lock .drainBegin)
  current : ∀ n, d.current = some n → ∃ t, s.queue.threads[n]? = some t ∧ t.ofDrain = true
  ended : ∀ n ∈ s.wakeups, n ∉ held s d → s.queue.threads[n]? = some .returned

section
variable {s s' : Shared} {d d' : Driver}

theorem Inv.queue (h : Inv s d) : OperationQueue.Inv s.queue := h.run.elim fun _ => OperationQueue.run_inv

theorem Inv.wakeup (h : Inv s d) {n : Nat} (hn : n ∈ s.wakeups) :
    ∃ t, s.queue.threads[n]? = some t ∧ t.ofDrain = true := by
  by_cases hh : n ∈ held s d
  · rcases mem_held.mp hh with hc | hp
    · exact h.current n hc
    · exact ⟨_, h.posted n hp, rfl⟩
  · exact ⟨_, h.ended n hn hh, rfl⟩

theorem Inv.batch_posted (h : Inv s d) {n : Nat} (hn : Work.drain n ∈ d.activeOps) :
    s.queue.threads[n]? = some (.lock .drainBegin) :=
  h.posted n (Multiset.mem_add.mpr (Or.inl (Multiset.mem_add.mpr (Or.inr (mem_wakeupsOf.mpr hn)))))

theorem Inv.ofCall_or (h : Inv s d) {n : Nat} {t : OperationQueue.Thread} (ht : s.queue.threads[n]? = some t) :
    t.ofCall = true ∨ t.ofDrain = true := by
  by_cases hn : n ∈ s.wakeups
  · obtain ⟨t', ht', hd⟩ := h.wakeup hn
    cases ht.symm.trans ht'
    exact Or.inr hd
  · exact Or.inl (h.callers n t ht hn)

theorem Inv.wakeup_lt (h : Inv s d) {n : Nat} (hn : n ∈ s.wakeups) : n < s.queue.threads.length := by
  obtain ⟨t, ht, -⟩ := h.wakeup hn
  exact (List.getElem?_eq_some_iff.mp ht).1

theorem Inv.not_pending (h : Inv s d) {n : Nat} (hn : n ∉ s.wakeups ∨ d.current = some n) : n ∉ pending s d := by
  intro hp
  rcases hn with hn | hn
  · exact hn (h.known n (mem_held.mpr (Or.inr hp)))
  · have := h.distinct
    simp only [held, hn, Option.toList_some, Multiset.coe_singleton, Multiset.singleton_add, Multiset.nodup_cons] at this
    exact this.1 hp

theorem Inv.move (h : Inv s d) (hq : s'.queue = s.queue) (hw : s'.wakeups = s.wakeups) (hle : held s' d' ≤ held s d)
    (hp : ∀ n ∈ pending s' d', n ∈ pending s d)
    (ho : ∀ n ∈ held s d, n ∈ held s' d' ∨ s.queue.threads[n]? = some .returned) : Inv s' d' := by
  obtain ⟨hrun, hatt, hemp, hcall, hknown, hdist, hpost, hcur, hended⟩ := h
  refine ⟨by rwa [hq], by rwa [hq], by rwa [hq], by rwa [hq, hw], fun n hn => ?_, Multiset.nodup_of_le hle hdist,
    fun n hn => ?_, fun n hn => ?_, fun n hn hh => ?_⟩
  · rw [hw]
    exact hknown n (Multiset.mem_of_le hle hn)
  · rw [hq]
    exact hpost n (hp n hn)
  · rw [hq]
    rcases mem_held.mp (Multiset.mem_of_le hle (mem_held.mpr (Or.inl hn))) with hc | hp
    · exact hcur n hc
    · exact ⟨_, hpost n hp, rfl⟩
  · rw [hq]
    rw [hw] at hn
    by_cases hh' : n ∈ held s d
    · exact (ho n hh').resolve_left hh
    · exact hended n hn hh'

theorem advance_cases {n : Nat} {e : OperationQueue.Choice} (h : s.advance n e = some s') :
    ∃ t σ t' new, s.queue.threads[n]? = some t ∧ OperationQueue.act s.queue.shared t e = some (σ, t', new) ∧
      operationQueue.next s.queue (.act n e) = some ⟨σ, s.queue.threads.set n t' ++ new⟩ ∧
      s' = { s with
        queue := ⟨σ, s.queue.threads.set n t' ++ new⟩
        wakeups := s.wakeups ++ List.range' s.queue.threads.length new.length
        queuedOps := s.queuedOps ++ (List.range' s.queue.threads.length new.length).map .drain
        notifications := s.notifications + new.length } := by
  simp only [Shared.advance, Option.map_eq_some_iff] at h
  obtain ⟨q, hq, rfl⟩ := h
  obtain ⟨t, σ, t', new, ht, ha, rfl⟩ := Program.next_act hq
  exact ⟨t, σ, t', new, ht, ha, hq, by simp [Shared.execute]⟩

theorem pending_post {fresh : List Nat} (hq : s'.queuedOps = s.queuedOps ++ fresh.map .drain) (hd : s'.dropped = s.dropped)
    (hops : d'.activeOps = d.activeOps) : pending s' d' = pending s d + (fresh : Multiset Nat) := by
  simp only [pending, hq, hd, hops, wakeupsOf_append, wakeupsOf_drains]
  abel

theorem Inv.advance (hI : Inv s d) {n : Nat} {e : OperationQueue.Choice} (h : s.advance n e = some s')
    (hn : n ∉ s.wakeups ∨ d.current = some n) (hops : d'.activeOps = d.activeOps) (hcur : d'.current = d.current) :
    Inv s' d' := by
  have hQ := hI.queue
  obtain ⟨t, σ, t', new, ht, ha, hnext, hs'⟩ := advance_cases h
  have hstep := OperationQueue.act_step ha
  have hkind := hI.ofCall_or ht
  obtain ⟨hatt, hposts⟩ := OperationQueue.step_posts hstep hkind
  have hpending : pending s' d' = pending s d + (List.range' s.queue.threads.length new.length : Multiset Nat) :=
    pending_post (by rw [hs']) (by rw [hs']) hops
  have hheld : held s' d' = held s d + (List.range' s.queue.threads.length new.length : Multiset Nat) := by
    unfold held
    rw [hcur, hpending, add_assoc]
  have hwakeups : s'.wakeups = s.wakeups ++ List.range' s.queue.threads.length new.length := by rw [hs']
  have hqueue : s'.queue = ⟨σ, s.queue.threads.set n t' ++ new⟩ := by rw [hs']
  refine ⟨?_, ?_, ?_, fun m x hx hm => ?_, fun m hm => ?_, ?_, fun m hm => ?_, fun m hm => ?_, fun m hm hh => ?_⟩
  · obtain ⟨tr, hr⟩ := hI.run
    rw [hqueue]
    exact ⟨_, hr.snoc hnext⟩
  · rw [hqueue]
    exact hatt.trans hI.attached
  · have hs : t.drains ≠ 0 → s.queue.shared.jobs.count none = t.emptied := fun hd =>
      hI.emptied.symm.trans (hQ.emptied ht hd)
    rw [hqueue]
    exact Family.total_eq_step hI.emptied ht (OperationQueue.step_emptied hstep (hQ.fits t (Family.mem_of_get ht)) hkind hs)
  · rw [hqueue] at hx
    rw [hwakeups, List.mem_append, not_or] at hm
    rcases Family.get_cases hx with ⟨rfl, rfl⟩ | ⟨-, hx⟩ | ⟨k, rfl, hk⟩
    · exact (OperationQueue.step_ofCall hstep (hI.callers m t ht hm.1)).1
    · exact hI.callers m x hx hm.1
    · have := (List.getElem?_eq_some_iff.mp hk).1
      exact absurd (List.mem_range'_1.mpr ⟨by omega, by omega⟩) hm.2
  · rw [hheld, Multiset.mem_add] at hm
    rw [hwakeups]
    exact List.mem_append.mpr (hm.imp_left (hI.known m))
  · rw [hheld, Multiset.nodup_add]
    refine ⟨hI.distinct, Multiset.coe_nodup.mpr List.nodup_range', Multiset.disjoint_left.mpr fun {m} hm hf => ?_⟩
    have := hI.wakeup_lt (hI.known _ hm)
    have := (List.mem_range'_1.mp (Multiset.mem_coe.mp hf)).1
    omega
  · rw [hqueue]
    rw [hpending, Multiset.mem_add] at hm
    rcases hm with hm | hm
    · have hmn : n ≠ m := fun e => hI.not_pending hn (e ▸ hm)
      exact Family.get_step_of_ne (hI.posted m hm) hmn _ _
    · exact hposts.get (Multiset.mem_coe.mp hm)
  · rw [hcur] at hm
    obtain ⟨x, hx, hd⟩ := hI.current m hm
    rw [hqueue]
    by_cases hmn : m = n
    · subst hmn
      cases ht.symm.trans hx
      exact ⟨t', Family.get_step ht _ _, (OperationQueue.step_ofDrain hstep hd).1⟩
    · exact ⟨x, Family.get_step_of_ne hx (Ne.symm hmn) _ _, hd⟩
  · rw [hheld, Multiset.mem_add, not_or] at hh
    rw [hwakeups, List.mem_append] at hm
    have hw := hm.resolve_right hh.2
    have hmn : n ≠ m := by
      rintro rfl
      rcases hn with hn | hn
      · exact hn hw
      · exact hh.1 (mem_held.mpr (Or.inl hn))
    rw [hqueue]
    exact Family.get_step_of_ne (hI.ended m hw hh.1) hmn _ _

theorem Inv.async (hI : Inv s d) {id : Nat} {q : Config OperationQueue.Shared OperationQueue.Thread}
    (h : operationQueue.next s.queue (.call (.async (some id))) = some q) : Inv { s with queue := q } d := by
  obtain ⟨σ, new, hc, rfl⟩ := Program.next_call h
  cases hc
  obtain ⟨⟨tr, hr⟩, hatt, hemp, hcall, hknown, hdist, hpost, hcur, hended⟩ := hI
  refine ⟨⟨_, hr.snoc h⟩, hatt, ?_, fun m x hx hm => ?_, hknown, hdist, fun m hm => Family.get_append (hpost m hm) _,
    fun m hm => ?_, fun m hm hh => Family.get_append (hended m hm hh) _⟩
  · simpa [OperationQueue.Thread.emptied, OperationQueue.Critical.emptied] using hemp
  · rw [List.getElem?_append] at hx
    split at hx
    · exact hcall m x hx hm
    · cases List.mem_singleton.mp (List.mem_of_getElem? hx)
      rfl
  · obtain ⟨x, hx, hd⟩ := hcur m hm
    exact ⟨x, Family.get_append hx _, hd⟩

end

/-! ## The steps of the driver and the calls -/

inductive Step (s : Shared) : Driver → Choice → Shared → Driver → Prop
  | exec : Step s .outside .exec s .test
  | stop : s.cancelled = true → Step s .test .step { s with cancelled := false } .outside
  | go : s.cancelled = false → Step s .test .step s .take
  | wait : s.queuedOps = [] → Step s .take .step s (.waiting s.notifications)
  | swap {d e} : d = .take ∧ s.queuedOps ≠ [] ∨ (∃ seen, d = .waiting seen) → Step s d e s.swap.1 s.swap.2
  | loop : Step s (.next []) .step s .test
  | begin {op ops} : Step s (.next (op :: ops)) .step s (.running op ops false)
  | other {id ops thrown} : Step s (.running (.other id) ops thrown) .step s (.next ops)
  | throw {id ops thrown} : Step s (.running (.other id) ops thrown) .throw (s.leave ops).1 .outside
  | drained {n ops} : s.returned n = true → Step s (.running (.drain n) ops false) .step s (.next ops)
  | leave {n ops} : s.returned n = true → Step s (.running (.drain n) ops true) .step (s.leave ops).1 .outside
  | advance {n ops thrown s'} : s.returned n = false → s.advance n .step = some s' →
      Step s (.running (.drain n) ops thrown) .step s' (.running (.drain n) ops thrown)
  | unwind {n ops thrown s'} : s.advance n .throw = some s' →
      Step s (.running (.drain n) ops thrown) .throw s' (.running (.drain n) ops true)
  | deadlock {n ops thrown id s'} : s.advance n (.async (some id)) = some s' →
      Step s (.running (.drain n) ops thrown) (.async id) s' (.running (.drain n) ops thrown)

inductive Called (s : Shared) : Choice → Shared → Prop
  | async {id q} : operationQueue.next s.queue (.call (.async (some id))) = some q →
      Called s (.async id) { s with queue := q }
  | caller {n s'} : n ∉ s.wakeups → s.advance n .step = some s' → Called s (.caller n) s'
  | execute (id : Nat) : Called s (.execute id) (s.execute [.other id])
  | cancel : Called s .cancel { s with cancelled := true, notifications := s.notifications + 1 }

section
variable {s s' : Shared} {d d' : Driver} {e : Choice}

theorem call_called {new : List Driver} (h : call s e = some (s', new)) : Called s e s' ∧ new = [] := by
  cases e with
  | async id =>
    simp only [call, Option.map_eq_some_iff, Prod.mk.injEq] at h
    obtain ⟨q, hq, rfl, rfl⟩ := h
    exact ⟨.async hq, rfl⟩
  | caller n =>
    simp only [call] at h
    split at h
    · cases h
    · next hn =>
      simp only [Option.map_eq_some_iff, Prod.mk.injEq] at h
      obtain ⟨s₁, hs, rfl, rfl⟩ := h
      exact ⟨.caller hn hs, rfl⟩
  | execute id =>
    cases h
    exact ⟨.execute id, rfl⟩
  | cancel =>
    cases h
    exact ⟨.cancel, rfl⟩
  | _ => cases h

theorem running_step {op : Work} {ops : List Work} {thrown : Bool}
    (h : (Driver.running op ops thrown).act s e = some (s', d')) : Step s (.running op ops thrown) e s' d' := by
  cases op with
  | other id =>
    cases e with
    | step =>
      cases h
      exact .other
    | throw =>
      cases h
      exact .throw
    | _ => cases h
  | drain n =>
    cases e with
    | step =>
      simp only [Driver.act] at h
      split at h
      next hr =>
        cases thrown with
        | true =>
          cases h
          exact .leave hr
        | false =>
          cases h
          exact .drained hr
      next hr =>
        simp only [Option.map_eq_some_iff, Prod.mk.injEq] at h
        obtain ⟨s₁, hs, rfl, rfl⟩ := h
        exact .advance (by simpa using hr) hs
    | throw =>
      simp only [Driver.act, Option.map_eq_some_iff, Prod.mk.injEq] at h
      obtain ⟨s₁, hs, rfl, rfl⟩ := h
      exact .unwind hs
    | async id =>
      simp only [Driver.act, Option.map_eq_some_iff, Prod.mk.injEq] at h
      obtain ⟨s₁, hs, rfl, rfl⟩ := h
      exact .deadlock hs
    | _ => cases h

theorem act_step (h : d.act s e = some (s', d')) : Step s d e s' d' := by
  cases d with
  | outside =>
    cases e <;> cases h
    exact .exec
  | test =>
    cases e with
    | step =>
      simp only [Driver.act] at h
      split at h <;> cases h
      next hc => exact .stop hc
      next hc => exact .go (by simpa using hc)
    | _ => cases h
  | take =>
    cases e with
    | step =>
      simp only [Driver.act] at h
      split at h <;> cases h
      next hq => exact .wait hq
      next hq => exact .swap (Or.inl ⟨rfl, hq⟩)
    | _ => cases h
  | waiting seen =>
    cases e with
    | step =>
      simp only [Driver.act] at h
      split at h <;> cases h
      exact .swap (Or.inr ⟨seen, rfl⟩)
    | spurious =>
      cases h
      exact .swap (Or.inr ⟨seen, rfl⟩)
    | _ => cases h
  | next ops =>
    cases ops with
    | nil =>
      cases e <;> cases h
      exact .loop
    | cons op ops =>
      cases e <;> cases h
      exact .begin
  | running op ops thrown => exact running_step h

theorem returned_iff {n : Nat} : s.returned n = true ↔ s.queue.threads[n]? = some .returned := by
  simp [Shared.returned]

theorem Inv.step (hI : Inv s d) (h : Step s d e s' d') : Inv s' d' := by
  -- what the driver holds afterwards, and has let go
  have keep : ∀ {s' d'}, s'.queue = s.queue → s'.wakeups = s.wakeups → held s' d' = held s d →
      (∀ n ∈ pending s' d', n ∈ pending s d) → Inv s' d' := fun hq hw hh hp =>
    hI.move hq hw (le_of_eq hh) hp fun n hn => Or.inl (hh ▸ hn)
  have drop : ∀ {s' d' n}, d.current = some n → s.returned n = true → s'.queue = s.queue → s'.wakeups = s.wakeups →
      d'.current = none → pending s' d' = pending s d → Inv s' d' := by
    intro s' d' n hc hr hq hw hc' hp
    have hh : held s d = n ::ₘ held s' d' := by simp [held, hc, hc', hp]
    refine hI.move hq hw (hh ▸ Multiset.le_cons_self _ _) (fun m hm => hp ▸ hm) fun m hm => ?_
    rw [hh, Multiset.mem_cons] at hm
    rcases hm with rfl | hm
    · exact Or.inr (returned_iff.mp hr)
    · exact Or.inl hm
  have hleave : ∀ op ops thrown, pending (s.leave ops).1 .outside = pending s (.running op ops thrown) := by
    intro op ops thrown
    simp only [pending, Shared.leave, Driver.activeOps, wakeupsOf_append, wakeupsOf_nil]
    abel
  cases h with
  | swap hd =>
    have h0 : d.activeOps = [] ∧ d.current = none := by
      rcases hd with ⟨rfl, -⟩ | ⟨seen, rfl⟩ <;> exact ⟨rfl, rfl⟩
    have hp : pending s.swap.1 s.swap.2 = pending s d := by
      unfold pending
      rw [h0.1]
      simp only [Shared.swap, Driver.activeOps, wakeupsOf_nil]
      abel
    exact keep rfl rfl (by simp only [held, hp, h0.2]; rfl) fun n hn => hp ▸ hn
  | @begin op ops =>
    have hp : pending s (.next (op :: ops)) = (op.wakeup.toList : Multiset Nat) + pending s (.running op ops false) := by
      simp only [pending, Driver.activeOps, wakeupsOf_cons]
      abel
    refine keep rfl rfl ?_ fun n hn => hp ▸ Multiset.mem_add.mpr (Or.inr hn)
    simp only [held, Driver.current, hp]
    simp
  | @throw id ops thrown =>
    exact keep rfl rfl (congrArg _ (hleave (.other id) ops thrown)) fun n hn => hleave (.other id) ops thrown ▸ hn
  | drained hr => exact drop rfl hr rfl rfl rfl rfl
  | @leave n ops hr => exact drop rfl hr rfl rfl rfl (hleave (.drain n) ops true)
  | advance _ hs | unwind hs | deadlock hs => exact hI.advance hs (Or.inr rfl) rfl rfl
  | _ => exact keep rfl rfl rfl fun n hn => hn

end

/-! ## Every state of a run -/

def driver (c : Config Shared Driver) : Driver := c.threads[0]?.getD .outside

/-- The invariant, of the one driver that there is. -/
structure RunInv (c : Config Shared Driver) : Prop where
  threads : c.threads = [driver c]
  inv : Inv c.shared (driver c)

theorem initial_inv : RunInv initial := by
  have hrun :
      (operationQueue.exec OperationQueue.initial (.call .attach :: List.replicate 4 (.act 0 .step))).isSome = true := by
    decide
  refine ⟨rfl, ⟨_, Program.run_last hrun⟩, by decide, by decide, fun n t hn _ => ?_, fun n hn => ?_, ?_, fun n hn => ?_,
    fun n hn => ?_, fun n hn => ?_⟩
  · have ht : initial.shared.queue.threads = [.returned] := by decide
    rw [ht] at hn
    cases List.mem_singleton.mp (List.mem_of_getElem? hn)
    rfl
  · simp [held, pending, initial, driver, Driver.activeOps, Driver.current, wakeupsOf] at hn
  · simp [held, pending, initial, driver, Driver.activeOps, Driver.current, wakeupsOf]
  · simp [pending, initial, driver, Driver.activeOps, wakeupsOf] at hn
  · cases hn
  · cases hn

theorem Inv.called {s s' : Shared} {d : Driver} (hI : Inv s d) {e : Choice} (h : Called s e s') : Inv s' d := by
  cases h with
  | async hq => exact hI.async hq
  | caller hn hs => exact hI.advance hs (Or.inl hn) rfl rfl
  | execute id =>
    have hp : pending (s.execute [.other id]) d = pending s d := by
      simp only [pending, Shared.execute, wakeupsOf_append, wakeupsOf_cons, wakeupsOf_nil]
      rw [show (Work.other id).wakeup.toList = [] from rfl, Multiset.coe_nil, add_zero, add_zero]
    refine hI.move rfl rfl (le_of_eq (congrArg _ hp)) (fun n hn => hp ▸ hn) fun n hn => Or.inl ?_
    unfold held at hn ⊢
    rwa [hp]
  | cancel => exact hI.move rfl rfl (le_refl _) (fun n hn => hn) fun n hn => Or.inl hn

theorem driver_congr {c c' : Config Shared Driver} (ht : c'.threads = c.threads) : driver c' = driver c := by
  unfold driver
  rw [ht]

theorem next_cases {c c' : Config Shared Driver} (hR : RunInv c) {l : Label Choice} (h : manualThread.next c l = some c') :
    (∃ e, l = .act 0 e ∧ Step c.shared (driver c) e c'.shared (driver c') ∧ c'.threads = [driver c']) ∨
      ∃ e, l = .call e ∧ Called c.shared e c'.shared ∧ c'.threads = c.threads := by
  rcases Program.next_single hR.threads h with ⟨e, d', new, rfl, ha, ht⟩ | ⟨e, new, rfl, hc, ht⟩
  · simp only [manualThread, Option.map_eq_some_iff, Prod.mk.injEq] at ha
    obtain ⟨⟨s₁, d₁⟩, ha, rfl, rfl, rfl⟩ := ha
    have hd : driver c' = d₁ := by
      unfold driver
      rw [ht]
      rfl
    rw [hd]
    exact Or.inl ⟨e, rfl, act_step ha, ht⟩
  · obtain ⟨hcalled, rfl⟩ := call_called hc
    exact Or.inr ⟨e, rfl, hcalled, ht.trans hR.threads.symm⟩

theorem next_inv {c c' : Config Shared Driver} (hR : RunInv c) {l : Label Choice} (h : manualThread.next c l = some c') :
    RunInv c' := by
  rcases next_cases hR h with ⟨e, rfl, hs, ht⟩ | ⟨e, rfl, hc, ht⟩
  · exact ⟨ht, hR.inv.step hs⟩
  · have hd := driver_congr ht
    refine ⟨by rw [ht, hd, ← hR.threads], ?_⟩
    rw [hd]
    exact hR.inv.called hc

theorem run_inv {tr : List (Config Shared Driver × Label Choice)} {c : Config Shared Driver}
    (h : manualThread.Run initial tr c) : RunInv c :=
  h.invariant (C := fun _ _ => True) initial_inv (fun _ _ _ hR _ h => next_inv hR h) Program.along_true

end Xdispatch.ManualThread
