import Xdispatch.Semaphore.Steps

/-!
# No wake-up of a semaphore is lost

`release` increments without the mutex, and tokens may be taken by those that do
not wait, so a waiter that was notified may find nothing. While somebody blocks,
or is about to, there are no more tokens than notifications on their way: those
of the releases in progress, and those that waiters have received and not yet
acted on (`Inv.tokens`). A `release` that reads no waiters is no exception, as
nobody can block without another test after `m_waiters` went up. That an
addition to `m_count` wraps only takes tokens away, as long as none of the
assertions that end the process has failed.
-/

namespace Xdispatch.Semaphore

/-! ## What the threads account for -/

/-- Between the increment of `m_waiters` and its decrement. -/
def WaitPhase.inside : WaitPhase → Nat
  | .predicate .. | .block | .blocked _ | .relock .. | .leave _ => 1
  | _ => 0

def WaitPhase.blocking : WaitPhase → Nat
  | .block => 1
  | _ => 0

/-- Has the mutex, other than one that is about to block. -/
def WaitPhase.holding : WaitPhase → Nat
  | .second _ | .enter | .predicate .. | .leave _ | .unlock _ => 1
  | _ => 0

def WaitPhase.tickets : WaitPhase → Multiset Nat
  | .blocked k => {k}
  | _ => 0

/-- Was notified, and has not found out yet whether there is a token. -/
def WaitPhase.rechecking : WaitPhase → Nat
  | .relock true _ | .predicate _ true _ => 1
  | _ => 0

def ReleasePhase.holding : ReleasePhase → Nat
  | .notify | .unlock => 1
  | _ => 0

/-- Between the increment of `m_count` and the notification. -/
def ReleasePhase.notifying : ReleasePhase → Bool
  | .loadWaiters | .lock | .notify => true
  | _ => false

def Thread.inside : Thread → Nat
  | .wait p => p.inside
  | _ => 0

def Thread.blocking : Thread → Nat
  | .wait p => p.blocking
  | _ => 0

def Thread.holding : Thread → Nat
  | .wait p => p.holding
  | .release _ p => p.holding
  | _ => 0

def Thread.tickets : Thread → Multiset Nat
  | .wait p => p.tickets
  | _ => 0

def Thread.rechecking : Thread → Nat
  | .wait p => p.rechecking
  | _ => 0

/-- What a `release` in progress is to notify of. -/
def Thread.notifying : Thread → Nat
  | .release count p => if p.notifying then count.toNat else 0
  | _ => 0

open Family

structure Inv (c : Config Shared Thread) : Prop where
  mutex : total Thread.blocking c.threads + total Thread.holding c.threads = if c.shared.locked then 1 else 0
  waiters : c.shared.waiters = total Thread.inside c.threads
  fresh : ∀ k ∈ total Thread.tickets c.threads, k < c.shared.tickets
  nodup : (total Thread.tickets c.threads).Nodup
  waitSet : (c.shared.waitSet : Multiset Nat) ≤ total Thread.tickets c.threads
  tokens : 0 < total Thread.blocking c.threads ∨ c.shared.waitSet ≠ [] →
    c.shared.count + c.shared.waitSet.length ≤
      total Thread.notifying c.threads + (total Thread.tickets c.threads).card + total Thread.rechecking c.threads

section
variable {c : Config Shared Thread} {s' : Shared} {i : Nat} {t t' : Thread}

theorem WaitPhase.tickets_le_inside (p : WaitPhase) : p.blocking + p.tickets.card ≤ p.inside := by
  cases p <;> simp [blocking, tickets, inside]

theorem Thread.tickets_le_inside (t : Thread) : t.blocking + t.tickets.card ≤ t.inside := by
  cases t with
  | wait p => exact p.tickets_le_inside
  | _ => exact Nat.le_refl 0

theorem card_total (f : Thread → Multiset Nat) : ∀ l : List Thread, (total f l).card = total (fun t => (f t).card) l
  | [] => rfl
  | t :: l => by rw [total_cons, total_cons, Multiset.card_add, card_total f l]

theorem Inv.nobody (hI : Inv c) (hw : c.shared.waiters = 0) :
    total Thread.blocking c.threads = 0 ∧ c.shared.waitSet = [] := by
  have hle := total_le_total (l := c.threads) fun t _ => t.tickets_le_inside
  rw [total_add, ← card_total] at hle
  have hins := hI.waiters
  have hcard := Multiset.card_le_card hI.waitSet
  rw [Multiset.coe_card] at hcard
  exact ⟨by omega, List.eq_nil_of_length_eq_zero (by omega)⟩

theorem Inv.alone (hI : Inv c) (ht : t ∈ c.threads) (hh : t.holding = 1) :
    total Thread.blocking c.threads = 0 ∧ c.shared.locked = true := by
  have hle := le_total Thread.holding ht
  have hm := hI.mutex
  split at hm <;> exact ⟨by omega, by first | assumption | omega⟩

theorem tickets_set (ht : c.threads[i]? = some t) (h : t'.tickets = t.tickets) :
    total Thread.tickets (c.threads.set i t') = total Thread.tickets c.threads := by
  have := total_set Thread.tickets ht t'
  rw [h] at this
  exact add_right_cancel this

/-- What the mutex and `m_waiters` are follows from what the thread does to them. -/
theorem Inv.step (hI : Inv c) (ht : c.threads[i]? = some t)
    (hmutex : t'.blocking + t'.holding + (if c.shared.locked then 1 else 0) =
      t.blocking + t.holding + if s'.locked then 1 else 0)
    (hwaiters : s'.waiters + t.inside = c.shared.waiters + t'.inside)
    (hfresh : ∀ k ∈ total Thread.tickets (c.threads.set i t'), k < s'.tickets)
    (hnodup : (total Thread.tickets (c.threads.set i t')).Nodup)
    (hset : (s'.waitSet : Multiset Nat) ≤ total Thread.tickets (c.threads.set i t'))
    (htokens : 0 < total Thread.blocking (c.threads.set i t') ∨ s'.waitSet ≠ [] →
      s'.count + s'.waitSet.length ≤ total Thread.notifying (c.threads.set i t') +
        (total Thread.tickets (c.threads.set i t')).card + total Thread.rechecking (c.threads.set i t')) :
    Inv ⟨s', c.threads.set i t' ++ []⟩ := by
  have hb := total_set Thread.blocking ht t'
  have hh := total_set Thread.holding ht t'
  have hi := total_set Thread.inside ht t'
  have hm := hI.mutex
  have hw := hI.waiters
  rw [List.append_nil]
  refine ⟨?_, ?_, hfresh, hnodup, hset, htokens⟩
  · change total Thread.blocking (c.threads.set i t') + total Thread.holding (c.threads.set i t') =
      if s'.locked then 1 else 0
    omega
  · change s'.waiters = total Thread.inside (c.threads.set i t')
    omega

theorem Inv.idles (hI : Inv c) (ht : c.threads[i]? = some t) (htickets : t'.tickets = t.tickets)
    (hset : s'.waitSet = c.shared.waitSet) (hnext : s'.tickets = c.shared.tickets)
    (hmutex : t'.blocking + t'.holding + (if c.shared.locked then 1 else 0) =
      t.blocking + t.holding + if s'.locked then 1 else 0)
    (hwaiters : s'.waiters + t.inside = c.shared.waiters + t'.inside) (hblocking : t'.blocking = t.blocking)
    (htokens : s'.count + t.notifying + t.rechecking ≤ c.shared.count + t'.notifying + t'.rechecking) :
    Inv ⟨s', c.threads.set i t' ++ []⟩ := by
  have hb := total_set Thread.blocking ht t'
  have hn := total_set Thread.notifying ht t'
  have hr := total_set Thread.rechecking ht t'
  have hk := tickets_set ht htickets
  refine hI.step ht hmutex hwaiters ?_ ?_ ?_ fun hor => ?_
  · rw [hk, hnext]
    exact hI.fresh
  · rw [hk]
    exact hI.nodup
  · rw [hk, hset]
    exact hI.waitSet
  · rw [hset] at hor ⊢
    rw [hk]
    have := hI.tokens (hor.imp_left fun h => by omega)
    omega

theorem Try.Step.cases {s : Shared} {p : Try} {r : Bool ⊕ Try} (h : p.Step s s' r) :
    s' = { s with count := s.count - 1 } ∧ r = .inl true ∨
      (∃ a, s' = { s with asserted := a }) ∧ (s.count = 0 ∧ r = .inl false ∨ ∃ q, r = .inr q) := by
  cases h with
  | takes => exact Or.inl ⟨rfl, rfl⟩
  | tests =>
    refine Or.inr ⟨⟨_, rfl⟩, ?_⟩
    unfold Shared.test
    split
    next h => exact Or.inl ⟨h, rfl⟩
    · exact Or.inr ⟨_, rfl⟩

theorem Inv.tries {p : Try} {r : Bool ⊕ Try} (hI : Inv c) (ht : c.threads[i]? = some t) (h : p.Step c.shared s' r)
    (htickets : t'.tickets = t.tickets) (hblocking : t'.blocking = t.blocking) (hholding : t'.holding = t.holding)
    (hinside : t'.inside = t.inside) (hnotifying : t'.notifying = t.notifying)
    (hrechecking : t'.rechecking = t.rechecking) : Inv ⟨s', c.threads.set i t' ++ []⟩ := by
  rcases h.cases with ⟨rfl, -⟩ | ⟨⟨a, rfl⟩, -⟩
  · refine hI.idles ht htickets rfl rfl (by rw [hblocking, hholding]) (by rw [hinside]) hblocking ?_
    rw [hnotifying, hrechecking]
    change c.shared.count - 1 + _ + _ ≤ _
    omega
  · refine hI.idles ht htickets rfl rfl (by rw [hblocking, hholding]) (by rw [hinside]) hblocking ?_
    rw [hnotifying, hrechecking]

/-- The predicate of `m_cond.wait_for` finds no token: the thread blocks, or gives up. -/
theorem Inv.finds_none {p : Try} {notified late a : Bool} {p' : WaitPhase} (hI : Inv c)
    (ht : c.threads[i]? = some (.wait (.predicate p notified late))) (h0 : c.shared.count = 0)
    (hp' : p' = .leave false ∨ p' = .block) :
    Inv ⟨{ c.shared with asserted := a }, c.threads.set i (.wait p') ++ []⟩ := by
  have htickets : (Thread.wait p').tickets = 0 := by rcases hp' with rfl | rfl <;> rfl
  have hk := tickets_set ht htickets
  have hcard := Multiset.card_le_card hI.waitSet
  rw [Multiset.coe_card] at hcard
  refine hI.step ht ?_ ?_ ?_ ?_ ?_ fun _ => ?_
  · rcases hp' with rfl | rfl <;> rfl
  · rcases hp' with rfl | rfl <;> rfl
  · rw [hk]
    exact hI.fresh
  · rw [hk]
    exact hI.nodup
  · rw [hk]
    exact hI.waitSet
  · rw [hk]
    change c.shared.count + c.shared.waitSet.length ≤ _
    omega

theorem predicate_inv {p : Try} {r : Bool ⊕ Try} {notified late : Bool} (hI : Inv c)
    (ht : c.threads[i]? = some (.wait (.predicate p notified late))) (h : p.Step c.shared s' r) :
    Inv ⟨s', c.threads.set i (.wait (r.elim
      (fun r => if r then .leave true else if late then .leave false else .block) (.predicate · notified late))) ++ []⟩ := by
  rcases h.cases with ⟨rfl, rfl⟩ | ⟨⟨a, rfl⟩, ⟨h0, rfl⟩ | ⟨q, rfl⟩⟩
  · -- the token may be the one that the thread was notified of
    refine hI.idles ht rfl rfl rfl rfl rfl rfl ?_
    change c.shared.count - 1 + 0 + ((WaitPhase.predicate p notified late).rechecking : Nat) ≤ c.shared.count + 0 + 0
    cases notified <;> simp [WaitPhase.rechecking]
  · exact hI.finds_none ht h0 (by cases late <;> simp)
  · exact hI.tries ht h rfl rfl rfl rfl rfl (by cases notified <;> rfl)

theorem block_inv (hI : Inv c) (ht : c.threads[i]? = some (.wait .block)) :
    Inv ⟨{ c.shared with
      locked := false
      waitSet := c.shared.waitSet ++ [c.shared.tickets]
      tickets := c.shared.tickets + 1 }, c.threads.set i (.wait (.blocked c.shared.tickets)) ++ []⟩ := by
  have hblocks : 1 ≤ total Thread.blocking c.threads := le_total Thread.blocking (mem_of_get ht)
  have hn := total_set Thread.notifying ht (.wait (.blocked c.shared.tickets))
  have hr := total_set Thread.rechecking ht (.wait (.blocked c.shared.tickets))
  have hk : total Thread.tickets (c.threads.set i (.wait (.blocked c.shared.tickets))) =
      c.shared.tickets ::ₘ total Thread.tickets c.threads := by
    have := total_set Thread.tickets ht (.wait (.blocked c.shared.tickets))
    rwa [show (Thread.wait WaitPhase.block).tickets = 0 from rfl, add_zero, add_comm] at this
  have hlocked : c.shared.locked = true := by
    have hm := hI.mutex
    split at hm <;> first | assumption | omega
  refine hI.step ht (by rw [hlocked]; rfl) rfl ?_ ?_ ?_ fun _ => ?_
  · rw [hk]
    intro k hkm
    rcases Multiset.mem_cons.mp hkm with rfl | hkm
    · exact Nat.lt_succ_self _
    · exact Nat.lt_succ_of_lt (hI.fresh k hkm)
  · rw [hk, Multiset.nodup_cons]
    exact ⟨fun hmem => Nat.lt_irrefl _ (hI.fresh _ hmem), hI.nodup⟩
  · rw [hk, ← Multiset.coe_add, add_comm]
    exact Multiset.cons_le_cons _ hI.waitSet
  · have := hI.tokens (Or.inl hblocks)
    change _ + 0 = _ + 0 at hn
    change _ + 0 = _ + 0 at hr
    rw [hk, Multiset.card_cons, List.length_append, List.length_singleton]
    push_cast
    omega

theorem wake_inv {k : Nat} {late : Bool} (hI : Inv c) (ht : c.threads[i]? = some (.wait (.blocked k))) :
    Inv ⟨(c.shared.wake k late).1, c.threads.set i (.wait (c.shared.wake k late).2) ++ []⟩ := by
  have hb := total_set Thread.blocking ht (.wait (c.shared.wake k late).2)
  have hn := total_set Thread.notifying ht (.wait (c.shared.wake k late).2)
  have hr := total_set Thread.rechecking ht (.wait (c.shared.wake k late).2)
  have hk : total Thread.tickets c.threads =
      k ::ₘ total Thread.tickets (c.threads.set i (.wait (c.shared.wake k late).2)) := by
    have := total_set Thread.tickets ht (.wait (c.shared.wake k late).2)
    rw [show (Thread.wait (c.shared.wake k late).2).tickets = 0 from rfl, add_zero, add_comm] at this
    exact this.symm
  have hle : total Thread.tickets (c.threads.set i (.wait (c.shared.wake k late).2)) ≤ total Thread.tickets c.threads := by
    rw [hk]
    exact Multiset.le_cons_self _ _
  refine hI.step ht rfl rfl (fun j hj => hI.fresh j (Multiset.mem_of_le hle hj)) (Multiset.nodup_of_le hle hI.nodup)
    ?_ fun hor => ?_
  · change ((c.shared.waitSet.erase k : List Nat) : Multiset Nat) ≤ _
    have := Multiset.erase_le_erase k hI.waitSet
    rwa [hk, Multiset.erase_cons_head] at this
  · change c.shared.count + (c.shared.waitSet.erase k).length ≤ _
    change _ + 0 = _ + 0 at hb
    change _ + 0 = _ + 0 at hn
    change _ + 0 = _ + _ at hr
    have htok := hI.tokens (hor.imp (fun h => by omega) fun h hnil => h (by simp [Shared.wake, hnil]))
    rw [hk, Multiset.card_cons] at htok
    push_cast at htok
    by_cases hmem : k ∈ c.shared.waitSet
    · have hlen := List.length_erase_add_one hmem
      omega
    · rw [List.erase_of_not_mem hmem]
      have hre : (Thread.wait (c.shared.wake k late).2).rechecking = 1 := by
        simp [Shared.wake, hmem, Thread.rechecking, WaitPhase.rechecking]
      omega

theorem wait_inv {p p' : WaitPhase} (hI : Inv c) (ht : c.threads[i]? = some (.wait p)) (h : p.Step c.shared s' p') :
    Inv ⟨s', c.threads.set i (.wait p') ++ []⟩ := by
  cases h with
  | first h =>
    refine hI.tries ht h ?_ ?_ ?_ ?_ ?_ ?_ <;> rcases h.cases with ⟨-, rfl⟩ | ⟨-, ⟨-, rfl⟩ | ⟨q, rfl⟩⟩ <;> rfl
  | second h =>
    refine hI.tries ht h ?_ ?_ ?_ ?_ ?_ ?_ <;> rcases h.cases with ⟨-, rfl⟩ | ⟨-, ⟨-, rfl⟩ | ⟨q, rfl⟩⟩ <;> rfl
  | predicate notified late h => exact predicate_inv hI ht h
  | locks hl => exact hI.idles ht rfl rfl rfl (by rw [hl]; rfl) rfl rfl (Int.le_refl _)
  | enters => exact hI.idles ht rfl rfl rfl rfl (Int.add_zero _) rfl (Int.le_refl _)
  | blocks => exact block_inv hI ht
  | wakes k late => exact wake_inv hI ht
  | relocks notified late hl =>
    exact hI.idles ht rfl rfl rfl (by rw [hl]; rfl) rfl rfl (by cases notified <;> exact Int.le_refl _)
  | leaves r => exact hI.idles ht rfl rfl rfl rfl (by simp [Thread.inside, WaitPhase.inside]) rfl (Int.le_refl _)
  | unlocks r =>
    have hl := (hI.alone (mem_of_get ht) rfl).2
    exact hI.idles ht rfl rfl rfl (by rw [hl]; rfl) rfl rfl (Int.le_refl _)

theorem Inv.nobody_left {count : Int} {p : ReleasePhase} (p' : ReleasePhase) (hI : Inv c)
    (ht : c.threads[i]? = some (.release count p)) (hholding : p'.holding = p.holding)
    (hb : total Thread.blocking c.threads = 0) :
    Inv ⟨{ c.shared with waitSet := [] }, c.threads.set i (.release count p') ++ []⟩ := by
  have hb' := total_set Thread.blocking ht (.release count p')
  have hk : total Thread.tickets (c.threads.set i (.release count p')) = _ := tickets_set ht rfl
  refine hI.step ht ?_ rfl ?_ ?_ (Multiset.zero_le _) ?_
  · change 0 + p'.holding + _ = 0 + p.holding + _
    rw [hholding]
  · rw [hk]
    exact hI.fresh
  · rw [hk]
    exact hI.nodup
  · rintro (h | h)
    · change _ + 0 = _ + 0 at hb'
      omega
    · exact absurd rfl h

theorem pick_inv {k : Nat} {count : Int} (hI : Inv c) (ht : c.threads[i]? = some (.release count .notify)) (hc : count = 1)
    (hk : k ∈ c.shared.waitSet) :
    Inv ⟨{ c.shared with waitSet := c.shared.waitSet.erase k }, c.threads.set i (.release count .unlock) ++ []⟩ := by
  subst hc
  have hn := total_set Thread.notifying ht (.release 1 .unlock)
  have hr := total_set Thread.rechecking ht (.release 1 .unlock)
  have hT : total Thread.tickets (c.threads.set i (.release 1 .unlock)) = _ := tickets_set ht rfl
  refine hI.step ht rfl rfl ?_ ?_ ?_ fun _ => ?_
  · rw [hT]
    exact hI.fresh
  · rw [hT]
    exact hI.nodup
  · rw [hT]
    exact (Multiset.coe_le.mpr List.erase_sublist.subperm).trans hI.waitSet
  · -- the notification has left the `release`, and the waiter is one that was notified
    have htok := hI.tokens (Or.inr (List.ne_nil_of_mem hk))
    have hlen := List.length_erase_add_one hk
    rw [hT]
    change _ + 1 = _ + 0 at hn
    change _ + 0 = _ + 0 at hr
    change c.shared.count + (c.shared.waitSet.erase k).length ≤ _
    omega

theorem release_inv {count : Int} {p p' : ReleasePhase} (hI : Inv c) (ht : c.threads[i]? = some (.release count p))
    (h : p.Step c.shared count s' p') : Inv ⟨s', c.threads.set i (.release count p') ++ []⟩ := by
  have hmem := mem_of_get ht
  cases h with
  | adds =>
    refine hI.idles ht rfl rfl rfl rfl rfl rfl ?_
    change c.shared.count + count + 0 + 0 ≤ c.shared.count + count.toNat + 0
    omega
  | finds => exact hI.idles ht rfl rfl rfl rfl rfl rfl (Int.le_refl _)
  | skips hw =>
    obtain ⟨hb, hset⟩ := hI.nobody hw
    have := hI.nobody_left .returned ht rfl hb
    rwa [← hset] at this
  | locks hl => exact hI.idles ht rfl rfl rfl (by rw [hl]; rfl) rfl rfl (Int.le_refl _)
  | picks k hc hk => exact pick_inv hI ht hc hk
  | nobody hset =>
    have := hI.nobody_left .unlock ht rfl (hI.alone hmem rfl).1
    rwa [← hset] at this
  | all => exact hI.nobody_left _ ht rfl (hI.alone hmem rfl).1
  | unlocks =>
    have hl := (hI.alone hmem rfl).2
    exact hI.idles ht rfl rfl rfl (by rw [hl]; rfl) rfl rfl (Int.le_refl _)

theorem act_inv (hI : Inv c) (ht : c.threads[i]? = some t) (h : t.Step c.shared s' t') :
    Inv ⟨s', c.threads.set i t' ++ []⟩ := by
  cases h with
  | @tries s' p r h => refine hI.tries ht h ?_ ?_ ?_ ?_ ?_ ?_ <;> cases r <;> rfl
  | spins spins h =>
    cases h with
    | tries i h => exact hI.tries ht h rfl rfl rfl rfl rfl rfl
    | relaxes i => exact hI.idles ht rfl rfl rfl rfl rfl rfl (Int.le_refl _)
  | waits h => exact wait_inv hI ht h
  | releases count h => exact release_inv hI ht h

theorem starting_accounts (h : t.starting) : t.blocking = 0 ∧ t.holding = 0 ∧ t.inside = 0 ∧ t.tickets = 0 ∧
    t.notifying = 0 ∧ t.rechecking = 0 := by
  unfold Thread.starting at h
  split at h
  · exact ⟨rfl, rfl, rfl, rfl, rfl, rfl⟩
  · exact ⟨rfl, rfl, rfl, rfl, rfl, rfl⟩
  · exact ⟨rfl, rfl, rfl, rfl, rfl, rfl⟩
  · exact ⟨rfl, rfl, rfl, rfl, rfl, rfl⟩
  · exact h.elim

theorem call_inv {a : Bool} {new : List Thread} (hI : Inv c) (hnew : ∀ t ∈ new, t.starting) :
    Inv ⟨{ c.shared with asserted := a }, c.threads ++ new⟩ := by
  have hs := fun t ht => starting_accounts (hnew t ht)
  have hb := total_append_zero c.threads fun t ht => (hs t ht).1
  have hh := total_append_zero c.threads fun t ht => (hs t ht).2.1
  have hi := total_append_zero c.threads fun t ht => (hs t ht).2.2.1
  have hk := total_append_zero c.threads fun t ht => (hs t ht).2.2.2.1
  have hn := total_append_zero c.threads fun t ht => (hs t ht).2.2.2.2.1
  have hr := total_append_zero c.threads fun t ht => (hs t ht).2.2.2.2.2
  constructor
  · change total Thread.blocking (c.threads ++ new) + total Thread.holding (c.threads ++ new) =
      if c.shared.locked then 1 else 0
    rw [hb, hh]
    exact hI.mutex
  · change c.shared.waiters = total Thread.inside (c.threads ++ new)
    rw [hi]
    exact hI.waiters
  · rw [hk]
    exact hI.fresh
  · rw [hk]
    exact hI.nodup
  · rw [hk]
    exact hI.waitSet
  · rw [hb, hn, hk, hr]
    exact hI.tokens

end

/-! ## Lost wake-ups -/

/-- A release is between its increment and its notification. -/
def Thread.releasing : Thread → Bool
  | .release _ p => p.notifying
  | _ => false

/-- A waiter was notified and is still to test its predicate. -/
def Thread.toRecheck (waitSet : List Nat) : Thread → Bool
  | .wait (.blocked k) => k ∉ waitSet
  | .wait (.relock notified _) | .wait (.predicate _ notified _) => notified
  | _ => false

/-- There are tokens, and a thread is blocked that nobody is about to wake and no token is left for
any waiter that was woken. -/
structure Lost (c : Config Shared Thread) : Prop where
  available : 0 < c.shared.count
  blocked : ∃ k, Thread.wait (.blocked k) ∈ c.threads ∧ k ∈ c.shared.waitSet
  released : ∀ t ∈ c.threads, t.releasing = false
  rechecked : ∀ t ∈ c.threads, t.toRecheck c.shared.waitSet = false

section
variable {t : Thread} {set : List Nat}

theorem notifying_eq_zero (h : t.releasing = false) : t.notifying = 0 := by
  cases t with
  | release count p =>
    change (if p.notifying then count.toNat else 0) = 0
    rw [show p.notifying = false from h]
    rfl
  | _ => rfl

theorem rechecking_eq_zero (h : t.toRecheck set = false) : t.rechecking = 0 := by
  unfold Thread.toRecheck at h
  split at h
  · rfl
  · rw [h]
    rfl
  · rw [h]
    rfl
  next hr hp =>
    cases t with
    | wait p =>
      cases p with
      | relock notified late => exact absurd rfl (hr notified late)
      | predicate p notified late => exact absurd rfl (hp p notified late)
      | _ => rfl
    | _ => rfl

theorem tickets_mem {k : Nat} (h : t.toRecheck set = false) (hk : k ∈ t.tickets) : k ∈ set := by
  cases t with
  | wait p =>
    cases p with
    | blocked j =>
      cases Multiset.mem_singleton.mp hk
      simpa [Thread.toRecheck] using h
    | _ => exact absurd hk (Multiset.notMem_zero k)
  | _ => exact absurd hk (Multiset.notMem_zero k)

end

theorem Inv.not_lost {c : Config Shared Thread} (hI : Inv c) : ¬ Lost c := by
  rintro ⟨havailable, ⟨k, -, hk⟩, hreleased, hrechecked⟩
  have hn : total Thread.notifying c.threads = 0 := total_eq_zero.mpr fun t ht => notifying_eq_zero (hreleased t ht)
  have hr : total Thread.rechecking c.threads = 0 := total_eq_zero.mpr fun t ht => rechecking_eq_zero (hrechecked t ht)
  have hcard : (total Thread.tickets c.threads).card ≤ c.shared.waitSet.length := by
    rw [← Multiset.coe_card]
    refine Multiset.card_le_card ((Multiset.le_iff_subset hI.nodup).mpr fun j hj => ?_)
    obtain ⟨t, ht, hj⟩ := mem_total.mp hj
    exact Multiset.mem_coe.mpr (tickets_mem (hrechecked t ht) hj)
  have := hI.tokens (Or.inr (List.ne_nil_of_mem hk))
  omega

/-! ## Runs -/

/-- What is compared has passed the assertion of `try_acquire`. -/
def Try.passed : Try → Bool
  | .load => true
  | .exchange old => 0 ≤ old

/-- The assertions of the call have passed. -/
def Thread.passed : Thread → Bool
  | .tryAcquire p | .spin _ (.try _ p) | .wait (.first p) | .wait (.second p) | .wait (.predicate p _ _) => p.passed
  | .release n _ => 0 < n
  | _ => true

/-- What holds while no assertion has failed. -/
structure Sound (c : Config Shared Thread) : Prop where
  inv : Inv c
  int : -2 ^ 31 ≤ c.shared.count
  passed : ∀ t ∈ c.threads, t.passed = true

section
variable {c c' : Config Shared Thread} {s s' : Shared} {t t' : Thread} {l : Label Choice} {count : Int}

theorem le_toInt32 (x : Int) : -2 ^ 31 ≤ toInt32 x := Int.le_bmod (by decide)

theorem toInt32_le {x : Int} (h : -2 ^ 31 ≤ x) : toInt32 x ≤ x := by
  unfold toInt32 Int.bmod
  simp only []
  split <;> omega

/-- Tokens that are not there are missed by nobody. -/
theorem Inv.lower {x : Int} (hI : Inv c) (h : x ≤ c.shared.count) : Inv ⟨{ c.shared with count := x }, c.threads⟩ := by
  refine ⟨hI.mutex, hI.waiters, hI.fresh, hI.nodup, hI.waitSet, fun hor => ?_⟩
  exact (Int.add_le_add_right h _).trans (hI.tokens hor)

theorem Try.Step.unasserted {p : Try} {r : Bool ⊕ Try} (h : p.Step s s' r) (ha : s'.asserted = false) :
    s.asserted = false := by
  cases h with
  | takes => exact ha
  | tests => exact (Bool.or_eq_false_iff.mp ha).1

theorem Thread.Step.unasserted (h : t.Step s s' t') (ha : s'.asserted = false) : s.asserted = false := by
  cases h with
  | tries h => exact h.unasserted ha
  | spins spins h =>
    cases h with
    | tries i h => exact h.unasserted ha
    | relaxes i => exact ha
  | waits h =>
    cases h with
    | first h | second h | predicate _ _ h => exact h.unasserted ha
    | _ => exact ha
  | releases n h => cases h <;> exact ha

theorem Try.Step.sound {p : Try} {r : Bool ⊕ Try} (h : p.Step s s' r) (ha : s'.asserted = false)
    (hp : p.passed = true) (h0 : -2 ^ 31 ≤ s.count) :
    -2 ^ 31 ≤ s'.count ∧ ∀ q, r = .inr q → q.passed = true := by
  cases h with
  | takes he =>
    subst he
    have hle : 0 ≤ s.count := by simpa [Try.passed] using hp
    refine ⟨?_, fun q hq => by cases hq⟩
    change -2 ^ 31 ≤ s.count - 1
    omega
  | tests =>
    have hle : 0 ≤ s.count := by simpa [Shared.test] using (Bool.or_eq_false_iff.mp ha).2
    refine ⟨h0, fun q hq => ?_⟩
    unfold Shared.test at hq
    split at hq <;> cases hq
    simpa [Try.passed] using hle

theorem step_sound (h : t.Step s s' t') (ha : s'.asserted = false) (ht : t.passed = true) (h0 : -2 ^ 31 ≤ s.count) :
    -2 ^ 31 ≤ s'.count ∧ t'.passed = true := by
  cases h with
  | @tries s' p r h =>
    obtain ⟨h0, hq⟩ := h.sound ha ht h0
    refine ⟨h0, ?_⟩
    cases r with
    | inl r => rfl
    | inr q => exact hq q rfl
  | spins spins h =>
    cases h with
    | @tries s' p r i h =>
      obtain ⟨h0, hq⟩ := h.sound ha ht h0
      refine ⟨h0, ?_⟩
      cases r with
      | inl r => cases r <;> rfl
      | inr q => exact hq q rfl
    | relaxes i =>
      refine ⟨h0, ?_⟩
      unfold SpinPhase.loop
      split
      · rfl
      · split <;> rfl
  | waits h =>
    cases h with
    | @first s' p r h | @second s' p r h =>
      obtain ⟨h0, hq⟩ := h.sound ha ht h0
      refine ⟨h0, ?_⟩
      cases r with
      | inl r => cases r <;> rfl
      | inr q => exact hq q rfl
    | @predicate s' p r notified late h =>
      obtain ⟨h0, hq⟩ := h.sound ha ht h0
      refine ⟨h0, ?_⟩
      cases r with
      | inl r => cases r <;> cases late <;> rfl
      | inr q => exact hq q rfl
    | _ => exact ⟨h0, rfl⟩
  | releases n h =>
    cases h with
    | adds =>
      have hn : 0 < n := by simpa [Thread.passed] using ht
      refine ⟨?_, ht⟩
      change -2 ^ 31 ≤ s.count + n
      omega
    | _ => exact ⟨h0, ht⟩

theorem call_sound {e : Choice} {new : List Thread} (h : semaphore.call s e = some (s', new)) (ha : s'.asserted = false) :
    s.asserted = false ∧ ∀ t ∈ new, t.passed = true := by
  simp only [semaphore, call] at h
  split at h
  · cases h
    exact ⟨ha, by simp [Thread.passed, Try.passed]⟩
  next spins =>
    cases h
    refine ⟨ha, ?_⟩
    unfold SpinPhase.loop
    split <;> simp [Thread.passed, Try.passed]
  · cases h
    exact ⟨ha, by simp [Thread.passed, Try.passed]⟩
  · split at h <;> cases h
    next hn => exact ⟨ha, by simpa [Thread.passed] using hn⟩
    · cases ha
  · cases h

theorem next_sound (hI : c.shared.asserted = false → Sound c) (h : machine.next c l = some c')
    (ha : c'.shared.asserted = false) : Sound c' := by
  cases l with
  | call e =>
    obtain ⟨s, new, hc, rfl⟩ := Program.next_call h
    obtain ⟨ha', hnew⟩ := call_sound hc ha
    obtain ⟨⟨a, rfl⟩, hstarting⟩ := call_starting hc
    have hS := hI ha'
    exact ⟨call_inv hS.inv hstarting, hS.int, Family.forall_append hS.passed hnew⟩
  | act i e =>
    obtain ⟨t, s', t', new, ht, hact, rfl⟩ := Program.next_act h
    obtain ⟨s₁, hs, rfl⟩ := machine_act hact
    obtain ⟨rfl, hstep⟩ := act_step hs
    have hS := hI (hstep.unasserted ha)
    obtain ⟨h0, ht'⟩ := step_sound hstep ha (hS.passed t (mem_of_get ht)) hS.int
    exact ⟨(act_inv hS.inv ht hstep).lower (toInt32_le h0), le_toInt32 _, Family.forall_step hS.passed ht' (by simp)⟩

theorem run_unfailed {tr : List (Config Shared Thread × Label Choice)} (hcount : toInt32 count = count)
    (h : machine.Run (initial count) tr c) : c.shared.asserted = false → Sound c := by
  refine h.invariant (C := fun _ _ => True) (I := fun c => c.shared.asserted = false → Sound c)
    (fun _ => ⟨?_, ?_, ?_⟩) (fun c l c' hI _ hn => next_sound hI hn) Program.along_true
  · refine ⟨rfl, rfl, ?_, Multiset.nodup_zero, Multiset.zero_le _, ?_⟩
    · exact fun k hk => absurd hk (Multiset.notMem_zero k)
    · rintro (h | h)
      · exact absurd h (Nat.lt_irrefl 0)
      · exact absurd rfl h
  · rw [← hcount]
    exact le_toInt32 _
  · exact fun t ht => absurd ht List.not_mem_nil

end

/-- While no assertion has failed no wake-up is lost, and `m_waiters` counts the threads that are waiting. -/
theorem run_notLost {count : Int} {tr : List (Config Shared Thread × Label Choice)} {c : Config Shared Thread}
    (hcount : toInt32 count = count) (h : machine.Run (initial count) tr c) (ha : c.shared.asserted = false) :
    ¬ Lost c ∧ c.shared.waiters = total Thread.inside c.threads := by
  have hS := run_unfailed hcount h ha
  exact ⟨hS.inv.not_lost, hS.inv.waiters⟩

/-- The token that a blocked waiter is notified of is taken before the waiter gets to it. -/
def stolenToken : List (Label Choice) :=
  [.call .wait, .act 0 .step, .act 0 .step, .act 0 .step, .act 0 .step, .act 0 .step, .act 0 .step,
    .call (.release 1), .act 1 .step, .act 1 .step, .act 1 .step, .act 1 (.notify 0), .act 1 .step,
    .call .tryAcquire, .act 2 .step, .act 2 .step, .act 0 .step, .act 0 .step, .act 0 .step, .act 0 .step]

theorem run_notLost_stolen :
    (¬ Lost (machine.last (initial 0) stolenToken) ∧ (machine.last (initial 0) stolenToken).shared.waiters =
      total Thread.inside (machine.last (initial 0) stolenToken).threads) ∧
      (machine.last (initial 0) stolenToken).threads = [.wait (.blocked 1), .release 1 .returned, .tried true] :=
  ⟨run_notLost (by decide) (Program.run_last (by decide)) (by decide), by decide⟩

end Xdispatch.Semaphore
