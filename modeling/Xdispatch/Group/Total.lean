import Xdispatch.Group.Invariant

/-!
# How long `wait` takes

`wait_for_consumed` hands its timeout on to the preceding consumable, and waits
for its own barrier with the same timeout again. Time is that of a virtual clock
here, which only passes while a barrier is waited for: such a wait ends with the
completion, or with its timeout. A barrier is completed once: it stays so when
resources are added after the last has been consumed, and does not hold up a wait
for these.
-/

namespace Xdispatch.Group

/-- A consumable of the chain with the `resources` that are outstanding when `wait` is called. The last of them is
consumed at `consumed`, if ever, and the barrier is completed at `completion`: with it, or before if the consumable had
been drained and resources were added again. -/
structure Timed where
  resources : Nat
  consumed : Option Int
  completion : Option Int
  ordered : ∀ t, consumed = some t → ∃ b ≤ t, completion = some b

namespace Timed

/-- The barrier is completed with the last resource. -/
def once (resources : Nat) (t : Option Int) : Timed := ⟨resources, t, t, fun b h => ⟨b, Int.le_refl b, h⟩⟩

def completed (c : Timed) (now : Int) : Bool := c.completion.any (· ≤ now)

/-- `m_resources.load ()` -/
def resourcesAt (c : Timed) (now : Int) : Nat := if c.consumed.any (· ≤ now) then 0 else c.resources

/-- `m_barrier.wait (timeout)`, called at `now`: its result, and when it returns. -/
def barrierWait (c : Timed) (timeout now : Int) : Bool × Int :=
  match c.completion with
  | some t => if t ≤ now then (true, now) else if t ≤ now + timeout then (true, t) else (false, now + timeout)
  | none => (false, now + timeout)

def Outstanding (c : Timed) (now : Int) : Prop := c.resourcesAt now ≠ 0

instance (c : Timed) (now : Int) : Decidable (c.Outstanding now) := inferInstanceAs (Decidable (_ ≠ _))

/-- Holds up a wait. -/
def Blocking (c : Timed) (now : Int) : Prop := c.Outstanding now ∧ c.completed now = false

instance (c : Timed) (now : Int) : Decidable (c.Blocking now) := inferInstanceAs (Decidable (_ ∧ _))

end Timed

/-- The call for the first consumable of the chain; the others are those that precede it. -/
def waitForConsumed (timeout : Int) : List Timed → Int → Bool × Int
  | [], now => (true, now)
  | c :: preceeding, now =>
    match waitForConsumed timeout preceeding now with
    | (true, now) => if c.resourcesAt now = 0 then (true, now) else c.barrierWait timeout now
    | (false, now) => (false, now)

/-- A call at time 0 returns in time, and does not say that all was consumed when it was not. -/
def InTotal (timeout : Int) (chain : List Timed) : Prop :=
  (waitForConsumed timeout chain 0).2 ≤ timeout ∧
    ((∃ c ∈ chain, c.Outstanding timeout) → (waitForConsumed timeout chain 0).1 = false)

instance (timeout : Int) (chain : List Timed) : Decidable (InTotal timeout chain) := inferInstanceAs (Decidable (_ ∧ _))

/-- A call at time 0 returns in time, and not with true while a consumable holds up a wait. -/
def InTime (timeout : Int) (chain : List Timed) : Prop :=
  (waitForConsumed timeout chain 0).2 ≤ timeout ∧
    ((∃ c ∈ chain, c.Blocking timeout) → (waitForConsumed timeout chain 0).1 = false)

/-- The oldest consumable that still holds up a wait after the timeout is the first one to be waited for. -/
def OldestFirst (timeout : Int) (chain : List Timed) : Prop :=
  ∀ c older, c :: older <:+ chain → c.Blocking timeout → (∀ b ∈ older, ¬ b.Blocking timeout) →
    ∀ b ∈ older, ¬ b.Blocking 0

/-- If resources are outstanding after the timeout, not all of them are in consumables that have been drained by then. -/
def Undrained (timeout : Int) (chain : List Timed) : Prop :=
  (∃ c ∈ chain, c.Outstanding timeout) → ∃ c ∈ chain, c.Blocking timeout

section
variable {c : Timed} {chain older : List Timed} {timeout now τ : Int} {r : Bool}

theorem Timed.completed_iff : c.completed now = true ↔ ∃ t, c.completion = some t ∧ t ≤ now := by
  simp [Timed.completed, Option.any_eq_true]

theorem Timed.outstanding_iff : c.Outstanding now ↔ c.resources ≠ 0 ∧ ∀ t, c.consumed = some t → now < t := by
  have hany : c.consumed.any (· ≤ now) = true ↔ ∃ t, c.consumed = some t ∧ t ≤ now := by
    simp [Option.any_eq_true]
  unfold Timed.Outstanding Timed.resourcesAt
  split
  next h =>
    obtain ⟨t, ht, hle⟩ := hany.mp h
    exact iff_of_false (fun hne => hne rfl) fun hall => Int.not_le.mpr (hall.2 t ht) hle
  next h =>
    refine (and_iff_left fun t ht => ?_).symm
    by_contra hle
    exact h (hany.mpr ⟨t, ht, by omega⟩)

/-- While the barrier is not completed, none of the resources has been the last. -/
theorem Timed.blocking_iff : c.Blocking now ↔ c.resources ≠ 0 ∧ c.completed now = false := by
  refine ⟨fun h => ⟨(outstanding_iff.mp h.1).1, h.2⟩, fun h => ⟨outstanding_iff.mpr ⟨h.1, fun t ht => ?_⟩, h.2⟩⟩
  obtain ⟨b, hb, hc⟩ := c.ordered t ht
  by_contra hle
  exact Bool.eq_false_iff.mp h.2 (completed_iff.mpr ⟨b, hc, by omega⟩)

theorem Timed.Blocking.before (h : c.Blocking τ) (hle : now ≤ τ) : c.Blocking now := by
  obtain ⟨hr, hc⟩ := blocking_iff.mp h
  refine blocking_iff.mpr ⟨hr, Bool.eq_false_iff.mpr fun hn => ?_⟩
  obtain ⟨t, ht, hle'⟩ := completed_iff.mp hn
  exact Bool.eq_false_iff.mp hc (completed_iff.mpr ⟨t, ht, hle'.trans hle⟩)

theorem Timed.barrierWait_le (h0 : 0 ≤ timeout) : now ≤ (c.barrierWait timeout now).2 := by
  unfold Timed.barrierWait
  split
  · split
    · exact Int.le_refl _
    · split <;> simp only [] <;> omega
  · simp only []
    omega

theorem Timed.barrierWait_completed (h : c.barrierWait timeout now = (true, τ)) : c.completed τ = true := by
  unfold Timed.barrierWait at h
  split at h
  next t ht =>
    split at h
    next hle =>
      cases h
      exact completed_iff.mpr ⟨t, ht, hle⟩
    · split at h <;> cases h
      exact completed_iff.mpr ⟨_, ht, Int.le_refl _⟩
  · cases h

theorem Timed.barrierWait_of_completed (h : c.completed now = true) : c.barrierWait timeout now = (true, now) := by
  obtain ⟨t, ht, hle⟩ := completed_iff.mp h
  rw [barrierWait, ht]
  exact if_pos hle

/-! ## One consumable more -/

theorem wait_cons_false (h : waitForConsumed timeout older now = (false, τ)) :
    waitForConsumed timeout (c :: older) now = (false, τ) := by
  rw [waitForConsumed, h]

theorem wait_cons_true (h : waitForConsumed timeout older now = (true, τ)) :
    waitForConsumed timeout (c :: older) now = if c.Blocking τ then c.barrierWait timeout τ else (true, τ) := by
  rw [waitForConsumed, h]
  change (if c.resourcesAt τ = 0 then (true, τ) else c.barrierWait timeout τ) = _
  by_cases ho : c.Outstanding τ
  · rw [if_neg ho]
    by_cases hc : c.completed τ = true
    · rw [if_neg fun hb => Bool.eq_false_iff.mp hb.2 hc, Timed.barrierWait_of_completed hc]
    · rw [if_pos ⟨ho, Bool.eq_false_iff.mpr hc⟩]
  · rw [if_pos (Classical.not_not.mp ho), if_neg fun hb => ho hb.1]

theorem wait_le (h0 : 0 ≤ timeout) :
    (waitForConsumed timeout older now).2 ≤ (waitForConsumed timeout (c :: older) now).2 := by
  cases h : waitForConsumed timeout older now with
  | mk r τ =>
    cases r with
    | false => rw [wait_cons_false h]
    | true =>
      rw [wait_cons_true h]
      split
      · exact Timed.barrierWait_le h0
      · exact Int.le_refl _

/-- A wait that returns true has found everything consumed. -/
theorem wait_consumed (h0 : 0 ≤ timeout) : ∀ {chain : List Timed} {τ : Int},
    waitForConsumed timeout chain now = (true, τ) → ∀ c ∈ chain, ¬ c.Blocking τ
  | [], _, _ => by simp
  | c :: older, τ, h => by
    cases ho : waitForConsumed timeout older now with
    | mk r τ₁ =>
      cases r with
      | false =>
        rw [wait_cons_false ho] at h
        cases h
      | true =>
        have hle : τ₁ ≤ τ := by
          have hmono : (waitForConsumed timeout older now).2 ≤ (waitForConsumed timeout (c :: older) now).2 := wait_le h0
          rw [h, ho] at hmono
          exact hmono
        rw [wait_cons_true ho] at h
        intro b hb
        rcases List.mem_cons.mp hb with rfl | hb
        · split at h
          · intro hout
            exact absurd (Timed.barrierWait_completed h) (Bool.eq_false_iff.mp (Timed.blocking_iff.mp hout).2)
          next hout =>
            cases h
            exact hout
        · exact fun hout => wait_consumed h0 ho b hb (hout.before hle)

theorem wait_unblocked (h0 : 0 ≤ timeout) : ∀ {chain : List Timed}, (∀ c ∈ chain, ¬ c.Blocking timeout) →
    ∃ τ, waitForConsumed timeout chain 0 = (true, τ) ∧ 0 ≤ τ ∧ τ ≤ timeout ∧ (τ = 0 ↔ ∀ c ∈ chain, ¬ c.Blocking 0)
  | [], _ => ⟨0, rfl, Int.le_refl 0, h0, by simp⟩
  | c :: older, h => by
    obtain ⟨τ, hw, hle, hτ, hz⟩ := wait_unblocked h0 fun b hb => h b (List.mem_cons_of_mem _ hb)
    rw [wait_cons_true hw]
    by_cases hc : c.Blocking τ
    · -- the barrier is completed after `τ` and not after the timeout
      obtain ⟨hr, hn⟩ := Timed.blocking_iff.mp hc
      have ht : c.completed timeout = true := by
        by_contra hne
        exact h c (List.mem_cons_self ..) (Timed.blocking_iff.mpr ⟨hr, Bool.eq_false_iff.mpr hne⟩)
      obtain ⟨t, hct, htle⟩ := Timed.completed_iff.mp ht
      have hlt : ¬ t ≤ τ := fun hle => Bool.eq_false_iff.mp hn (Timed.completed_iff.mpr ⟨t, hct, hle⟩)
      refine ⟨t, ?_, by omega, htle, by omega, fun hall => ?_⟩
      · rw [if_pos hc, Timed.barrierWait, hct]
        simp only []
        rw [if_neg hlt, if_pos (by omega)]
      · exact absurd (hc.before hle) (hall c (List.mem_cons_self ..))
    · rw [if_neg hc]
      refine ⟨τ, rfl, hle, hτ, fun he => ?_, fun hall => hz.mpr fun b hb => hall b (List.mem_cons_of_mem _ hb)⟩
      subst he
      exact List.forall_mem_cons.mpr ⟨hc, hz.mp rfl⟩

/-! ## The whole chain -/

theorem oldestFirst_cons : OldestFirst timeout (c :: older) ↔ OldestFirst timeout older ∧
    (c.Blocking timeout → (∀ b ∈ older, ¬ b.Blocking timeout) → ∀ b ∈ older, ¬ b.Blocking 0) := by
  constructor
  · exact fun h => ⟨fun b l hs => h b l (hs.trans (List.suffix_cons ..)), h c older (List.suffix_refl _)⟩
  · rintro ⟨h, hc⟩ b l hs
    rcases List.suffix_cons_iff.mp hs with he | hs
    · cases he
      exact hc
    · exact h b l hs

theorem inTime_iff_of_blocking (h0 : 0 ≤ timeout) (ho : ∃ c ∈ chain, c.Blocking timeout) :
    InTime timeout chain ↔ (waitForConsumed timeout chain 0).2 ≤ timeout := by
  refine ⟨fun h => h.1, fun h => ⟨h, fun _ => Bool.eq_false_iff.mpr fun hr => ?_⟩⟩
  obtain ⟨c, hm, hc⟩ := ho
  exact wait_consumed h0 (Prod.ext hr rfl) c hm (hc.before h)

theorem inTime_cons_of_blocking (h0 : 0 ≤ timeout) (ho : ∃ b ∈ older, b.Blocking timeout) :
    InTime timeout (c :: older) ↔ InTime timeout older := by
  have ho' : ∃ b ∈ c :: older, b.Blocking timeout := ho.imp fun b hb => ⟨List.mem_cons_of_mem _ hb.1, hb.2⟩
  rw [inTime_iff_of_blocking h0 ho']
  constructor
  · exact fun h => (inTime_iff_of_blocking h0 ho).mpr ((wait_le h0).trans h)
  · intro h
    have hw : waitForConsumed timeout older 0 = (false, (waitForConsumed timeout older 0).2) := Prod.ext (h.2 ho) rfl
    rw [wait_cons_false hw]
    exact h.1

theorem inTime_cons_of_none (h0 : 0 ≤ timeout) (hn : ∀ b ∈ older, ¬ b.Blocking timeout)
    (hc : c.Blocking timeout) : InTime timeout (c :: older) ↔ ∀ b ∈ older, ¬ b.Blocking 0 := by
  obtain ⟨τ, hw, hle, hτ, hz⟩ := wait_unblocked h0 hn
  rw [inTime_iff_of_blocking h0 ⟨c, List.mem_cons_self .., hc⟩, wait_cons_true hw, if_pos (hc.before hτ), ← hz]
  have hcomp := (Timed.blocking_iff.mp hc).2
  unfold Timed.barrierWait
  cases ht : c.completion with
  | none =>
    simp only []
    omega
  | some t =>
    have hlt : ¬ t ≤ timeout := fun hle => Bool.eq_false_iff.mp hcomp (Timed.completed_iff.mpr ⟨t, ht, hle⟩)
    simp only [if_neg (show ¬ t ≤ τ by omega)]
    split <;> simp only [] <;> omega

theorem inTime_iff (h0 : 0 ≤ timeout) (chain : List Timed) : InTime timeout chain ↔ OldestFirst timeout chain := by
  induction chain with
  | nil => exact ⟨fun _ c older hs => by simp at hs, fun _ => ⟨h0, by simp⟩⟩
  | cons c older ih =>
    rw [oldestFirst_cons]
    by_cases ho : ∃ b ∈ older, b.Blocking timeout
    · rw [inTime_cons_of_blocking h0 ho, ih]
      obtain ⟨b, hb, hout⟩ := ho
      exact (and_iff_left fun _ hn => absurd hout (hn b hb)).symm
    · have hn : ∀ b ∈ older, ¬ b.Blocking timeout := fun b hb hout => ho ⟨b, hb, hout⟩
      have hfirst : OldestFirst timeout older := fun b l hs hb =>
        absurd hb (hn b (hs.subset (List.mem_cons_self ..)))
      by_cases hc : c.Blocking timeout
      · rw [inTime_cons_of_none h0 hn hc]
        exact ⟨fun h => ⟨hfirst, fun _ _ => h⟩, fun h => h.2 hc hn⟩
      · have hall : ∀ b ∈ c :: older, ¬ b.Blocking timeout := List.forall_mem_cons.mpr ⟨hc, hn⟩
        obtain ⟨τ, hw, -, hτ, -⟩ := wait_unblocked h0 hall
        refine ⟨fun _ => ⟨hfirst, fun h => absurd h hc⟩, fun _ => ⟨by rw [hw]; exact hτ, ?_⟩⟩
        intro ho'
        obtain ⟨b, hb, hout⟩ := ho'
        exact absurd hout (hall b hb)

/-- A consumable that had been drained when the resource was added that is consumed at 3. -/
example : waitForConsumed 2 [⟨1, some 3, some 0, by simp⟩] 0 = (true, 0) := by decide

end

/-! ## The steps of the wait -/

/-- When the consumables are due, from the state of the group on. -/
structure Due (s : Shared) where
  consumed : Nat → Option Int
  completion : Nat → Option Int
  ordered : ∀ k t, consumed k = some t → ∃ b ≤ t, completion k = some b
  outstanding : ∀ k t, (s.heap k).resources ≠ 0 → consumed k = some t → s.now < t
  completed : ∀ k, (s.heap k).barrier = true ↔ ∃ t ≤ s.now, completion k = some t

namespace Shared

variable {s : Shared} {due : Due s}

def timed (s : Shared) (due : Due s) (k : Nat) : Timed :=
  ⟨(s.heap k).resources, due.consumed k, due.completion k, due.ordered k⟩

/-- The group at `now`, when nothing else happens than that the consumables are consumed as they are due. -/
def elapsed (s : Shared) (due : Due s) (now : Int) : Shared :=
  { s with
    heap := fun k =>
      { s.heap k with resources := (s.timed due k).resourcesAt now, barrier := (s.timed due k).completed now }
    now := now }

/-- Nothing has happened yet, and a barrier that is completed stays so. -/
theorem elapsed_now : s.elapsed due s.now = s := by
  have hheap : (s.elapsed due s.now).heap = s.heap := by
    funext k
    have hr : (s.timed due k).resourcesAt s.now = (s.heap k).resources := by
      unfold Timed.resourcesAt
      split
      next h =>
        obtain ⟨t, ht, hle⟩ := (Option.any_eq_true ..).mp h
        by_contra hne
        have := due.outstanding k t (fun h0 => hne h0.symm) ht
        have hle : t ≤ s.now := by simpa using hle
        omega
      · rfl
    have hb : (s.timed due k).completed s.now = (s.heap k).barrier := by
      rw [Bool.eq_iff_iff, Timed.completed_iff, due.completed k]
      exact ⟨fun ⟨t, ht, hle⟩ => ⟨t, hle, ht⟩, fun ⟨t, hle, ht⟩ => ⟨t, ht, hle⟩⟩
    change (⟨_, (s.timed due k).resourcesAt s.now, (s.timed due k).completed s.now⟩ : Consumable) = s.heap k
    rw [hr, hb]
  change { s with heap := (s.elapsed due s.now).heap, now := s.now } = s
  rw [hheap]

end Shared

/-- The chain from a consumable on. -/
inductive Linked (heap : Nat → Consumable) : Nat → List Nat → Prop
  | last {k : Nat} : (heap k).preceeding = none → Linked heap k [k]
  | link {k p : Nat} {ks : List Nat} : (heap k).preceeding = some p → p ≠ k → Linked heap p ks → Linked heap k (k :: ks)

/-- What the wait `w` comes to from `now₀` on: it takes its steps at once, and time passes while it has none. -/
inductive Elapses (s : Shared) (due : Due s) (w : Wait) (now₀ : Int) (ph₀ : WaitPhase) :
    Int → WaitPhase → Prop
  | nil : Elapses s due w now₀ ph₀ now₀ ph₀
  | step {now : Int} {ph ph' : WaitPhase} (e : Choice) : Elapses s due w now₀ ph₀ now ph →
      Wait.act (s.elapsed due now) { w with phase := ph } e = some (s.elapsed due now, ph') →
      Elapses s due w now₀ ph₀ now ph'
  | pass {now later : Int} {ph : WaitPhase} : Elapses s due w now₀ ph₀ now ph → now ≤ later →
      (∀ τ, now ≤ τ → τ < later → ∀ e, Wait.act (s.elapsed due τ) { w with phase := ph } e = none) →
      Elapses s due w now₀ ph₀ later ph

section
variable {s : Shared} {due : Due s} {w : Wait} {now₀ now timeout τ : Int} {ph₀ : WaitPhase} {k : Nat}
  {ks stack : List Nat} {r : Bool}

/-- `wait_for_consumed` returns `r` to its caller. -/
def answered (stack : List Nat) (r : Bool) : WaitPhase := if r then satisfied stack else .returned false

theorem blocked_elapses (h : Elapses s due w now₀ ph₀ now (.blocked k stack (some (now + timeout)))) (h0 : 0 ≤ timeout)
    (hn : (s.timed due k).completed now = false) (hw : (s.timed due k).barrierWait timeout now = (r, τ)) :
    Elapses s due w now₀ ph₀ τ (answered stack r) := by
  have hnone : ∀ x, x < now + timeout → (s.timed due k).completed x = false → ∀ e,
      Wait.act (s.elapsed due x) { w with phase := .blocked k stack (some (now + timeout)) } e = none := by
    intro x hx hc e
    cases e <;> simp [Wait.act, Shared.elapsed, hc, Int.not_le.mpr hx]
  -- the time of its completion decides how long it is blocked
  have hpass : ∀ later, now ≤ later → later ≤ now + timeout → (∀ t, due.completion k = some t → later ≤ t) →
      Elapses s due w now₀ ph₀ later (.blocked k stack (some (now + timeout))) := by
    refine fun later hle hle' hl => h.pass hle fun x _ hx => hnone x (by omega) (Bool.eq_false_iff.mpr fun hc => ?_)
    obtain ⟨t, ht, hxt⟩ := Timed.completed_iff.mp hc
    have := hl t ht
    omega
  have hlate : ∀ t, due.completion k = some t → now < t := by
    intro t ht
    by_contra hle
    exact Bool.eq_false_iff.mp hn (Timed.completed_iff.mpr ⟨t, ht, by omega⟩)
  have hfail : (s.timed due k).completed (now + timeout) = false → (∀ t, due.completion k = some t → now + timeout ≤ t) →
      Elapses s due w now₀ ph₀ (now + timeout) (.returned false) := by
    refine fun hc hl => (hpass _ (by omega) (Int.le_refl _) hl).step .timeout ?_
    simp [Wait.act, Shared.elapsed, hc]
  unfold Timed.barrierWait at hw
  split at hw
  next t ht =>
    have := hlate t ht
    rw [if_neg (by omega)] at hw
    split at hw <;> cases hw
    next hle =>
      refine (hpass _ (by omega) hle fun t' ht' => ?_).step .step ?_
      · exact Int.le_of_eq (Option.some.inj (ht.symm.trans ht'))
      · simp [Wait.act, Shared.elapsed, Timed.completed_iff.mpr ⟨_, ht, Int.le_refl _⟩, answered]
    next hle =>
      have hl : ∀ t', due.completion k = some t' → ¬ t' ≤ now + timeout := fun t' ht' =>
        Option.some.inj (ht.symm.trans ht') ▸ hle
      refine hfail (Bool.eq_false_iff.mpr fun hc => ?_) fun t' ht' => by
        have := hl t' ht'
        omega
      obtain ⟨t', ht', hle'⟩ := Timed.completed_iff.mp hc
      exact hl t' ht' hle'
  next ht =>
    cases hw
    refine hfail (Bool.eq_false_iff.mpr fun hc => ?_) fun t' ht' => by cases ht.symm.trans ht'
    obtain ⟨t', ht', -⟩ := Timed.completed_iff.mp hc
    cases ht.symm.trans ht'

theorem check_elapses (h : Elapses s due w now₀ ph₀ now (.check k stack)) (hf : w.timeout ≠ waitForever)
    (h0 : 0 ≤ timeout) (hd : waitForDeadline now w.timeout = now + timeout) :
    ∃ r τ, Elapses s due w now₀ ph₀ τ (answered stack r) ∧
      (if (s.timed due k).Blocking now then (s.timed due k).barrierWait timeout now else (true, now)) = (r, τ) := by
  by_cases ho : (s.timed due k).Outstanding now
  · have hcheck : Elapses s due w now₀ ph₀ now (.barrierWait k stack) :=
      h.step .step (by simp only [Wait.act]; exact if_neg ho)
    by_cases hc : (s.timed due k).completed now = true
    · rw [if_neg fun hb => Bool.eq_false_iff.mp hb.2 hc]
      refine ⟨true, now, hcheck.step .step ?_, rfl⟩
      simp [Wait.act, Shared.elapsed, hc, answered]
    · have hn : (s.timed due k).completed now = false := Bool.eq_false_iff.mpr hc
      have hblock : Elapses s due w now₀ ph₀ now (.blocked k stack (some (now + timeout))) := by
        refine hcheck.step .step ?_
        simp [Wait.act, Shared.elapsed, hn, hf, hd]
      rw [if_pos ⟨ho, hn⟩]
      exact ⟨_, _, blocked_elapses hblock h0 hn rfl, rfl⟩
  · rw [if_neg fun hb => ho hb.1]
    refine ⟨true, now, h.step .step ?_, rfl⟩
    simp only [Wait.act]
    exact if_pos (Classical.not_not.mp ho)

theorem Timed.barrierWait_bound {c : Timed} (h0 : 0 ≤ timeout) : (c.barrierWait timeout now).2 ≤ now + timeout := by
  unfold Timed.barrierWait
  split
  · split
    · simp only []
      omega
    · split <;> simp only [] <;> omega
  · exact Int.le_refl _

/-- The wait of the group returns what `waitForConsumed` says, and when. No sum of times may overflow. -/
theorem descend_elapses (hf : w.timeout ≠ waitForever) (h0 : 0 ≤ timeout) (hd : toNanoseconds w.timeout = timeout)
    (hk : Linked s.heap k ks) : ∀ {stack : List Nat} {now : Int}, 0 ≤ now → now + ks.length * timeout < 2 ^ 63 →
    Elapses s due w now₀ ph₀ now (.descend k stack) →
    ∃ r τ, waitForConsumed timeout (ks.map (s.timed due)) now = (r, τ) ∧ now ≤ τ ∧ τ ≤ now + ks.length * timeout ∧
      Elapses s due w now₀ ph₀ τ (answered stack r) := by
  have hdeadline : ∀ {now : Int}, 0 ≤ now → now + timeout < 2 ^ 63 → waitForDeadline now w.timeout = now + timeout := by
    intro now hn hlt
    unfold waitForDeadline
    rw [hd, toInt64_eq (by omega) hlt]
  -- from the test of `m_resources` on
  have hown : ∀ {k : Nat} {ks : List Nat} {stack : List Nat} {now τ : Int}, 0 ≤ τ → τ + timeout < 2 ^ 63 →
      waitForConsumed timeout (ks.map (s.timed due)) now = (true, τ) → Elapses s due w now₀ ph₀ τ (.check k stack) →
      ∃ r τ', waitForConsumed timeout ((k :: ks).map (s.timed due)) now = (r, τ') ∧ τ ≤ τ' ∧ τ' ≤ τ + timeout ∧
        Elapses s due w now₀ ph₀ τ' (answered stack r) := by
    intro k ks stack now τ hτ hlt hw h
    obtain ⟨r, τ', hr, he⟩ := check_elapses h hf h0 (hdeadline hτ hlt)
    refine ⟨r, τ', ?_, ?_, ?_, hr⟩
    · rw [List.map_cons, wait_cons_true hw, he]
    · split at he
      · exact (Timed.barrierWait_le h0).trans_eq (congrArg Prod.snd he)
      · cases he
        exact Int.le_refl _
    · split at he
      · exact (congrArg Prod.snd he).symm.trans_le (Timed.barrierWait_bound h0)
      · cases he
        omega
  induction hk with
  | @last k hp =>
    intro stack now hn hlt h
    simp only [List.length_singleton, Nat.cast_one, one_mul] at hlt ⊢
    exact hown hn hlt rfl (h.step .step (by simp [Wait.act, Shared.elapsed, hp]))
  | @link k p ks hp hne _ ih =>
    intro stack now hn hlt h
    simp only [List.length_cons, Nat.cast_add, Nat.cast_one, add_mul, one_mul] at hlt ⊢
    have hdesc : Elapses s due w now₀ ph₀ now (.descend p (k :: stack)) :=
      h.step .step (by simp [Wait.act, Shared.elapsed, hp, hne])
    obtain ⟨r, τ, hw, hle, hτ, hr⟩ := ih hn (by omega) hdesc
    cases r with
    | true =>
      obtain ⟨r', τ', hw', hle', hτ', hr'⟩ := hown (k := k) (by omega) (by omega) hw hr
      exact ⟨r', τ', hw', by omega, by omega, hr'⟩
    | false => exact ⟨false, τ, wait_cons_false hw, hle, by omega, hr⟩

end

end Xdispatch.Group
