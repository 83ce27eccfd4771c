import Xdispatch.Group.Notify

/-!
# What a time-out means in both backends

`libdispatch::group_impl::wait` passes its time-out to `dispatch_time` and
`dispatch_group_wait`, the naive one hands it to each barrier on its way. They
agree unless the time-out is -1, which is forever for the barrier only, or the
time it leads to is out of range: `dispatch_time` takes what it cannot represent
for forever, `wait_for` wraps it into the past. The naive wait computes the
deadline anew at each barrier, up to a whole time-out after the call, so that it
is twice the time-out that has to fit.
-/

namespace Xdispatch.Group

/-! ## The wait of libdispatch -/

/-- What `libdispatch::group_impl` calls. The time `none` is `DISPATCH_TIME_FOREVER`;
`horizon` is the first time that `dispatch_time` cannot represent. `groupWait now
time finished` is a call of `dispatch_group_wait` for a group whose operations
finish at `finished`, if ever: what it says and when, unless it never returns. -/
structure Libdispatch where
  horizon : Int
  dispatchTime : Int → Int → Option Int
  groupWait : Int → Option Int → Option Int → Option (Bool × Int)

namespace Libdispatch

structure Documented (L : Libdispatch) : Prop where
  horizon_le : L.horizon ≤ 2 ^ 63
  past : ∀ now d, d ≤ 0 → ∃ x, L.dispatchTime now d = some x ∧ x ≤ now
  future : ∀ now d, 0 < d → now + d < L.horizon → L.dispatchTime now d = some (now + d)
  overflow : ∀ now d, 0 < d → L.horizon ≤ now + d → L.dispatchTime now d = none
  forever : ∀ now finished τ, L.groupWait now none finished ≠ some (false, τ)
  elapsed : ∀ now x finished τ, L.groupWait now (some x) finished = some (false, τ) → now ≤ τ ∧ x ≤ τ
  gives_up : ∀ now x, ∃ τ, L.groupWait now (some x) none = some (false, τ)

variable (L : Libdispatch)

/-- `libdispatch::group_impl::wait`; `DISPATCH_TIME_NOW` is the time `now`. -/
def wait (now t : Int) (finished : Option Int) : Option (Bool × Int) :=
  if t = millisecondsMax then L.groupWait now none finished
  else if t = 0 then L.groupWait now (some now) finished
  else L.groupWait now (L.dispatchTime now (toNanoseconds t)) finished

/-- The wait may return false at `τ`, before the operations finish. -/
def MayTimeOut (now t τ : Int) : Prop :=
  ∃ finished, L.wait now t finished = some (false, τ) ∧ ∀ f, finished = some f → τ < f

section
variable {L} {now t : Int}

theorem mayTimeOut_iff (hL : L.Documented) : (∃ τ, L.MayTimeOut now t τ) ↔
    t ≠ millisecondsMax ∧ (0 < toNanoseconds t → now + toNanoseconds t < L.horizon) := by
  unfold MayTimeOut wait
  by_cases hm : t = millisecondsMax
  · simp [hm, hL.forever]
  have gives_up : ∀ time x, time = some x →
      ∃ τ finished, L.groupWait now time finished = some (false, τ) ∧ ∀ f, finished = some f → τ < f := by
    rintro time x rfl
    obtain ⟨τ, hτ⟩ := hL.gives_up now x
    exact ⟨τ, none, hτ, nofun⟩
  by_cases h0 : t = 0
  · subst h0
    simp only [if_neg hm, ite_true]
    exact ⟨fun _ => ⟨hm, fun h => absurd h (by decide)⟩, fun _ => gives_up _ now rfl⟩
  simp only [if_neg hm, if_neg h0]
  constructor
  · rintro ⟨τ, finished, hw, -⟩
    refine ⟨hm, fun hn => ?_⟩
    by_contra hh
    rw [hL.overflow _ _ hn (by omega)] at hw
    exact hL.forever _ _ _ hw
  · rintro ⟨-, hn⟩
    by_cases hp : 0 < toNanoseconds t
    · exact gives_up _ _ (hL.future _ _ hp (hn hp))
    · obtain ⟨x, hx, -⟩ := hL.past now (toNanoseconds t) (by omega)
      exact gives_up _ _ hx

theorem elapsed_le (hL : L.Documented) (h : 0 ≤ t) (ht : t * 1000000 < 2 ^ 63) (hn : t ≠ 0 → now + t * 1000000 < L.horizon)
    {τ : Int} (hτ : L.MayTimeOut now t τ) : now + t * 1000000 ≤ τ := by
  obtain ⟨finished, hw, -⟩ := hτ
  unfold wait at hw
  split at hw
  · exact absurd hw (hL.forever _ _ _)
  split at hw
  · next h0 =>
    have := (hL.elapsed _ _ _ _ hw).1
    omega
  · next h0 =>
    have hN : toNanoseconds t = t * 1000000 := toInt64_eq (by omega) ht
    rw [hL.future _ _ (by omega) (by rw [hN]; exact hn h0), hN] at hw
    exact (hL.elapsed _ _ _ _ hw).2

end

end Libdispatch

/-! ## The naive wait -/

/-- A call of `wait` that has not done its first step. -/
def Called (c : Config Shared Thread) (i : Nat) (t : Int) : Prop :=
  ∃ owed, c.threads[i]? = some (.wait ⟨none, t, owed, .load⟩)

def Unfinished (s : Shared) : Prop := ∃ p ∈ s.added, p.1 ∉ s.executed

/-- From `c` on the wait may return false until `τ`, before the operations finish. -/
def MayTimeOut (c : Config Shared Thread) (i : Nat) (τ : Int) : Prop :=
  ∃ tr c' w, group.Run c tr c' ∧ c'.threads[i]? = some (.wait w) ∧ w.phase = .returned false ∧
    Unfinished c'.shared ∧ c'.shared.now = τ

/-- Once the deadline has passed, or the wait has returned false, the time is `good`. -/
def Passes (good : Int → Prop) (now : Int) : WaitPhase → Prop
  | .blocked _ _ (some d) => ∀ m, now ≤ m → d ≤ m → good m
  | .returned false => good now
  | _ => True

theorem Passes.later {good : Int → Prop} (hg : ∀ m m', m ≤ m' → good m → good m') {now now' : Int} (hn : now ≤ now')
    {ph : WaitPhase} (h : Passes good now ph) : Passes good now' ph := by
  cases ph with
  | blocked k stack d =>
    cases d with
    | none => trivial
    | some d => exact fun m hm hd => h m (by omega) hd
  | returned r =>
    cases r with
    | false => exact hg _ _ hn h
    | true => trivial
  | _ => trivial

theorem wait_passes {good : Int → Prop} {s s' : Shared} {w : Wait} {e : Choice} {ph : WaitPhase}
    (h : w.act s e = some (s', ph))
    (hd : w.timeout ≠ waitForever → ∀ m, s.now ≤ m → waitForDeadline s.now w.timeout ≤ m → good m)
    (hw : Passes good s.now w.phase) : Passes good s'.now ph := by
  cases ph with
  | blocked k stack d =>
    obtain ⟨rfl, -, rfl⟩ := blocked_deadline h
    split
    · trivial
    · next hf => exact hd hf
  | returned r =>
    cases r with
    | true => trivial
    | false =>
      obtain ⟨-, k, stack, d, hp, hle⟩ := returned_false h
      have hs : s'.now = s.now := by
        rcases wait_shared h with ⟨rfl, -⟩ | ⟨-, rfl, -⟩ | ⟨n, r, -, -, -, rfl⟩ <;> rfl
      rw [hp] at hw
      rw [hs]
      exact hw _ (Int.le_refl _) hle
  | _ => trivial

theorem run_passes (good : Int → Prop) (hg : ∀ m m', m ≤ m' → good m → good m') {t : Int}
    {c c' : Config Shared Thread} (hd : t ≠ waitForever → ∀ n m, c.shared.now ≤ n → n ≤ m → waitForDeadline n t ≤ m → good m)
    {i : Nat} (hc : Called c i t) {tr : List (Config Shared Thread × Label Choice)} (h : group.Run c tr c') :
    ∃ w, c'.threads[i]? = some (.wait w) ∧ Passes good c'.shared.now w.phase := by
  have key : c.shared.now ≤ c'.shared.now ∧
      ∃ w, c'.threads[i]? = some (.wait w) ∧ w.timeout = t ∧ Passes good c'.shared.now w.phase := by
    refine h.invariant_by (C := fun _ _ => True) (I := fun c' => c.shared.now ≤ c'.shared.now ∧
      ∃ w, c'.threads[i]? = some (.wait w) ∧ w.timeout = t ∧ Passes good c'.shared.now w.phase)
      ?_ ?_ ?_ Program.along_true
    · obtain ⟨owed, hi⟩ := hc
      exact ⟨Int.le_refl _, _, hi, rfl, trivial⟩
    · rintro c₁ e s new ⟨hn, w, hi, ht, hp⟩ - hcall
      have hs : c₁.shared.now ≤ s.now := call_now hcall
      exact ⟨Int.le_trans hn hs, w, Family.get_append hi _, ht, hp.later hg hs⟩
    · rintro c₁ j e t₁ s t' new ⟨hn, w, hi, ht, hp⟩ - hj ha
      replace ha : act c₁.shared t₁ e = some (s, t', new) := ha
      obtain ⟨hs, -⟩ := act_now ha
      simp only [hs]
      refine ⟨hn, ?_⟩
      by_cases hij : j = i
      · subst hij
        rw [hi] at hj
        cases hj
        obtain ⟨-, ⟨_, _, _, he, _⟩ | ⟨w', ph, he, rfl, hw⟩⟩ := act_cases ha
        · cases he
        · cases he
          refine ⟨_, Family.get_step hi _ _, ht, ?_⟩
          rw [← hs]
          exact wait_passes hw (fun hf m hm hdm => hd (ht ▸ hf) _ m hn hm (ht ▸ hdm)) hp
      · exact ⟨w, Family.get_step_of_ne hi hij _ _, ht, hp⟩
  obtain ⟨-, w, hi, -, hp⟩ := key
  exact ⟨w, hi, hp⟩

/-! ## A wait that times out -/

/-- What time-outs are about is the same in both states. -/
def SameWork (s s' : Shared) : Prop := s'.now = s.now ∧ s'.added = s.added ∧ s'.executed = s.executed

/-- The wait is on its way to the barrier of `k`, which nobody has completed. -/
structure Facing (s₀ : Shared) (i k : Nat) (t : Int) (c : Config Shared Thread) : Prop where
  inv : Inv c
  counted : (c.shared.heap k).resources ≠ 0
  barrier : (c.shared.heap k).barrier = false
  same : SameWork s₀ c.shared
  thread : ∃ w, c.threads[i]? = some (.wait w) ∧ w.notification = none ∧ w.timeout = t ∧
    Pending c.shared w.phase k ∧ w.phase.moving = true

/-- It is blocked where it will time out. -/
def Blocked (s₀ : Shared) (t : Int) (s : Shared) (th : Thread) : Prop :=
  SameWork s₀ s ∧ ∃ w k stack, th = .wait w ∧ w.phase = .blocked k stack (some (waitForDeadline s₀.now t)) ∧
    (s.heap k).barrier = false

theorem wait_sameWork {s s' : Shared} {w : Wait} {e : Choice} {ph : WaitPhase} (hn : w.notification = none)
    (h : w.act s e = some (s', ph)) : SameWork s s' ∧ ph ≠ .submitted := by
  rcases wait_shared h with ⟨rfl, hp⟩ | ⟨-, rfl, rfl⟩ | ⟨n, r, hn', -⟩
  · exact ⟨⟨rfl, rfl, rfl⟩, hp⟩
  · exact ⟨⟨rfl, rfl, rfl⟩, nofun⟩
  · rw [hn] at hn'
    cases hn'

theorem facing_step {s₀ : Shared} {i k : Nat} {t : Int} (ht : t ≠ waitForever) {c : Config Shared Thread}
    (hF : Facing s₀ i k t c) {th : Thread} (hi : c.threads[i]? = some th) :
    ∃ e s' th' new, group.act c.shared th e = some (s', th', new) ∧
      (Blocked s₀ t s' th' ∨ th'.rank s' < th.rank c.shared ∧ Facing s₀ i k t ⟨s', c.threads.set i th' ++ new⟩) := by
  obtain ⟨w, hi', hn, hw, hp, hm⟩ := hF.thread
  cases hi.symm.trans hi'
  obtain ⟨s', ph, hact, hlt⟩ := wait_step hF.inv hm
  refine ⟨.step, s', .wait { w with phase := ph }, [], by simp [group, act, hact], ?_⟩
  obtain ⟨⟨h1, h2, h3⟩, hsub⟩ := wait_sameWork hn hact
  have hsame : SameWork s₀ s' := ⟨h1.trans hF.same.1, h2.trans hF.same.2.1, h3.trans hF.same.2.2⟩
  obtain ⟨hres, hbar⟩ := wait_heap hF.inv hact k
  have hpend : Pending s' ph k := by
    rcases wait_visits hF.inv hact hp with h | h | h
    · exact h
    · exact absurd h hF.counted
    · rw [hF.barrier] at h
      cases h
  have hfacing : ph.moving = true → Facing s₀ i k t ⟨s', c.threads.set i (.wait { w with phase := ph }) ++ []⟩ := fun hm =>
    ⟨wait_inv hF.inv hi hact, by simpa only [hres] using hF.counted, hbar.trans hF.barrier, hsame, _,
      Family.get_step hi _ _, hn, hw, hpend, hm⟩
  cases ph with
  | blocked k' stack d =>
    obtain ⟨rfl, hb, rfl⟩ := blocked_deadline hact
    rw [hw, if_neg ht, hF.same.1]
    exact Or.inl ⟨hsame, _, k', stack, rfl, rfl, hb⟩
  | returned r =>
    cases (hpend : r = false)
    cases (returned_false hact).1
  | submitted => exact absurd rfl hsub
  | _ => exact Or.inr ⟨hlt, hfacing rfl⟩

theorem mayTimeOut_of_counted {c : Config Shared Thread} (hI : Inv c) (hu : Unfinished c.shared) {i k : Nat} {t : Int}
    (ht : t ≠ waitForever) (hc : Called c i t) (hk : Chain c.shared.heap c.shared.consumable k)
    (hres : (c.shared.heap k).resources ≠ 0) (hb : (c.shared.heap k).barrier = false) :
    MayTimeOut c i (max c.shared.now (waitForDeadline c.shared.now t)) := by
  obtain ⟨owed, hi⟩ := hc
  have hF : Facing c.shared i k t c := ⟨hI, hres, hb, ⟨rfl, rfl, rfl⟩, _, hi, rfl, rfl, hk, rfl⟩
  obtain ⟨es, c', th, hex, hi', hbl⟩ := Program.exists_steps (P := group) (Blocked c.shared t) (fun s th => th.rank s)
    (fun c' th hF' hi' => Or.inr (facing_step ht hF' hi')) _ c _ (Nat.lt_succ_self _) hF hi
  obtain ⟨⟨hnow, hadd, hexe⟩, w, k', stack, rfl, hph, hb'⟩ := hbl
  -- the clock goes on to the deadline
  let n := (waitForDeadline c.shared.now t - c.shared.now).toNat
  have hn : c'.shared.now + n = max c.shared.now (waitForDeadline c.shared.now t) := by omega
  have htick : group.next c' (.call (.tick n)) = some ⟨{ c'.shared with now := c'.shared.now + n }, c'.threads ++ []⟩ := rfl
  have hout : group.act { c'.shared with now := c'.shared.now + n } (.wait w) .timeout =
      some ({ c'.shared with now := c'.shared.now + n }, .wait { w with phase := .returned false }, []) := by
    have hle : waitForDeadline c.shared.now t ≤ c'.shared.now + n := by omega
    simp [group, act, Wait.act, hph, hb', hle]
  have hi'' := Family.get_append hi' []
  refine ⟨_, _, _, ((Program.run_exec hex).snoc htick).snoc (Program.act_next hi'' hout), Family.get_step hi'' _ _, rfl,
    ?_, hn⟩
  obtain ⟨p, hp, hpe⟩ := hu
  exact ⟨p, hadd ▸ hp, hexe ▸ hpe⟩

/-- Others call `wait` and `async` first: their operation is counted on the consumable that is then found. -/
theorem exists_counted (c : Config Shared Thread) : ∃ tr, ∃ c' : Config Shared Thread, group.Run c tr c' ∧
    SameWork c.shared c'.shared ∧ (∀ (i : Nat) (th : Thread), c.threads[i]? = some th → c'.threads[i]? = some th) ∧
    (c'.shared.heap c'.shared.consumable).resources ≠ 0 ∧ (c'.shared.heap c'.shared.consumable).barrier = false := by
  have h0 : group.Run c [(c, .call (.wait 0))] ⟨c.shared, c.threads ++ [.wait ⟨none, 0, c.shared.added, .load⟩]⟩ :=
    .snoc .nil rfl
  obtain ⟨_, h1⟩ := h0.last_step (e := .step) rfl
  have hswap : group.act c.shared (.wait ⟨none, 0, c.shared.added, .swap c.shared.consumable⟩) .step =
      some (c.shared.swap c.shared.consumable, .wait ⟨none, 0, c.shared.added, .descend c.shared.consumable []⟩, []) := by
    simp [group, act, Wait.act]
  obtain ⟨_, h2⟩ := h1.last_step hswap
  have h3 := h2.snoc (P := group) (l := .call .async) rfl
  obtain ⟨_, h4⟩ := h3.last_step (e := .step) rfl
  obtain ⟨tr, h5⟩ := h4.last_step (e := .step) rfl
  refine ⟨tr, _, h5, ⟨rfl, rfl, rfl⟩, fun i th hi => Family.get_append (Family.get_append hi _) _, ?_, ?_⟩
  · simp [Shared.modify, Shared.swap, Consumable.addResource]
  · simp [Shared.modify, Shared.swap, Consumable.addResource]

theorem mayTimeOut {now : Nat} {tr : List (Config Shared Thread × Label Choice)} {c : Config Shared Thread}
    (h : group.Run (initial now) tr c) (hu : Unfinished c.shared) {i : Nat} {t : Int} (ht : t ≠ waitForever)
    (hc : Called c i t) (n : Nat) : MayTimeOut c i (max (c.shared.now + n) (waitForDeadline (c.shared.now + n) t)) := by
  have htick : group.Run c [(c, .call (.tick n))] ⟨{ c.shared with now := c.shared.now + n }, c.threads ++ []⟩ :=
    .snoc .nil rfl
  obtain ⟨tr', c', h', ⟨hnow, hadd, hexe⟩, hkeep, hres, hb⟩ := exists_counted
    ⟨{ c.shared with now := c.shared.now + n }, c.threads ++ []⟩
  have h'' := htick.append h'
  have hu' : Unfinished c'.shared := by
    unfold Unfinished
    rwa [hadd, hexe]
  obtain ⟨owed, hi⟩ := hc
  obtain ⟨tr'', c'', w, hrun, hw⟩ := mayTimeOut_of_counted (run_inv (h.append h'')) hu' ht
    ⟨owed, hkeep i _ (Family.get_append hi _)⟩ (.refl _) hres hb
  rw [hnow] at hw
  exact ⟨_, c'', w, h''.append hrun, hw⟩

/-! ## The agreement -/

/-- The two backends agree on the time-out `t` of a wait that has been called in `c`. -/
structure Agrees (L : Libdispatch) (c : Config Shared Thread) (i : Nat) (t : Int) : Prop where
  may : (∃ τ, MayTimeOut c i τ) ↔ ∃ τ, L.MayTimeOut c.shared.now t τ
  forever : t = waitForever → (∀ τ, ¬ MayTimeOut c i τ) ∧ ∀ τ, ¬ L.MayTimeOut c.shared.now t τ
  elapsed : 0 ≤ t → ∀ τ, MayTimeOut c i τ ∨ L.MayTimeOut c.shared.now t τ → c.shared.now + t * 1000000 ≤ τ

/-- The time-out is not -1, and it stays in the range of the clock, a second time too. -/
structure Fits (L : Libdispatch) (now t : Int) : Prop where
  not_forever : t ≠ waitForever
  horizon : 0 < toNanoseconds t → now + toNanoseconds t < L.horizon
  twice : 0 ≤ t → now + 2 * (t * 1000000) ≤ 2 ^ 63

variable {L : Libdispatch} {now : Nat} {tr : List (Config Shared Thread × Label Choice)} {c : Config Shared Thread}
  {i : Nat} {t : Int}

theorem elapsed_of_fits (h0 : 0 ≤ c.shared.now) (hF : Fits L c.shared.now t) (ht : 0 ≤ t) (hc : Called c i t) {τ : Int}
    (hτ : MayTimeOut c i τ) : c.shared.now + t * 1000000 ≤ τ := by
  have htwice := hF.twice ht
  have hN : toNanoseconds t = t * 1000000 := toInt64_eq (by omega) (by omega)
  have hd : t ≠ waitForever → ∀ n m, c.shared.now ≤ n → n ≤ m → waitForDeadline n t ≤ m →
      c.shared.now + t * 1000000 ≤ m := by
    intro _ n m hn hm hle
    unfold waitForDeadline at hle
    rw [hN] at hle
    by_cases hfit : n + t * 1000000 < 2 ^ 63
    · rw [toInt64_eq (by omega) hfit] at hle
      omega
    · -- so late that it has elapsed
      omega
  obtain ⟨tr, c', w, hr, hi, hp, -, rfl⟩ := hτ
  obtain ⟨w', hi', hw'⟩ := run_passes (fun m => c.shared.now + t * 1000000 ≤ m) (fun m m' hm h => by omega) hd hc hr
  cases hi.symm.trans hi'
  rw [hp] at hw'
  exact hw'

theorem agrees_of_fits (hL : L.Documented) (h : group.Run (initial now) tr c) (hu : Unfinished c.shared)
    (hc : Called c i t) (hF : Fits L c.shared.now t) : Agrees L c i t := by
  have h0 := (run_inv h).now_nonneg
  have hmax : t ≠ millisecondsMax := by
    rintro rfl
    have := hF.twice (by decide)
    simp only [millisecondsMax] at this
    omega
  refine ⟨⟨fun _ => (Libdispatch.mayTimeOut_iff hL).mpr ⟨hmax, hF.horizon⟩,
    fun _ => ⟨_, mayTimeOut h hu hF.not_forever hc 0⟩⟩,
    fun ht => absurd ht hF.not_forever, fun ht τ hτ => ?_⟩
  have htwice := hF.twice ht
  rcases hτ with hτ | hτ
  · exact elapsed_of_fits h0 hF ht hc hτ
  · have hN : toNanoseconds t = t * 1000000 := toInt64_eq (by omega) (by omega)
    have hh := hF.horizon
    rw [hN] at hh
    exact Libdispatch.elapsed_le hL ht (by omega) (fun hne => hh (by omega)) hτ

/-- **Time-outs.** For a wait that has been called on a group with operations outstanding, the two backends agree on
what its time-out means exactly if it is not -1 and fits the clock. -/
theorem agrees_iff (hL : L.Documented) (h : group.Run (initial now) tr c) (hu : Unfinished c.shared) (hc : Called c i t)
    (hnow : c.shared.now < 2 ^ 63) : Agrees L c i t ↔ Fits L c.shared.now t := by
  refine ⟨fun hA => ?_, agrees_of_fits hL h hu hc⟩
  have hne : t ≠ waitForever := by
    rintro rfl
    have hL' : ∃ τ, L.MayTimeOut c.shared.now waitForever τ :=
      (Libdispatch.mayTimeOut_iff hL).mpr ⟨by decide, fun h => absurd h (by decide)⟩
    obtain ⟨τ, hτ⟩ := hL'
    exact (hA.forever rfl).2 τ hτ
  have hlate := mayTimeOut h hu hne hc
  refine ⟨hne, ((Libdispatch.mayTimeOut_iff hL).mp (hA.may.mp ⟨_, hlate 0⟩)).2, fun ht => ?_⟩
  by_contra htwice
  by_cases hfit : c.shared.now + t * 1000000 < 2 ^ 63
  · -- the last nanosecond before the time-out
    have h0 := (run_inv h).now_nonneg
    have hn : ((t * 1000000 - 1).toNat : Int) = t * 1000000 - 1 := by omega
    have hτ := hA.elapsed ht _ (Or.inl (hlate (t * 1000000 - 1).toNat))
    have hN : toNanoseconds t = t * 1000000 := toInt64_eq (by omega) (by omega)
    unfold waitForDeadline at hτ
    rw [hn, hN] at hτ
    have := toInt64_neg (x := c.shared.now + (t * 1000000 - 1) + t * 1000000) (by omega) (by omega)
    omega
  · have hτ := hA.elapsed ht _ (Or.inl (hlate 0))
    have : waitForDeadline (c.shared.now + (0 : Nat)) t < 2 ^ 63 := toInt64_lt _
    omega

/-! ## A libdispatch -/

/-- Times up to `2 ^ 63`, and a wait that returns as soon as it may. -/
def prompt : Libdispatch where
  horizon := 2 ^ 63
  dispatchTime now d := if 0 < d ∧ 2 ^ 63 ≤ now + d then none else some (now + d)
  groupWait now
    | some x, some f => some (if f ≤ max now x then (true, max now f) else (false, max now x))
    | some x, none => some (false, max now x)
    | none, some f => some (true, max now f)
    | none, none => none

theorem prompt_documented : prompt.Documented where
  horizon_le := Int.le_refl _
  past now d hd := ⟨now + d, if_neg (by omega), by omega⟩
  future now d hd h := if_neg fun hn => by simp only [prompt] at h; omega
  overflow now d hd h := if_pos ⟨hd, h⟩
  forever now finished τ := by cases finished <;> simp [prompt]
  elapsed now x finished τ h := by
    cases finished with
    | none =>
      simp only [prompt, Option.some.injEq, Prod.mk.injEq] at h
      omega
    | some f =>
      simp only [prompt, Option.some.injEq] at h
      split at h
      · cases h
      · simp only [Prod.mk.injEq] at h
        omega
  gives_up now x := ⟨max now x, rfl⟩

/-- An operation that nobody has begun, and a wait. -/
def waitForOne (t : Int) : List (Label Choice) :=
  Label.call Choice.async :: List.replicate 3 (.act 0 .step) ++ [Label.call (Choice.wait t)]

theorem agrees_iff_five : Agrees prompt (group.last (initial 0) (waitForOne 5)) 1 5 ↔
    Fits prompt (group.last (initial 0) (waitForOne 5)).shared.now 5 :=
  agrees_iff prompt_documented (Program.run_last (by decide)) ⟨(0, 0), by decide, by decide⟩ ⟨[(0, 0)], by decide⟩ (by decide)

/-- The default of the frontend. -/
theorem forever_polls : ¬ ∀ L : Libdispatch, L.Documented → ∀ (now : Nat) (tr : List (Config Shared Thread × Label Choice))
    (c : Config Shared Thread) (i : Nat) (t : Int), group.Run (initial now) tr c → Unfinished c.shared → Called c i t →
      c.shared.now < 2 ^ 63 → Agrees L c i t := by
  intro hall
  have hA := hall prompt prompt_documented 0 _ (group.last (initial 0) (waitForOne waitForever)) 1 waitForever
    (Program.run_last (by decide)) ⟨(0, 0), by decide, by decide⟩ ⟨[(0, 0)], by decide⟩ (by decide)
  exact (hA.forever rfl).2 0 ⟨none, by decide, nofun⟩

end Xdispatch.Group
