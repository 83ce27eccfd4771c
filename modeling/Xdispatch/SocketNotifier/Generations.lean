import Xdispatch.Dispatch.Steps
import Xdispatch.SocketNotifier.Model

/-!
# Generations of workers

Each `resume` that takes the counter to one starts a worker for the cookie of
then, and each step that ends a resumption, or cancels, moves on to a cookie that
no worker has. So at most one worker ever has the current cookie. A worker with an
older one leaves at its next comparison, and between two of them it dispatches
once at most.
-/

namespace Xdispatch.SocketNotifier

open Dispatch (weigh next_moves Linked)

/-- The workers with the current cookie that have not left their loop. -/
def carriers (c : Config Shared Thread) : Nat :=
  weigh (fun w => if w.cookie = c.shared.members.cookie ∧ w.phase ≠ .left ∧ w.phase ≠ .invalid then 1 else 0) c

/-- The workers with the current cookie that have left because of an invalid socket. -/
def invalids (c : Config Shared Thread) : Nat :=
  weigh (fun w => if w.cookie = c.shared.members.cookie ∧ w.phase = .invalid then 1 else 0) c

/-- The workers started so far. -/
def workers (c : Config Shared Thread) : Nat := weigh (fun _ => 1) c

/-- The steps of its own that a worker with an old cookie has left. -/
def WorkerPhase.remaining : WorkerPhase → Nat
  | .selecting | .queueing _ => 2
  | .starting | .selected _ | .waiting _ => 1
  | .left | .invalid => 0

/-! ## What a worker can do -/

section
variable {w w' : Worker} {inv : Option Dispatch.Invocation} {s : Members} {d : Dispatch.State} {k : Outcome}

/-- It compares its cookie and goes on with `select` or leaves, has the result of
`select`, finds the socket invalid or ready, or dispatches. -/
inductive Turns (s : Members) (d : Dispatch.State) (w : Worker) : Worker → Option Dispatch.Invocation → Prop
  | compare : w.phase = .starting ∨ (∃ res, w.phase = .selected res) ∨ (∃ b, w.phase = .waiting b) →
      Turns s d w (w.loop s) none
  | select (res : Int) : w.phase = .selecting → Turns s d w { w with phase := .selected res } none
  | invalid (res : Int) : w.phase = .selected res → w.cookie = s.cookie →
      Turns s d w { w with phase := .invalid } none
  | ready (res : Int) (inv : Dispatch.Invocation) : w.phase = .selected res → w.cookie = s.cookie →
      Turns s d w { w with phase := .queueing inv } none
  | dispatch (inv : Dispatch.Invocation) : w.phase = .queueing inv → Turns s d w
      { w with phase := .waiting d.barriers.length, late := w.late + if w.cookie = s.cookie then 0 else 1 } (some inv)

theorem worker_turns (h : worker s d w k = some (w', inv)) : Turns s d w w' inv := by
  unfold worker at h
  split at h
  · split at h
    next hp =>
      cases h
      exact .select _ hp
    · cases h
  · split at h
    next hp =>
      cases h
      exact .compare (Or.inl hp)
    next res hp =>
      have hcmp : Turns s d w (w.loop s) none := .compare (Or.inr (Or.inl ⟨res, hp⟩))
      split at h
      next hne =>
        cases h
        have he : w.loop s = { w with phase := .left } := by simp [Worker.loop, hne]
        rwa [he] at hcmp
      next heq =>
        have heq := not_not.mp heq
        split at h
        · cases h
          exact .invalid res hp heq
        split at h <;> cases h
        · exact .ready res _ hp heq
        · exact hcmp
    next invocation hp =>
      cases h
      exact .dispatch invocation hp
    next b hp =>
      split at h <;> cases h
      exact .compare (Or.inr (Or.inr ⟨b, hp⟩))
    all_goals cases h

theorem Turns.cookie (h : Turns s d w w' inv) : w'.cookie = w.cookie := by
  cases h <;> rfl

theorem Turns.remaining (h : Turns s d w w' inv) (hw : w.cookie ≠ s.cookie) :
    w'.phase.remaining < w.phase.remaining := by
  cases h with
  | compare hp =>
    rcases hp with hp | ⟨res, hp⟩ | ⟨b, hp⟩ <;> simp [Worker.loop, hw, hp, WorkerPhase.remaining]
  | select res hp => simp [hp, WorkerPhase.remaining]
  | invalid res hp he | ready res _ hp he => exact absurd he hw
  | dispatch _ hp => simp [hp, WorkerPhase.remaining]

/-! ## The invariant -/

/-- A worker when the cookie is `cookie` and `n` operations were queued so far. After a
dispatch with an old cookie it waits for that, and leaves. -/
structure Worker.Fits (cookie : Int) (n : Nat) (w : Worker) : Prop where
  le : w.cookie ≤ cookie
  current : w.cookie = cookie → w.late = 0 ∧ w.phase ≠ .left
  late : w.late = 0 ∨ w.late = 1 ∧ ((∃ b, w.phase = .waiting b) ∨ w.phase = .left)
  barrier : ∀ b, w.phase = .waiting b → b < n

theorem Worker.Fits.mono {cookie cookie' : Int} {n n' : Nat} (h : w.Fits cookie n) (hc : cookie ≤ cookie')
    (hn : n ≤ n') : w.Fits cookie' n' := by
  have := h.le
  exact ⟨by omega, fun he => h.current (by omega), h.late, fun b hb => (h.barrier b hb).trans_le hn⟩

theorem Worker.Fits.early {cookie : Int} {n : Nat} (h : w.Fits cookie n) (hw : ∀ b, w.phase ≠ .waiting b)
    (hl : w.phase ≠ .left) : w.late = 0 :=
  h.late.resolve_right fun ⟨_, hp⟩ => hp.elim (fun ⟨b, hb⟩ => hw b hb) hl

theorem Turns.fits (h : Turns s d w w' inv) (hf : w.Fits s.cookie d.barriers.length) :
    w'.Fits s.cookie (d.async inv).1.barriers.length := by
  have hle := h.cookie.trans_le hf.le
  cases h with
  | compare hp =>
    by_cases he : w.cookie = s.cookie
    · obtain ⟨h0, -⟩ := hf.current he
      exact ⟨hle, fun _ => ⟨h0, by simp [Worker.loop, he]⟩, Or.inl h0, by simp [Worker.loop, he]⟩
    · refine ⟨hle, fun h => absurd h he, ?_, by simp [Worker.loop, he]⟩
      exact hf.late.imp_right fun h => ⟨h.1, Or.inr (by simp [Worker.loop, he])⟩
  | select res hp =>
    have h0 := hf.early (by simp [hp]) (by simp [hp])
    exact ⟨hle, fun _ => ⟨h0, by simp⟩, Or.inl h0, by simp⟩
  | invalid res hp he | ready res _ hp he =>
    have h0 := hf.early (by simp [hp]) (by simp [hp])
    exact ⟨hle, fun _ => ⟨h0, by simp⟩, Or.inl h0, by simp⟩
  | dispatch inv hp =>
    have h0 := hf.early (by simp [hp]) (by simp [hp])
    refine ⟨hle, fun he => ⟨by simp [h0, show w.cookie = s.cookie from he], by simp⟩, ?_, ?_⟩
    · by_cases he : w.cookie = s.cookie
      · exact Or.inl (by simp [h0, he])
      · exact Or.inr ⟨by simp [h0, he], Or.inl ⟨_, rfl⟩⟩
    · intro b hb
      cases hb
      simp [Dispatch.State.async]

def currents (cookie : Int) (c : Config Shared Thread) : Nat :=
  weigh (fun w => if w.cookie = cookie then 1 else 0) c

structure Inv (c : Config Shared Thread) : Prop where
  one : currents c.shared.members.cookie c = if 0 < c.shared.members.counter then 1 else 0
  fits : ∀ w, .worker w ∈ c.threads → w.Fits c.shared.members.cookie c.shared.dispatch.barriers.length

variable {c c' : Config Shared Thread} {l : Label Choice}

theorem initial_inv (queue : Nat) : Inv (initial queue) := ⟨rfl, by simp [initial]⟩

theorem Inv.fresh (hI : Inv c) {cookie : Int} (h : c.shared.members.cookie < cookie) : currents cookie c = 0 :=
  Dispatch.weigh_eq_zero.mpr fun w hw => by
    have := (hI.fits w hw).le
    exact if_neg (by omega)

/-- What a method does to counter and cookie, with the workers it starts. -/
theorem method_cases (s : Members) (m : Method) :
    0 ≤ s.counter ∧ (method s m).1.counter = s.counter + 1 ∧ (method s m).1.cookie = s.cookie ∧
        (method s m).2 = (if s.counter = 0 then [⟨s.cookie, 0, .starting⟩] else []) ∨
      (method s m).2 = [] ∧
        ((method s m).1.counter = s.counter ∧ (method s m).1.cookie = s.cookie ∨
          0 < s.counter ∧ (method s m).1.counter = s.counter - 1 ∧
            (method s m).1.cookie = if s.counter = 1 then s.cookie + 1 else s.cookie) := by
  cases m with
  | resume =>
    by_cases h : s.counter < 0
    · simp [method, resume, h]
    · refine Or.inl ⟨by omega, by simp [method, resume, h], by simp [method, resume, h], ?_⟩
      by_cases h0 : s.counter = 0 <;> simp [method, resume, h, h0]
  | suspend =>
    by_cases h : 0 < s.counter
    · refine Or.inr ⟨rfl, Or.inr ⟨h, by simp [method, suspend, h], ?_⟩⟩
      by_cases h1 : s.counter = 1
      · simp [method, suspend, h1]
      · simp [method, suspend, h, h1, show s.counter - 1 ≠ 0 by omega]
    · simp [method, suspend, h]
  | handler | targetQueue => exact Or.inr ⟨rfl, Or.inl ⟨rfl, rfl⟩⟩

theorem method_cookie (s : Members) (m : Method) : s.cookie ≤ (method s m).1.cookie := by
  rcases method_cases s m with ⟨-, -, he, -⟩ | ⟨-, ⟨-, he⟩ | ⟨-, -, he⟩⟩
  · exact he.ge
  · exact he.ge
  · split at he <;> omega

theorem next_grows (h : socketNotifier.next c l = some c') : c.shared.members.cookie ≤ c'.shared.members.cookie ∧
    c.shared.dispatch.barriers.length ≤ c'.shared.dispatch.barriers.length := by
  cases next_moves h with
  | method m _ hc => exact hc ▸ ⟨method_cookie _ m, le_rfl⟩
  | cancel _ hc =>
    rw [hc]
    refine ⟨?_, le_rfl⟩
    change _ ≤ c.shared.members.cookie + 1
    omega
  | worker w w' k inv _ _ _ hc =>
    rw [hc]
    cases inv <;> simp [Dispatch.State.async]
  | step _ hm hb => exact ⟨hm ▸ le_rfl, hb.ge⟩

theorem next_fits (hI : Inv c) (h : socketNotifier.next c l = some c') :
    ∀ w, .worker w ∈ c'.threads → w.Fits c'.shared.members.cookie c'.shared.dispatch.barriers.length := by
  obtain ⟨hcookie, hlen⟩ := next_grows h
  apply Dispatch.next_forall (P := Worker.Fits c'.shared.members.cookie c'.shared.dispatch.barriers.length) h
  · intro w hw
    exact (hI.fits w hw).mono hcookie hlen
  · intro m _ w hw
    rcases method_cases c.shared.members m with ⟨-, -, -, he⟩ | ⟨he, -⟩
    · change w ∈ (method c.shared.members m).2 at hw
      rw [he] at hw
      split at hw
      · cases List.mem_singleton.mp hw
        have hw : (Worker.mk c.shared.members.cookie 0 .starting).Fits c.shared.members.cookie
            c.shared.dispatch.barriers.length := ⟨le_rfl, fun _ => ⟨rfl, by simp⟩, Or.inl rfl, by simp⟩
        exact hw.mono hcookie hlen
      · cases hw
    · change w ∈ (method c.shared.members m).2 at hw
      rw [he] at hw
      cases hw
  · intro w w' k inv hm hw hc
    rw [hc]
    exact (worker_turns hw).fits (hI.fits w hm)

theorem next_one (hI : Inv c) (h : socketNotifier.next c l = some c') :
    currents c'.shared.members.cookie c' = if 0 < c'.shared.members.counter then 1 else 0 := by
  have hone := hI.one
  cases next_moves h with
  | method m _ hc hf =>
    have hcur : ∀ cookie, currents cookie c' = currents cookie c +
        Family.total (fun w => if w.cookie = cookie then 1 else 0) (method c.shared.members m).2 := fun _ => hf _
    have hmem : c'.shared.members = (method c.shared.members m).1 := congrArg _ hc
    rw [hmem, hcur]
    rcases method_cases c.shared.members m with ⟨h0, hn, hk, hw⟩ | ⟨hw, ⟨hn, hk⟩ | ⟨hpos, hn, hk⟩⟩
    · rw [hk, hw, hone, hn]
      by_cases hz : c.shared.members.counter = 0
      · simp [hz]
      · simp [hz, show 0 < c.shared.members.counter by omega, show 0 < c.shared.members.counter + 1 by omega]
    · rw [hk, hw, hone, hn]
      rfl
    · rw [hk, hw, hn]
      by_cases h1 : c.shared.members.counter = 1
      · simp [h1, hI.fresh (Int.lt_succ _)]
      · rw [if_neg h1, hone, if_pos hpos, if_pos (by omega)]
        rfl
  | cancel _ hc hf =>
    have hmem : c'.shared.members = cancel c.shared.members := congrArg _ hc
    rw [hmem, currents, hf]
    exact hI.fresh (Int.lt_succ _)
  | worker w w' k inv _ _ hw hc hf =>
    have hcur := hf fun w => if w.cookie = c.shared.members.cookie then 1 else 0
    simp only [(worker_turns hw).cookie] at hcur
    rw [hc]
    exact (Nat.add_right_cancel hcur).trans hone
  | step _ hm _ hf =>
    rw [hm, currents, hf]
    exact hone

theorem run_inv {queue : Nat} {tr : List (Config Shared Thread × Label Choice)}
    (h : socketNotifier.Run (initial queue) tr c) : Inv c :=
  h.invariant (C := fun _ _ => True) (initial_inv queue) (fun _ _ _ hI _ hn => ⟨next_one hI hn, next_fits hI hn⟩)
    Program.along_true

/-! ## The current worker -/

structure Generation (c : Config Shared Thread) : Prop where
  resumed : 0 < c.shared.members.counter → carriers c + invalids c = 1
  stopped : c.shared.members.counter ≤ 0 → carriers c + invalids c = 0
  late : ∀ w, .worker w ∈ c.threads → w.late ≤ 1

theorem Inv.carriers_add (hI : Inv c) : carriers c + invalids c = currents c.shared.members.cookie c := by
  rw [carriers, invalids, currents, ← Dispatch.weigh_add]
  apply Dispatch.weigh_congr
  intro w hw
  by_cases he : w.cookie = c.shared.members.cookie
  · have := ((hI.fits w hw).current he).2
    by_cases hi : w.phase = .invalid <;> simp [he, hi, this]
  · simp [he]

theorem Inv.generation (hI : Inv c) : Generation c := by
  have hadd := hI.carriers_add
  rw [hI.one] at hadd
  refine ⟨fun h => by rw [hadd, if_pos h], fun h => by rw [hadd, if_neg (by omega)], fun w hw => ?_⟩
  rcases (hI.fits w hw).late with h | ⟨h, -⟩ <;> omega

/-! ## After `cancel` -/

theorem next_cancel (h : socketNotifier.next c l = some c') (hl : l.choice = .cancel) :
    c'.shared.members.counter < 0 ∧ workers c' = workers c := by
  cases next_moves h with
  | cancel _ hc hf =>
    refine ⟨?_, hf _⟩
    rw [hc]
    exact Int.negSucc_lt_zero 0
  | method m hl' | worker _ _ _ _ hl' | step hl' => simp [hl] at hl'

theorem next_cancelled (h : socketNotifier.next c l = some c') (hc : c.shared.members.counter < 0) :
    c'.shared.members.counter < 0 ∧ workers c' = workers c := by
  cases next_moves h with
  | method m _ hc' hf =>
    have hmem : c'.shared.members = (method c.shared.members m).1 := congrArg _ hc'
    have hw : workers c' = workers c + Family.total (fun _ => 1) (method c.shared.members m).2 := hf _
    rw [hmem, hw]
    rcases method_cases c.shared.members m with ⟨h0, -⟩ | ⟨hnew, ⟨hn, -⟩ | ⟨hpos, -⟩⟩
    · omega
    · rw [hnew, hn]
      exact ⟨hc, rfl⟩
    · omega
  | cancel hl => exact next_cancel h hl
  | worker w w' k inv _ _ _ hc' hf =>
    refine ⟨?_, Nat.add_right_cancel (hf fun _ => 1)⟩
    rw [hc']
    exact hc
  | step _ hm _ hf => exact ⟨hm ▸ hc, hf _⟩

theorem run_cancelled {c₀ : Config Shared Thread} {tr : List (Config Shared Thread × Label Choice)}
    (h : socketNotifier.Run c₀ tr c) :
    ∀ p ∈ tr, p.2.choice = .cancel → c.shared.members.counter < 0 ∧ workers c = workers p.1 := by
  induction h with
  | nil => simp
  | snoc _ hn ih =>
    intro p hp hl
    rcases List.mem_append.mp hp with hp | hp
    · obtain ⟨hc, hw⟩ := ih p hp hl
      obtain ⟨hc', hw'⟩ := next_cancelled hn hc
      exact ⟨hc', hw'.trans hw⟩
    · cases List.mem_singleton.mp hp
      exact next_cancel hn hl

/-! ## Workers with an old cookie -/

/-- How many steps thread `i` takes in a run. -/
def stepsOf (i : Nat) (tr : List (Config Shared Thread × Label Choice)) : Nat :=
  tr.countP fun p => match p.2 with
    | .act j _ => j = i
    | .call _ => false

/-- The worker has ended, can take a step, or waits for an operation that has not completed its barrier yet. -/
def Proceeds (c : Config Shared Thread) (i : Nat) (w : Worker) : Prop :=
  w.phase.remaining = 0 ∨ (∃ k, (socketNotifier.next c (.act i (.worker k))).isSome) ∨
    ∃ o, w.phase = .waiting o.barrier ∧ .operation o ∈ c.threads ∧ o.pending = true

theorem next_old {i : Nat} (h : socketNotifier.next c l = some c') (ht : c.threads[i]? = some (.worker w))
    (hw : w.cookie < c.shared.members.cookie) : ∃ w', c'.threads[i]? = some (.worker w') ∧
      w'.cookie < c'.shared.members.cookie ∧ stepsOf i [(c, l)] + w'.phase.remaining ≤ w.phase.remaining := by
  have hgrow := (next_grows h).1
  have hlt := (List.getElem?_eq_some_iff.mp ht).1
  cases l with
  | call e =>
    obtain ⟨s, new, -, rfl⟩ := Program.next_call h
    exact ⟨w, (List.getElem?_append_left hlt).trans ht, hw.trans_le hgrow, (Nat.zero_add _).le⟩
  | act j e =>
    obtain ⟨t, s, t', new, hj, ha, rfl⟩ := Program.next_act h
    by_cases hij : j = i
    · subst hij
      cases Option.some.inj (hj.symm.trans ht)
      have hstep := Dispatch.act_step ha
      cases hstep with
      | @worker _ w' k inv hwk =>
        have hturn := worker_turns hwk
        have hrem := hturn.remaining hw.ne
        refine ⟨w', Family.get_step ht _ _, hturn.cookie.trans_lt (hw.trans_le hgrow), ?_⟩
        simp only [stepsOf, List.countP_singleton, decide_true, ite_true]
        omega
    · refine ⟨w, ?_, hw.trans_le hgrow, by simp [stepsOf, hij]⟩
      rw [List.getElem?_append_left (by simpa using hlt), List.getElem?_set_ne hij, ht]

theorem run_old {i : Nat} {tr : List (Config Shared Thread × Label Choice)} (h : socketNotifier.Run c tr c')
    (ht : c.threads[i]? = some (.worker w)) (hw : w.cookie < c.shared.members.cookie) :
    ∃ w', c'.threads[i]? = some (.worker w') ∧ w'.cookie < c'.shared.members.cookie ∧
      stepsOf i tr + w'.phase.remaining ≤ w.phase.remaining := by
  induction h with
  | nil => exact ⟨w, ht, hw, (Nat.zero_add _).le⟩
  | snoc _ hn ih =>
    obtain ⟨w₁, ht₁, hw₁, hle₁⟩ := ih
    obtain ⟨w₂, ht₂, hw₂, hle₂⟩ := next_old hn ht₁ hw₁
    refine ⟨w₂, ht₂, hw₂, ?_⟩
    simp only [stepsOf, List.countP_append] at hle₁ hle₂ ⊢
    omega

theorem Inv.proceeds {i : Nat} (hI : Inv c) (hL : Linked c) (ht : c.threads[i]? = some (.worker w)) :
    Proceeds c i w := by
  have step : ∀ k, (worker c.shared.members c.shared.dispatch w k).isSome = true → Proceeds c i w := fun k hk =>
    Or.inr (Or.inl ⟨k, by
      simpa [socketNotifier, Dispatch.Owner.program, Dispatch.Owner.act, owner, Program.next, ht] using hk⟩)
  cases hp : w.phase with
  | starting | queueing => exact step .step (by simp [worker, hp])
  | selecting => exact step (.selected 0) (by simp [worker, hp])
  | selected res =>
    apply step .step
    simp only [worker, hp]
    split
    · rfl
    split
    · rfl
    split <;> rfl
  | waiting b =>
    rcases hL b ((hI.fits w (Family.mem_of_get ht)).barrier b hp) with hc | ⟨o, ho, rfl, hpend⟩
    · exact step .step (by simp [worker, hp, hc])
    · exact Or.inr (Or.inr ⟨o, hp, ho, hpend⟩)
  | left | invalid => exact Or.inl (by simp [hp, WorkerPhase.remaining])

/-- **Generations.** In every state of a run a resumed notifier has one worker with the
current cookie, unless that has left because of an invalid socket, and any other notifier has
none. No worker is started any more after a `cancel`. A worker with an old cookie dispatches
once more at most, and takes two more steps at most, to its end; only its own operation
can hold it up. -/
theorem generations {queue : Nat} {tr : List (Config Shared Thread × Label Choice)}
    (h : socketNotifier.Run (initial queue) tr c) : Generation c ∧
      (∀ p ∈ tr, p.2.choice = .cancel → c.shared.members.counter < 0 ∧ workers c = workers p.1) ∧
      ∀ i w, c.threads[i]? = some (.worker w) → w.cookie ≠ c.shared.members.cookie →
        ∀ tr' d, socketNotifier.Run c tr' d → ∃ w', d.threads[i]? = some (.worker w') ∧ w'.late ≤ 1 ∧
          stepsOf i tr' + w'.phase.remaining ≤ 2 ∧ Proceeds d i w' := by
  have hI := run_inv h
  refine ⟨hI.generation, run_cancelled h, fun i w ht hw tr' d hd => ?_⟩
  have hle := (hI.fits w (Family.mem_of_get ht)).le
  obtain ⟨w', ht', -, hrem⟩ := run_old hd ht (lt_of_le_of_ne hle hw)
  have hId := run_inv (h.append hd)
  have hmax : w.phase.remaining ≤ 2 := by cases w.phase <;> simp [WorkerPhase.remaining]
  exact ⟨w', ht', hId.generation.late w' (Family.mem_of_get ht'), hrem.trans hmax,
    hId.proceeds (Dispatch.run_linked (h.append hd)) ht'⟩

end

/-- The worker is in `select` while the notifier is suspended, resumed and cancelled. -/
def resumedTwice : List (Label Choice) :=
  [.call (.method (.handler 0)), .call (.method .resume), .act 0 (.worker .step), .call (.method .suspend),
    .call (.method .resume), .act 1 (.worker .step), .act 0 (.worker (.selected 1)), .act 0 (.worker .step),
    .act 1 (.worker (.selected 1)), .act 1 (.worker .step), .call .cancel, .act 1 (.worker .step)]

theorem generations_twice : Generation (socketNotifier.last (initial 0) resumedTwice) ∧
    (socketNotifier.last (initial 0) resumedTwice).threads[1]? = some (.worker ⟨1, 1, .waiting 0⟩) :=
  ⟨(generations (Program.run_last (by decide))).1, by decide⟩

end Xdispatch.SocketNotifier
