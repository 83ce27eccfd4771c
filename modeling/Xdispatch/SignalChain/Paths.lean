import Xdispatch.SignalChain.Mutexes

/-!
# Emits and paths

An emit owes a handler an invocation for each path from its signal to that of the
handler, and its calls share out what it owes among themselves: the rest of a loop
has the links that are to come, and the call of a link what the other signal owes.
-/

namespace Xdispatch.SignalChain

open Signal (Frame HandlerId Invocation)

variable {ν α : Type}

/-! ## The handlers of a signal -/

section
variable {G : Graph ν} {n : ν}

theorem total_filterMap {τ β : Type} (f : β → Nat) (g : τ → Option β) (l : List τ) :
    Family.total f (l.filterMap g) = Family.total (fun a => (g a).elim 0 f) l := by
  induction l with
  | nil => rfl
  | cons a l ih =>
    rw [List.filterMap_cons, Family.total_cons]
    cases h : g a with
    | none => simpa using ih
    | some b => simp [ih]

theorem total_ite_eq {τ : Type} [DecidableEq τ] (a : τ) (l : List τ) :
    Family.total (fun b => if b = a then 1 else 0) l = l.count a := by
  induction l with
  | nil => rfl
  | cons b l ih =>
    rw [Family.total_cons, List.count_cons, ih, Nat.add_comm]
    simp

theorem map_target (G : Graph ν) (n : ν) : (G.handlers n).map (G.target n) = (G.connections n).map Connection.target := by
  apply List.ext_getElem
  · simp [Graph.handlers]
  · intro i h1 h2
    have hi : i < (G.connections n).length := by simpa using h2
    simp [Graph.handlers, Graph.target, List.getElem?_eq_getElem hi]

theorem nodup_handlers (G : Graph ν) (n : ν) : (G.handlers n).Nodup := by
  have hserial : (G.handlers n).map HandlerId.serial = List.range (G.connections n).length := by
    apply List.ext_getElem
    · simp [Graph.handlers]
    · intro i h1 h2
      simp [Graph.handlers]
  exact List.Nodup.of_map HandlerId.serial (by rw [hserial]; exact List.nodup_range)

end

/-! ## What an emit owes -/

variable [DecidableEq ν]

/-- What the handler `k` of the signal `n` owes to the handler `h` of the signal `d`. -/
noncomputable def share (G : Graph ν) (d : ν) (h : HandlerId) (n : ν) (k : HandlerId) : Nat :=
  match G.target n k with
  | some m => G.links.pathCount m d
  | none => if n = d ∧ k = h then 1 else 0

noncomputable def owes (G : Graph ν) (d : ν) (h : HandlerId) : ν × Frame α → Nat
  | (n, .emitLock _) => G.links.pathCount n d
  | (n, .emitNext rest _) => Family.total (share G d h n) rest
  | (n, .emitBranch k rest _ _) => share G d h n k + Family.total (share G d h n) rest
  | (n, .invoke inv .enter) | (n, .invoke inv .admitted) => share G d h n inv.handler
  | _ => 0

/-- How often the thread has queued an invocation of the handler. -/
def Thread.made (t : Thread ν α) (d : ν) (h : HandlerId) : Nat := t.queued.countP fun q => q.1 = d ∧ q.2.handler = h

section
variable {G : Graph ν} {c c' : Config (ν → Signal.Shared α) (Thread ν α)} {l : Label (Choice ν α)} {d n : ν}
  {h : HandlerId} {args : α} {s : Signal.Shared α} {f : Frame α} {fs : List (Frame α)} {stack : List (ν × Frame α)}
  {queued : List (Invocation α)} {t : Thread ν α}

/-- A path is empty, or goes on with a link. -/
theorem pathCount_handlers [Finite ν] (hG : G.links.Acyclic) (hh : h ∈ G.handlers d) (hs : h.mode = .singleUpdates)
    (n : ν) : G.links.pathCount n d = Family.total (share G d h n) (G.handlers n) := by
  have hshare : ∀ k ∈ G.handlers n, share G d h n k =
      (if n = d ∧ k = h then 1 else 0) + (G.target n k).elim 0 fun m => G.links.pathCount m d := by
    intro k hk
    unfold share
    cases htarget : G.target n k with
    | none => rfl
    | some m =>
      have hne : ¬(n = d ∧ k = h) := by
        rintro ⟨rfl, rfl⟩
        rw [target_eq_none hh (by simp [hs])] at htarget
        cases htarget
      simp [hne]
  have hown : Family.total (fun k => if n = d ∧ k = h then 1 else 0) (G.handlers n) = if n = d then 1 else 0 := by
    by_cases hn : n = d
    · subst hn
      simp only [true_and, if_true, total_ite_eq, List.count_eq_one_of_mem (nodup_handlers G n) hh]
    · simp [hn, Family.total]
  have hlinks : Family.total (fun k => (G.target n k).elim 0 fun m => G.links.pathCount m d) (G.handlers n) =
      Family.total (fun m => G.links.pathCount m d) (G.links.targets n) := by
    change _ = Family.total _ ((G.connections n).filterMap Connection.target)
    rw [total_filterMap]
    have hmap := congrArg (Family.total fun o : Option ν => o.elim 0 fun m => G.links.pathCount m d) (map_target G n)
    simpa only [Family.total, List.map_map, Function.comp_def] using hmap
  rw [Multigraph.pathCount_eq hG, Family.total_congr hshare, Family.total_add, hown, hlinks]

theorem total_owes_map (fs : List (Frame α)) :
    Family.total (owes G d h) (fs.map (n, ·)) = Family.total (fun f => owes G d h (n, f)) fs := by
  unfold Family.total
  rw [List.map_map]
  rfl

/-- What a step queues is no longer owed, and nothing else comes or goes. -/
theorem Advances.owes_eq [Finite ν] (hG : G.links.Acyclic) (hh : h ∈ G.handlers d) (hs : h.mode = .singleUpdates)
    (ha : Advances G args n s f stack fs queued) (hhandlers : s.handlers = G.handlers n)
    (hused : ∀ k ∈ f.handlers, k ∈ G.handlers n)
    (hadmits : ∀ inv, f = .invoke inv .enter → s.admits inv.handler = true) :
    Family.total (owes G d h) (G.calls n f ++ fs.map (n, ·) ++ stack) +
      (queued.map (n, ·)).countP (fun q => q.1 = d ∧ q.2.handler = h) =
    Family.total (owes G d h) ((n, f) :: stack) := by
  rw [Family.total_append, Family.total_append, total_owes_map, Family.total_cons]
  cases ha with
  | emitLock hb =>
    rw [hhandlers]
    simp [Graph.calls, owes, pathCount_handlers hG hh hs n]
  | emitEnd hb => simp [Graph.calls, owes]
  | increment hb => simp [Graph.calls, owes]
  | link hm hb => simp [Graph.calls, owes, Signal.Shared.invocation]
  | @queue k rest p stack hm hb =>
    have hnone := target_eq_none (hused k (List.mem_cons_self ..)) hm
    simp only [Graph.calls, owes, share, hnone, Signal.Shared.invocation]
    by_cases hk : n = d ∧ k = h
    · simp [hk]
      omega
    · simp [hk]
  | @leaveOut k rest p stack hm hb =>
    have hnone := target_eq_none (hused k (List.mem_cons_self ..)) (by simp [hm])
    have hne : k ≠ h := by
      rintro rfl
      cases hm.symm.trans hs
    simp [Graph.calls, owes, share, hnone, hne]
  | enter hm hargs hb => simp [Graph.calls, owes]
  | refuse had hm hargs hb =>
    rw [hadmits _ rfl] at had
    cases had
  | @execute inv rest stack hm hargs hb =>
    simp only [Graph.calls, owes, share]
    cases htarget : G.target n inv.handler with
    | none =>
      have hne : inv.handler ≠ h := by
        rintro rfl
        cases hm.symm.trans hs
      simp [owes, hne]
    | some m => simp [owes]
  | leave hp hm hargs hb => rcases hp with rfl | rfl <;> simp [Graph.calls, owes]
  | complete hm hargs hb => simp [Graph.calls, owes]
  | drop hb => simp [Graph.calls, owes]

/-- What an emit has queued, with what it owes, are the paths. -/
def Shares (G : Graph ν) (d : ν) (h : HandlerId) (t : Thread ν α) : Prop :=
  ∀ s args, t.emit = some (s, args) → Family.total (owes G d h) t.stack + t.made d h = G.links.pathCount s d

theorem Inv.shares_step [Finite ν] (hG : G.links.Acyclic) (hh : h ∈ G.handlers d) (hs : h.mode = .singleUpdates)
    (hI : Inv G c) {i : Nat} {s' : Signal.Shared α} {current : HandlerId → Bool} (ht : c.threads[i]? = some t)
    (hst : t.stack = (n, f) :: stack) (ha : f.act (c.shared n) current = some (s', fs)) (hS : Shares G d h t) :
    Shares G d h { t with
      stack := G.calls n f ++ fs.map (n, ·) ++ stack
      queued := t.queued ++ (s'.queued.drop (c.shared n).queued.length).map (n, ·) } := by
  intro s args hemit
  have hemit : t.emit = some (s, args) := hemit
  have hcalls := hI.calls t (Family.mem_of_get ht)
  unfold Calls at hcalls
  simp only [hemit, hst] at hcalls
  have hmem : f ∈ pool c n := mem_pool (Family.mem_of_get ht) (by rw [hst]; exact List.mem_cons_self ..)
  have hadmits : ∀ inv, f = .invoke inv .enter → (c.shared n).admits inv.handler = true := by
    rintro inv rfl
    cases hcalls.1 with
    | invoke hm hargs hb => exact hI.admits (Family.mem_of_get ht) hst hm
  have hadv := (emitting_advances hcalls.1 ha).owes_eq hG hh hs (hI.node n).handlers ((hI.node n).used f hmem) hadmits
  have hold := hS s args hemit
  unfold Thread.made at hold ⊢
  rw [hst] at hold
  dsimp only
  rw [List.countP_append]
  omega

theorem Inv.shares_next [Finite ν] (hG : G.links.Acyclic) (hh : h ∈ G.handlers d) (hs : h.mode = .singleUpdates)
    (hI : Inv G c) (hS : ∀ t ∈ c.threads, Shares G d h t) (hn : (chain G).next c l = some c') :
    ∀ t ∈ c'.threads, Shares G d h t := by
  cases l with
  | call e =>
    obtain ⟨s, new, hc, rfl⟩ := Program.next_call hn
    apply Family.forall_append hS
    intro t ht s₀ args hemit
    rcases call_frames hc with ⟨m, args, rfl, rfl⟩ | ⟨m, k, inv, hk, rfl, rfl⟩
    · rw [List.mem_singleton.mp ht] at hemit ⊢
      cases hemit
      simp [owes, Thread.made]
    · rw [List.mem_singleton.mp ht] at hemit
      cases hemit
  | act i e =>
    obtain ⟨t, s, t', new, ht, ha, rfl⟩ := Program.next_act hn
    obtain ⟨m, f, stack, s₁, fs, rfl, hst, hf, rfl, rfl, rfl⟩ := act_frames ha
    exact Family.forall_step hS (hI.shares_step hG hh hs ht hst hf (hS t (Family.mem_of_get ht))) (by simp)

theorem run_shares [Finite ν] (hG : G.links.Acyclic) (hh : h ∈ G.handlers d) (hs : h.mode = .singleUpdates)
    {tr : List (Config (ν → Signal.Shared α) (Thread ν α) × Label (Choice ν α))}
    (hr : (chain G).Run (initial G) tr c) : ∀ t ∈ c.threads, Shares G d h t :=
  (hr.invariant (C := fun _ _ => True) (I := fun c => Inv G c ∧ ∀ t ∈ c.threads, Shares G d h t)
    ⟨initial_inv G, by simp [initial]⟩
    (fun _ _ _ hI _ hn => ⟨next_inv hI.1 hn, hI.1.shares_next hG hh hs hI.2 hn⟩) Program.along_true).2

/-- On a graph without circles emits do not deadlock, links are not left out, and an emit that has returned has queued
each handler once for each path to its signal. -/
theorem run_paths [Finite ν] (hG : G.links.Acyclic)
    {tr : List (Config (ν → Signal.Shared α) (Thread ν α) × Label (Choice ν α))}
    (hr : (chain G).Run (initial G) tr c) :
    ¬ Deadlocked (waitsFor c) ∧ (∀ p ∈ tr, skips p.1 p.2 = false) ∧
      ∀ t ∈ c.threads, ∀ s args, t.emit = some (s, args) → t.stack = [] →
        (∀ q ∈ t.queued, q.2.args = args) ∧
          ∀ d, ∀ h ∈ G.handlers d, h.mode = .singleUpdates → t.made d h = G.links.pathCount s d := by
  have hI := run_inv hr
  refine ⟨hI.not_deadlocked hG, fun p hp => ?_, fun t ht s args hemit hst => ⟨?_, fun d h hh hs => ?_⟩⟩
  · obtain ⟨before, c', hb, -, -⟩ := hr.before hp
    exact (run_inv hb).not_skips p.2
  · have hcalls := hI.calls t ht
    unfold Calls at hcalls
    simp only [hemit] at hcalls
    exact hcalls.2
  · have := run_shares hG hh hs hr t ht s args hemit
    rw [hst, Family.total_nil, Nat.zero_add] at this
    exact this

end

/-- Two links to one signal, with a handler. -/
def parallel : Graph (Fin 2) := ⟨![[.link 1, .singleUpdates, .link 1], [.singleUpdates]]⟩

/-- Two threads emit, and one of them waits for the other. -/
def emits : List (Label (Choice (Fin 2) Nat)) :=
  [.call (.emit 0 7), .act 0 .step, .call (.emit 1 8), .act 1 .step] ++ List.replicate 4 (.act 0 .step) ++
    List.replicate 3 (.act 1 .step) ++ List.replicate 19 (.act 0 .step)

theorem run_paths_parallel :
    let c := (chain parallel).last (initial parallel) emits
    (c.threads.map fun t => (t.emit, t.stack.length, t.queued.length)) = [(some (0, 7), 0, 3), (some (1, 8), 0, 1)] ∧
      ¬ Deadlocked (waitsFor c) ∧
      (∀ p ∈ (chain parallel).path (initial parallel) emits, skips p.1 p.2 = false) ∧
      ∀ t ∈ c.threads, ∀ s args, t.emit = some (s, args) → t.stack = [] →
        (∀ q ∈ t.queued, q.2.args = args) ∧
          ∀ d, ∀ h ∈ parallel.handlers d, h.mode = .singleUpdates → t.made d h = parallel.links.pathCount s d :=
  ⟨by decide, run_paths (Multigraph.acyclic_of_lt (by decide)) (Program.run_last (by decide))⟩

end Xdispatch.SignalChain
