import Xdispatch.Lib.Total

/-!
# Interleavings of threads over a shared state

A `Program` says what a thread does: `call` starts threads from outside, `act`
is one atomic step of a thread in progress, with the choice `e` resolving what
the step leaves open (a spurious failure, a time-out, which queued item).
A `Config` is the shared state with the threads in progress; a `Run` is any
interleaving of calls and steps, with the list of the steps taken, each paired
with the configuration it was taken in. A condition on steps is therefore a
condition on the state before the step and on the label.
-/

structure Program (σ τ ε : Type) where
  call : σ → ε → Option (σ × List τ)
  act : σ → τ → ε → Option (σ × τ × List τ)

structure Config (σ τ : Type) where
  shared : σ
  threads : List τ
  deriving DecidableEq

inductive Label (ε : Type) where
  | call (e : ε)
  | act (i : Nat) (e : ε)
  deriving DecidableEq

def Label.choice {ε : Type} : Label ε → ε
  | .call e | .act _ e => e

namespace Program

variable {σ τ ε : Type} (P : Program σ τ ε)

def next (c : Config σ τ) : Label ε → Option (Config σ τ)
  | .call e => (P.call c.shared e).map fun r => ⟨r.1, c.threads ++ r.2⟩
  | .act i e => c.threads[i]?.bind fun t =>
      (P.act c.shared t e).map fun r => ⟨r.1, c.threads.set i r.2.1 ++ r.2.2⟩

/-- The steps taken, and the configuration they lead to. -/
inductive Run (c₀ : Config σ τ) : List (Config σ τ × Label ε) → Config σ τ → Prop
  | nil : Run c₀ [] c₀
  | snoc {tr c l c'} : Run c₀ tr c → P.next c l = some c' → Run c₀ (tr ++ [(c, l)]) c'

/-- Every step of `tr` was taken in a state that meets `C`. -/
def Along (C : Config σ τ → Label ε → Prop) (tr : List (Config σ τ × Label ε)) : Prop :=
  ∀ p ∈ tr, C p.1 p.2

instance (C : Config σ τ → Label ε → Prop) [∀ c l, Decidable (C c l)] (tr : List (Config σ τ × Label ε)) :
    Decidable (Along C tr) :=
  inferInstanceAs (Decidable (∀ p ∈ tr, C p.1 p.2))

section
variable {P}

theorem next_call {c c' : Config σ τ} {e : ε} (h : P.next c (.call e) = some c') :
    ∃ s new, P.call c.shared e = some (s, new) ∧ c' = ⟨s, c.threads ++ new⟩ := by
  simp only [next, Option.map_eq_some_iff] at h
  obtain ⟨⟨s, new⟩, h, rfl⟩ := h
  exact ⟨s, new, h, rfl⟩

theorem next_act {c c' : Config σ τ} {i : Nat} {e : ε} (h : P.next c (.act i e) = some c') :
    ∃ t s t' new, c.threads[i]? = some t ∧ P.act c.shared t e = some (s, t', new) ∧
      c' = ⟨s, c.threads.set i t' ++ new⟩ := by
  simp only [next, Option.bind_eq_some_iff, Option.map_eq_some_iff] at h
  obtain ⟨t, ht, ⟨s, t', new⟩, h, rfl⟩ := h
  exact ⟨t, s, t', new, ht, h, rfl⟩

theorem act_next {c : Config σ τ} {i : Nat} {e : ε} {t t' : τ} {s : σ} {new : List τ}
    (ht : c.threads[i]? = some t) (h : P.act c.shared t e = some (s, t', new)) :
    P.next c (.act i e) = some ⟨s, c.threads.set i t' ++ new⟩ := by
  simp [next, ht, h]

/-- The steps of a program with one thread. -/
theorem next_single {c c' : Config σ τ} {t : τ} {l : Label ε} (ht : c.threads = [t]) (h : P.next c l = some c') :
    (∃ e t' new, l = .act 0 e ∧ P.act c.shared t e = some (c'.shared, t', new) ∧ c'.threads = t' :: new) ∨
      ∃ e new, l = .call e ∧ P.call c.shared e = some (c'.shared, new) ∧ c'.threads = t :: new := by
  cases l with
  | call e =>
    obtain ⟨s, new, hc, rfl⟩ := next_call h
    exact Or.inr ⟨e, new, rfl, hc, by rw [ht]; rfl⟩
  | act i e =>
    obtain ⟨t₁, s, t', new, hi, ha, rfl⟩ := next_act h
    rw [ht, List.getElem?_singleton] at hi
    obtain ⟨rfl, hi⟩ := Option.ite_none_right_eq_some.mp hi
    cases hi
    exact Or.inl ⟨e, t', new, rfl, ha, by rw [ht]; rfl⟩

theorem along_snoc {C : Config σ τ → Label ε → Prop} {tr : List (Config σ τ × Label ε)}
    {p : Config σ τ × Label ε} : Along C (tr ++ [p]) ↔ Along C tr ∧ C p.1 p.2 := by
  simp [Along, or_imp, forall_and]

/-! ## Invariants -/

theorem Run.invariant {c₀ : Config σ τ} {C : Config σ τ → Label ε → Prop} {I : Config σ τ → Prop}
    (h0 : I c₀) (hs : ∀ c l c', I c → C c l → P.next c l = some c' → I c')
    {tr : List (Config σ τ × Label ε)} {c : Config σ τ} (h : P.Run c₀ tr c) (hC : Along C tr) : I c := by
  induction h with
  | nil => exact h0
  | snoc _ hn ih =>
    obtain ⟨hC, hl⟩ := along_snoc.mp hC
    exact hs _ _ _ (ih hC) hl hn

theorem Run.invariant_by {c₀ : Config σ τ} {C : Config σ τ → Label ε → Prop} {I : Config σ τ → Prop}
    (h0 : I c₀)
    (hcall : ∀ c e s new, I c → C c (.call e) → P.call c.shared e = some (s, new) →
      I ⟨s, c.threads ++ new⟩)
    (hact : ∀ c i e t s t' new, I c → C c (.act i e) → c.threads[i]? = some t →
      P.act c.shared t e = some (s, t', new) → I ⟨s, c.threads.set i t' ++ new⟩)
    {tr : List (Config σ τ × Label ε)} {c : Config σ τ} (h : P.Run c₀ tr c) (hC : Along C tr) : I c := by
  refine h.invariant h0 (fun c l c' hI hl hn => ?_) hC
  cases l with
  | call e =>
    obtain ⟨s, new, hc, rfl⟩ := next_call hn
    exact hcall c e s new hI hl hc
  | act i e =>
    obtain ⟨t, s, t', new, ht, ha, rfl⟩ := next_act hn
    exact hact c i e t s t' new hI hl ht ha

theorem Run.append {c₀ c₁ c₂ : Config σ τ} {tr tr' : List (Config σ τ × Label ε)} (h : P.Run c₀ tr c₁)
    (h' : P.Run c₁ tr' c₂) : P.Run c₀ (tr ++ tr') c₂ := by
  induction h' with
  | nil => rwa [List.append_nil]
  | snoc _ hn ih =>
    rw [← List.append_assoc]
    exact ih.snoc hn

/-- The run up to one of its steps. -/
theorem Run.before {c₀ c : Config σ τ} {tr : List (Config σ τ × Label ε)} (h : P.Run c₀ tr c)
    {p : Config σ τ × Label ε} (hp : p ∈ tr) :
    ∃ before c', P.Run c₀ before p.1 ∧ P.next p.1 p.2 = some c' ∧ before ++ [p] <+: tr := by
  induction h with
  | nil => cases hp
  | @snoc tr c l c' hr hn ih =>
    rcases List.mem_append.mp hp with hp | hp
    · obtain ⟨before, d, hr, hn, hpre⟩ := ih hp
      exact ⟨before, d, hr, hn, hpre.trans (List.prefix_append _ _)⟩
    · cases List.mem_singleton.mp hp
      exact ⟨tr, c', hr, hn, List.prefix_rfl⟩

/-- What stays once it holds begins to hold at one step of the run, if at all. -/
theorem Run.point {c₀ c : Config σ τ} {tr : List (Config σ τ × Label ε)} {Q : Config σ τ → Prop} (h0 : ¬ Q c₀)
    (h : P.Run c₀ tr c) (hm : ∀ p ∈ tr, ∀ c', P.next p.1 p.2 = some c' → Q p.1 → Q c') :
    (∀ p ∈ tr, ¬ Q p.1) ∧ ¬ Q c ∨
      ∃ before p c' after, tr = before ++ p :: after ∧ P.next p.1 p.2 = some c' ∧ (∀ q ∈ before, ¬ Q q.1) ∧ ¬ Q p.1 ∧
        Q c' ∧ (∀ q ∈ after, Q q.1) ∧ Q c := by
  induction h with
  | nil => exact Or.inl ⟨by simp, h0⟩
  | @snoc tr c l c' _ hn ih =>
    have hstep := hm (c, l) (List.mem_append_right _ (List.mem_singleton_self _)) c' hn
    rcases ih fun p hp => hm p (List.mem_append_left _ hp) with ⟨hall, hc⟩ |
      ⟨before, p, d, after, rfl, hnp, hb, hp, hd, ha, hc⟩
    · by_cases hc' : Q c'
      · exact Or.inr ⟨tr, (c, l), c', [], rfl, hn, hall, hc, hc', by simp, hc'⟩
      · refine Or.inl ⟨fun p hp => ?_, hc'⟩
        rcases List.mem_append.mp hp with hp | hp
        · exact hall p hp
        · cases List.mem_singleton.mp hp
          exact hc
    · refine Or.inr ⟨before, p, d, after ++ [(c, l)], by simp, hnp, hb, hp, hd, fun q hq => ?_, hstep hc⟩
      rcases List.mem_append.mp hq with hq | hq
      · exact ha q hq
      · cases List.mem_singleton.mp hq
        exact hc

/-- A condition on the steps that is exactly what keeps every state good, in runs
whose steps all meet `D`. -/
theorem Run.along_iff_of {c₀ : Config σ τ} {C D : Config σ τ → Label ε → Prop} {I Good : Config σ τ → Prop}
    (h0 : I c₀) (hs : ∀ c l c', I c → D c l → C c l → P.next c l = some c' → I c') (hgood : ∀ c, I c → Good c)
    (hbad : ∀ c l c', I c → D c l → ¬ C c l → P.next c l = some c' → ¬ Good c')
    {tr : List (Config σ τ × Label ε)} {c : Config σ τ} (h : P.Run c₀ tr c) (hD : Along D tr) :
    Along C tr ↔ (∀ p ∈ tr, Good p.1) ∧ Good c := by
  induction h with
  | nil => exact ⟨fun _ => ⟨by simp, hgood _ h0⟩, fun _ => by simp [Along]⟩
  | @snoc tr c l c' hr hn ih =>
    obtain ⟨hD, hd⟩ := along_snoc.mp hD
    have hI : Along C tr → I c := fun hC =>
      hr.invariant (C := fun c l => D c l ∧ C c l) h0 (fun c l c' hI h => hs c l c' hI h.1 h.2)
        fun p hp => ⟨hD p hp, hC p hp⟩
    rw [along_snoc]
    constructor
    · rintro ⟨hC, hl⟩
      obtain ⟨hp, hc⟩ := (ih hD).mp hC
      refine ⟨fun p hm => ?_, hgood _ (hs _ _ _ (hI hC) hd hl hn)⟩
      rcases List.mem_append.mp hm with hm | hm
      · exact hp p hm
      · cases List.mem_singleton.mp hm
        exact hc
    · rintro ⟨hp, hc'⟩
      have hC : Along C tr := (ih hD).mpr ⟨fun p hm => hp p (List.mem_append_left _ hm), hp (c, l) (by simp)⟩
      exact ⟨hC, Classical.byContradiction fun hl => hbad _ _ _ (hI hC) hd hl hn hc'⟩

theorem along_true {tr : List (Config σ τ × Label ε)} : Along (fun _ _ => True) tr := fun _ _ => trivial

theorem Run.along_iff {c₀ : Config σ τ} {C : Config σ τ → Label ε → Prop} {I Good : Config σ τ → Prop}
    (h0 : I c₀) (hs : ∀ c l c', I c → C c l → P.next c l = some c' → I c') (hgood : ∀ c, I c → Good c)
    (hbad : ∀ c l c', I c → ¬ C c l → P.next c l = some c' → ¬ Good c')
    {tr : List (Config σ τ × Label ε)} {c : Config σ τ} (h : P.Run c₀ tr c) :
    Along C tr ↔ (∀ p ∈ tr, Good p.1) ∧ Good c :=
  h.along_iff_of h0 (fun c l c' hI _ => hs c l c' hI) hgood (fun c l c' hI _ => hbad c l c' hI) along_true

/-! ## Refinement -/

/-- `P` goes from `c` to `c'` with the step given, or with none. -/
def Follows (P : Program σ τ ε) (c c' : Config σ τ) : Option (Label ε) → Prop
  | some l => P.next c l = some c'
  | none => c' = c

/-- Each step of `Q` is the step `label` of `P` between the abstractions of the two
states, or none of `P`. -/
def Refines {σ' τ' ε' : Type} (Q : Program σ' τ' ε') (P : Program σ τ ε) (abs : Config σ' τ' → Config σ τ)
    (label : Config σ' τ' → Label ε' → Option (Label ε)) : Prop :=
  ∀ c l c', Q.next c l = some c' → P.Follows (abs c) (abs c') (label c l)

/-- The steps of `P` among those of a run of `Q`. -/
def abstracted {σ' τ' ε' : Type} (abs : Config σ' τ' → Config σ τ) (label : Config σ' τ' → Label ε' → Option (Label ε))
    (tr : List (Config σ' τ' × Label ε')) : List (Config σ τ × Label ε) :=
  tr.filterMap fun p => (label p.1 p.2).map (abs p.1, ·)

/-- The steps of `Q` are followed by `P` where `I` holds of the state and `C` of the step. -/
theorem Run.simulated {σ' τ' ε' : Type} {Q : Program σ' τ' ε'} {abs : Config σ' τ' → Config σ τ}
    {label : Config σ' τ' → Label ε' → Option (Label ε)} {I : Config σ' τ' → Prop} {C : Config σ' τ' → Label ε' → Prop}
    {c₀ c : Config σ' τ'} {tr : List (Config σ' τ' × Label ε')} (h0 : I c₀)
    (hs : ∀ c l c', I c → C c l → Q.next c l = some c' → I c' ∧ P.Follows (abs c) (abs c') (label c l))
    (h : Q.Run c₀ tr c) (hC : Along C tr) : I c ∧ P.Run (abs c₀) (abstracted abs label tr) (abs c) := by
  induction h with
  | nil => exact ⟨h0, .nil⟩
  | @snoc tr c l c' hr hn ih =>
    obtain ⟨hC, hl⟩ := along_snoc.mp hC
    obtain ⟨hI, ih⟩ := ih hC
    obtain ⟨hI', hs⟩ := hs c l c' hI hl hn
    refine ⟨hI', ?_⟩
    unfold abstracted at ih ⊢
    rw [List.filterMap_append]
    cases hl : label c l with
    | none =>
      rw [hl] at hs
      simpa [hl, show abs c' = abs c from hs] using ih
    | some l' =>
      rw [hl] at hs
      simpa [hl] using ih.snoc hs

theorem Refines.run {σ' τ' ε' : Type} {Q : Program σ' τ' ε'} {abs : Config σ' τ' → Config σ τ}
    {label : Config σ' τ' → Label ε' → Option (Label ε)} (hR : Refines Q P abs label) {c₀ c : Config σ' τ'}
    {tr : List (Config σ' τ' × Label ε')} (h : Q.Run c₀ tr c) : P.Run (abs c₀) (abstracted abs label tr) (abs c) :=
  (h.simulated (I := fun _ => True) trivial (fun c l c' _ _ hn => ⟨trivial, hR c l c' hn⟩) along_true).2

theorem mem_abstracted {σ' τ' ε' : Type} {abs : Config σ' τ' → Config σ τ}
    {label : Config σ' τ' → Label ε' → Option (Label ε)} {tr : List (Config σ' τ' × Label ε')}
    {p : Config σ τ × Label ε} :
    p ∈ abstracted abs label tr ↔ ∃ q ∈ tr, label q.1 q.2 = some p.2 ∧ p.1 = abs q.1 := by
  simp only [abstracted, List.mem_filterMap, Option.map_eq_some_iff, Prod.ext_iff]
  constructor
  · rintro ⟨q, hq, l, hl, h1, rfl⟩
    exact ⟨q, hq, hl, h1.symm⟩
  · rintro ⟨q, hq, hl, h1⟩
    exact ⟨q, hq, p.2, hl, h1.symm, rfl⟩

/-! ## Concrete runs -/

variable (P) in
def exec (c : Config σ τ) : List (Label ε) → Option (Config σ τ)
  | [] => some c
  | l :: ls => (P.next c l).bind fun c' => exec c' ls

variable (P) in
/-- The steps that `exec` takes. -/
def path (c : Config σ τ) : List (Label ε) → List (Config σ τ × Label ε)
  | [] => []
  | l :: ls => (c, l) :: match P.next c l with
    | some c' => path c' ls
    | none => []

theorem Run.extend {c₀ : Config σ τ} : ∀ {l : List (Label ε)} {tr : List (Config σ τ × Label ε)}
    {c c' : Config σ τ}, P.Run c₀ tr c → P.exec c l = some c' → P.Run c₀ (tr ++ P.path c l) c'
  | [], tr, c, c', h, he => by
    simp only [exec, Option.some.injEq] at he
    subst he
    simpa [path] using h
  | l :: ls, tr, c, c', h, he => by
    simp only [exec, Option.bind_eq_some_iff] at he
    obtain ⟨d, hd, he⟩ := he
    have := Run.extend (h.snoc hd) he
    simpa [path, hd] using this

theorem run_exec {c₀ c : Config σ τ} {l : List (Label ε)} (h : P.exec c₀ l = some c) :
    P.Run c₀ (P.path c₀ l) c := by
  simpa using Run.extend Run.nil h

variable (P) in
def last (c : Config σ τ) (ls : List (Label ε)) : Config σ τ := (P.exec c ls).getD c

theorem run_last {c₀ : Config σ τ} {l : List (Label ε)} (h : (P.exec c₀ l).isSome = true) :
    P.Run c₀ (P.path c₀ l) (P.last c₀ l) := by
  obtain ⟨c, hc⟩ := Option.isSome_iff_exists.mp h
  have : P.last c₀ l = c := by simp [last, hc]
  rw [this]
  exact run_exec hc

theorem next_last {s s' : σ} {ts : List τ} {t t' : τ} {e : ε} (ha : P.act s t e = some (s', t', [])) :
    P.next ⟨s, ts ++ [t]⟩ (.act ts.length e) = some ⟨s', ts ++ [t']⟩ := by
  have hn := act_next (c := ⟨s, ts ++ [t]⟩) List.getElem?_concat_length ha
  rwa [List.set_append_right _ _ (Nat.le_refl _), Nat.sub_self, List.append_nil] at hn

theorem Run.last_step {c₀ : Config σ τ} {tr : List (Config σ τ × Label ε)} {s s' : σ} {ts : List τ} {t t' : τ} {e : ε}
    (h : P.Run c₀ tr ⟨s, ts ++ [t]⟩) (ha : P.act s t e = some (s', t', [])) : ∃ tr', P.Run c₀ tr' ⟨s', ts ++ [t']⟩ :=
  ⟨_, h.snoc (next_last ha)⟩

/-! ## A thread by itself -/

/-- What comes down to `G` step by step reaches it. -/
theorem exists_of_rank {α : Type} {r : α → α → Prop} {I G : α → Prop} (rank : α → Nat)
    (hstep : ∀ a, I a → G a ∨ ∃ b, Relation.ReflTransGen r a b ∧ I b ∧ rank b < rank a) {a : α} (ha : I a) :
    ∃ b, Relation.ReflTransGen r a b ∧ I b ∧ G b := by
  induction hn : rank a using Nat.strong_induction_on generalizing a with
  | _ n ih =>
    rcases hstep a ha with hg | ⟨b, hab, hb, hlt⟩
    · exact ⟨a, .refl, ha, hg⟩
    · obtain ⟨c, hbc, hc⟩ := ih (rank b) (hn ▸ hlt) hb rfl
      exact ⟨c, hab.trans hbc, hc⟩

/-- A thread whose own steps lower `rank` until `goal` reaches `goal` by itself. -/
theorem exists_alone {i : Nat} {I : Config σ τ → Prop} (C : ε → Prop)
    (goal : τ → Prop) (rank : σ → τ → Nat)
    (hI : ∀ c e c', C e → I c → P.next c (.act i e) = some c' → I c')
    (hstep : ∀ c t, I c → c.threads[i]? = some t → goal t ∨
      ∃ e s t' new, C e ∧ P.act c.shared t e = some (s, t', new) ∧ rank s t' < rank c.shared t) :
    ∀ (n : Nat) (c : Config σ τ) (t : τ), rank c.shared t < n → I c → c.threads[i]? = some t →
      ∃ (es : List ε) (c' : Config σ τ) (t' : τ), (∀ e ∈ es, C e) ∧ P.exec c (es.map (.act i)) = some c' ∧ I c' ∧
        c'.threads[i]? = some t' ∧ goal t'
  | 0, c, t, hn, _, _ => by omega
  | n + 1, c, t, hn, hc, ht => by
    rcases hstep c t hc ht with hg | ⟨e, s, t', new, he, ha, hr⟩
    · exact ⟨[], c, t, by simp, rfl, hc, ht, hg⟩
    · have hnext := act_next ht ha
      have ht' := Family.get_step ht t' new
      obtain ⟨es, c', t'', hes, hex, hc', ht'', hg⟩ :=
        exists_alone C goal rank hI hstep n _ t' (by simp only []; omega) (hI c e _ he hc hnext) ht'
      refine ⟨e :: es, c', t'', ?_, ?_, hc', ht'', hg⟩
      · intro x hx
        rcases List.mem_cons.mp hx with rfl | hx
        · exact he
        · exact hes x hx
      · simp only [List.map_cons, exec, hnext, Option.bind_some]
        exact hex

variable (P) in
/-- Whatever thread `i` chooses among `C`, it can go on until it reaches `goal`, and it does. -/
inductive Ends (i : Nat) (C : ε → Prop) (goal : Config σ τ → Prop) : Config σ τ → Prop
  | done {c} : goal c → Ends i C goal c
  | step {c} : (∃ e c', C e ∧ P.next c (.act i e) = some c') →
      (∀ e c', C e → P.next c (.act i e) = some c' → Ends i C goal c') → Ends i C goal c

theorem ends_of_rank {i : Nat} {C : ε → Prop} {goal I : Config σ τ → Prop} (rank : Config σ τ → Nat)
    (hgo : ∀ c, I c → goal c ∨ ∃ e c', C e ∧ P.next c (.act i e) = some c')
    (hstep : ∀ c e c', I c → C e → P.next c (.act i e) = some c' → goal c' ∨ I c' ∧ rank c' < rank c) :
    ∀ (n : Nat) (c : Config σ τ), rank c < n → I c → P.Ends i C goal c
  | 0, c, hn, _ => absurd hn (Nat.not_lt_zero _)
  | n + 1, c, hn, hc => by
    rcases hgo c hc with hg | hex
    · exact .done hg
    · refine .step hex fun e c' he hnext => ?_
      rcases hstep c e c' hc he hnext with hg | ⟨hI, hr⟩
      · exact .done hg
      · exact ends_of_rank rank hgo hstep n c' (by omega) hI

/-- The same where the choice of each step matters, and the goal is about the shared state too. -/
theorem exists_steps {i : Nat} {I : Config σ τ → Prop} (goal : σ → τ → Prop) (rank : σ → τ → Nat)
    (hstep : ∀ c t, I c → c.threads[i]? = some t → goal c.shared t ∨
      ∃ e s t' new, P.act c.shared t e = some (s, t', new) ∧
        (goal s t' ∨ rank s t' < rank c.shared t ∧ I ⟨s, c.threads.set i t' ++ new⟩)) :
    ∀ (n : Nat) (c : Config σ τ) (t : τ), rank c.shared t < n → I c → c.threads[i]? = some t →
      ∃ (es : List ε) (c' : Config σ τ) (t' : τ), P.exec c (es.map (.act i)) = some c' ∧
        c'.threads[i]? = some t' ∧ goal c'.shared t'
  | 0, c, t, hn, _, _ => by omega
  | n + 1, c, t, hn, hc, ht => by
    rcases hstep c t hc ht with hg | ⟨e, s, t', new, ha, h⟩
    · exact ⟨[], c, t, rfl, ht, hg⟩
    have hnext := act_next ht ha
    have ht' := Family.get_step ht t' new
    rcases h with hg | ⟨hr, hI⟩
    · exact ⟨[e], _, t', (Option.bind_fun_some _).trans hnext, ht', hg⟩
    · obtain ⟨es, c', t'', hex, ht'', hg⟩ :=
        exists_steps goal rank hstep n ⟨s, c.threads.set i t' ++ new⟩ t' (by simp only []; omega) hI ht'
      refine ⟨e :: es, c', t'', ?_, ht'', hg⟩
      simp only [List.map_cons, exec, hnext, Option.bind_some]
      exact hex

end

end Program
