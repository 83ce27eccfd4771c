import Xdispatch.Lib.Threads

/-!
# Records

`recorded` runs a program with a record beside each thread, which the steps of
that thread write. Its choices may say more than those of the program. Nothing
the program does depends on the records, so every run is one of the program.
-/

def Label.map {ε ε' : Type} (f : ε' → ε) : Label ε' → Label ε
  | .call e => .call (f e)
  | .act i e => .act i (f e)

namespace Program

section
variable {σ τ ε ε' ρ : Type} (P : Program σ τ ε) (choice : ε' → ε) (record : σ → τ → ε' → σ → ρ → ρ) (r₀ : ρ)

def recorded : Program σ (τ × ρ) ε' where
  call s e := (P.call s (choice e)).map fun r => (r.1, r.2.map (·, r₀))
  act s t e := (P.act s t.1 (choice e)).map fun r => (r.1, (r.2.1, record s t.1 e r.1 t.2), r.2.2.map (·, r₀))

/-- The configuration without the records. -/
def forget (c : Config σ (τ × ρ)) : Config σ τ := ⟨c.shared, c.threads.map Prod.fst⟩

variable {P choice record r₀} {s s' : σ} {t t' : τ × ρ} {new : List (τ × ρ)} {e : ε'}

theorem recorded_call (h : (P.recorded choice record r₀).call s e = some (s', new)) :
    ∃ new', P.call s (choice e) = some (s', new') ∧ new = new'.map (·, r₀) := by
  simp only [recorded, Option.map_eq_some_iff, Prod.mk.injEq] at h
  obtain ⟨⟨s₁, new'⟩, h, rfl, rfl⟩ := h
  exact ⟨new', h, rfl⟩

theorem recorded_act (h : (P.recorded choice record r₀).act s t e = some (s', t', new)) :
    ∃ u new', P.act s t.1 (choice e) = some (s', u, new') ∧ t' = (u, record s t.1 e s' t.2) ∧ new = new'.map (·, r₀) := by
  simp only [recorded, Option.map_eq_some_iff, Prod.mk.injEq] at h
  obtain ⟨⟨s₁, u, new'⟩, h, rfl, rfl, rfl⟩ := h
  exact ⟨u, new', h, rfl, rfl⟩

theorem act_recorded {u : τ} {new : List τ} (h : P.act s t.1 (choice e) = some (s', u, new)) :
    (P.recorded choice record r₀).act s t e = some (s', (u, record s t.1 e s' t.2), new.map (·, r₀)) := by
  simp [recorded, h]

theorem recorded_refines :
    (P.recorded choice record r₀).Refines P forget fun _ l => some (l.map choice) := by
  intro c l c' h
  cases l with
  | call e =>
    obtain ⟨s, new, hc, rfl⟩ := next_call h
    obtain ⟨new', hP, rfl⟩ := recorded_call hc
    simp [Follows, Label.map, next, forget, hP, Function.comp_def]
  | act i e =>
    obtain ⟨t, s, t', new, ht, ha, rfl⟩ := next_act h
    obtain ⟨u, new', hP, rfl, rfl⟩ := recorded_act ha
    have ht' : (forget c).threads[i]? = some t.1 := by simp [forget, ht]
    have hnext : P.next (forget c) (.act i (choice e)) = _ := act_next ht' hP
    simp only [Follows, Label.map, hnext]
    simp [forget, Function.comp_def, List.map_set]

end

end Program
