import Mathlib.Data.List.Basic

/-!
# Linked lists

`Linked next h l` says that the nodes reached from `h` through `next` are those
of `l`, in this order, and that the last one has no next node. Such a list visits
no node twice.
-/

def Linked {ι : Type} (next : ι → Option ι) : Option ι → List ι → Prop
  | h, [] => h = none
  | h, p :: l => h = some p ∧ Linked next (next p) l

namespace Linked

variable {ι : Type} {next next' : ι → Option ι} {h : Option ι} {p q : ι} {l l' : List ι}

@[simp] theorem linked_nil : Linked next h [] ↔ h = none := Iff.rfl

@[simp] theorem linked_cons : Linked next h (p :: l) ↔ h = some p ∧ Linked next (next p) l := Iff.rfl

@[simp] theorem linked_none : Linked next none l ↔ l = [] := by
  cases l <;> simp

theorem linked_some : Linked next (some p) l ↔ ∃ l', l = p :: l' ∧ Linked next (next p) l' := by
  cases l with
  | nil => simp
  | cons q l =>
    simp only [linked_cons, Option.some.injEq, List.cons.injEq]
    constructor
    · rintro ⟨rfl, hl⟩
      exact ⟨l, ⟨rfl, rfl⟩, hl⟩
    · rintro ⟨l', ⟨rfl, rfl⟩, hl⟩
      exact ⟨rfl, hl⟩

theorem unique : ∀ {l l' : List ι} {h : Option ι}, Linked next h l → Linked next h l' → l = l'
  | [], l', _, hl, hl' => by
    rw [linked_nil] at hl
    rw [hl, linked_none] at hl'
    exact hl'.symm
  | p :: l, l', _, ⟨hp, hl⟩, hl' => by
    rw [hp, linked_some] at hl'
    obtain ⟨l₁, rfl, hl'⟩ := hl'
    rw [unique hl hl']

theorem congr : ∀ {l : List ι} {h : Option ι}, (∀ p ∈ l, next' p = next p) → Linked next h l → Linked next' h l
  | [], _, _, hl => hl
  | p :: l, _, hn, ⟨hp, hl⟩ => by
    refine ⟨hp, ?_⟩
    rw [hn p (List.mem_cons_self ..)]
    exact congr (fun q hq => hn q (List.mem_cons_of_mem p hq)) hl

/-- The rest of the list behind one of its nodes. -/
theorem after : ∀ {l : List ι} {h : Option ι}, Linked next h l → p ∈ l →
    ∃ l', Linked next (next p) l' ∧ p :: l' <:+ l
  | q :: l, _, ⟨_, hl⟩, hp => by
    rcases List.mem_cons.mp hp with rfl | hp
    · exact ⟨l, hl, List.suffix_rfl⟩
    · obtain ⟨l', hl', hs⟩ := after hl hp
      exact ⟨l', hl', hs.trans (List.suffix_cons q l)⟩

theorem nodup : ∀ {l : List ι} {h : Option ι}, Linked next h l → l.Nodup
  | [], _, _ => List.nodup_nil
  | p :: l, _, ⟨_, hl⟩ => by
    refine List.nodup_cons.mpr ⟨fun hp => ?_, hl.nodup⟩
    obtain ⟨l', hl', hs⟩ := hl.after hp
    have := hs.length_le
    rw [unique hl hl', List.length_cons] at this
    omega

theorem mem_next (hl : Linked next h l) (hp : p ∈ l) (hq : next p = some q) : q ∈ l := by
  obtain ⟨l', hl', hs⟩ := hl.after hp
  rw [hq, linked_some] at hl'
  obtain ⟨l₁, rfl, _⟩ := hl'
  exact hs.subset (List.mem_cons_of_mem p (List.mem_cons_self ..))

theorem mem_head (hl : Linked next (some p) l) : p ∈ l := by
  obtain ⟨l', rfl, _⟩ := linked_some.mp hl
  exact List.mem_cons_self ..

end Linked
