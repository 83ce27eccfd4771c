import Xdispatch.Backend.Model

/-!
# The downcast of the libdispatch backend

The assertion of `impl_2_native` looks at the backend that a queue reports, and
a waitable queue reports that of the queue it wraps. So the cast is valid for
all queues but those that wrap a native one.
-/

namespace Xdispatch.Backend

/-- The queue that is wrapped in the end. -/
def Queue.innermost : Queue → Queue
  | .waitable inner => inner.innermost
  | q => q

/-- The queue does not wrap a native one. -/
def Queue.Plain (q : Queue) : Prop := q.innermost = .native → q = .native

instance (q : Queue) : Decidable q.Plain := inferInstanceAs (Decidable (_ → _))

theorem Constructed.innermost {q : Queue} (h : Constructed q) : q.backend = .libdispatch ↔ q.innermost = .native := by
  induction h with
  | ofBackend i application k => cases i <;> cases k <;> cases application <;> decide
  | waitableQueue _ ih => exact ih
  | libdispatchQueue => exact ⟨fun _ => rfl, fun _ => rfl⟩
  | _ => exact ⟨nofun, nofun⟩

theorem impl2Native_iff {q : Queue} (h : Constructed q) : impl2Native q ≠ .error .badCast ↔ q.Plain := by
  unfold impl2Native Queue.Plain
  rw [← h.innermost]
  split
  next hi =>
    cases q with
    | native => simp
    | _ => simp [hi]
  next hi => simp [hi]

theorem Constructed.plain {q : Queue} (h : Constructed q) (hb : q.backend ≠ .libdispatch) : q.Plain :=
  fun hi => absurd (h.innermost.mpr hi) hb

theorem map_badCast {α β : Type} {r : Except Failure α} {f : α → β} :
    r.map f ≠ .error .badCast ↔ r ≠ .error .badCast := by
  cases r <;> simp [Except.map]

theorem bind_badCast {α : Type} {r : Except Failure α} {f : α → Except Failure Unit} (hf : ∀ a, f a ≠ .error .badCast) :
    r.bind f ≠ .error .badCast ↔ r ≠ .error .badCast := by
  cases r with
  | error e => simp [Except.bind]
  | ok a => simpa [Except.bind] using hf a

theorem assertSameBackend_ne (a b : BackendType) : assertSameBackend a b ≠ .error .badCast := by
  unfold assertSameBackend
  split <;> simp

/-- The source of a queue is created by the backend that the queue reports. -/
theorem createSource_iff (build : Build) {q : Queue} (h : Constructed q) :
    (backendForType build q.backend).createSource q ≠ .error .badCast ↔ q.Plain := by
  cases hb : q.backend with
  | libdispatch => exact map_badCast.trans (impl2Native_iff h)
  | naive =>
    simp only [backendForType, Instance.createSource]
    exact ⟨fun _ => h.plain (by simp [hb]), fun _ => nofun⟩
  | qt5 =>
    have hp := h.plain (by simp [hb])
    refine ⟨fun _ => hp, fun _ => ?_⟩
    cases hq : build.qt5 with
    | naive => simp [backendForType, hq, Instance.createSource]
    | libdispatch =>
      simp only [backendForType, hq, Instance.createSource]
      exact map_badCast.mpr ((impl2Native_iff h).mpr hp)
    | qt5 => simp [backendForType, hq, Instance.createSource, hb]

/-- **The downcast.** Whatever the way to `impl_2_native`, a queue that the library has constructed is not
cast to a type that it does not have exactly if it is no waitable queue around a native one. -/
theorem downcast_iff (build : Build) {q : Queue} (h : Constructed q) (p : Path) :
    p.take build q ≠ .error .badCast ↔ q.Plain := by
  cases p with
  | timer | socketNotifier =>
    exact (bind_badCast fun b => assertSameBackend_ne b q.backend).trans (createSource_iff build h)
  | timerTargetQueue | socketNotifierTargetQueue => exact impl2Native_iff h
  | groupAsync | groupNotify =>
    change group q ≠ _ ↔ _
    by_cases hb : q.backend = .libdispatch
    · simpa [group, assertSameBackend, hb, Except.bind] using impl2Native_iff h
    · have hs : assertSameBackend .libdispatch q.backend = .error .logicError := if_neg (Ne.symm hb)
      simpa [group, hs, Except.bind] using h.plain hb
  | after =>
    cases q with
    | native => exact ⟨fun _ => fun _ => rfl, fun _ => nofun⟩
    | serial b | parallel b | waitable inner => exact map_badCast.trans (createSource_iff build h)

theorem downcast_iff_serial :
    Path.after.take ⟨.libdispatch⟩ (.waitable (.serial .qt5)) ≠ .error .badCast ↔ (Queue.waitable (.serial .qt5)).Plain :=
  downcast_iff ⟨.libdispatch⟩ (.waitableQueue .qt5SerialQueue) .after

/-- A waitable queue around a native one. -/
theorem downcast_invalid : ¬ ∀ (build : Build) (q : Queue), Constructed q → ∀ p : Path,
    q.backend = .libdispatch → p.take build q ≠ .error .badCast := fun h =>
  h ⟨.qt5⟩ (.waitable .native) (.waitableQueue .libdispatchQueue) .after rfl rfl

end Xdispatch.Backend
