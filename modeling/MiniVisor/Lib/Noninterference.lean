import Mathlib

/-!
# Two runs that an observer cannot tell apart

A system is given by a partial function for its steps, and by what an observer sees of each step.
Some actions are hidden: the observer is not supposed to learn of them. An `Unwinding` is a relation
on states that shows this step by step, and `Unwinding.observe_eq` draws the conclusion for whole
runs: two runs from related states that differ in hidden actions only show the observer the same.

The two runs are not assumed to take the same path; each of them only has to end.
-/

set_option autoImplicit false

namespace MiniVisor.Lib

universe u v w

variable {S : Type u} {A : Type v} {O : Type w}

/-- What an observer sees of a run, or nothing when the run stops early. -/
def observe (next : S → A → Option S) (out : S → A → List O) : S → List A → Option (List O)
  | _, [] => some []
  | s, a :: rest => (next s a).bind fun t => (observe next out t rest).map (out s a ++ ·)

/-- The observer sees nothing of hidden actions and does not notice their effects, and sees the same
of other actions in related states. -/
structure Unwinding (next : S → A → Option S) (out : S → A → List O) (hidden : A → Bool)
    (R : S → S → Prop) : Prop where
  silent : ∀ s a, hidden a = true → out s a = []
  output : ∀ s t a, R s t → hidden a = false → out s a = out t a
  left : ∀ s t a s', R s t → hidden a = true → next s a = some s' → R s' t
  right : ∀ s t a t', R s t → hidden a = true → next t a = some t' → R s t'
  step : ∀ s t a s' t', R s t → hidden a = false → next s a = some s' → next t a = some t' → R s' t'

section Unwinding

variable {next : S → A → Option S} {out : S → A → List O} {hidden : A → Bool} {R : S → S → Prop}

theorem observe_cons_eq_some {s : S} {a : A} {rest : List A} {seen : List O}
    (h : observe next out s (a :: rest) = some seen) :
    ∃ t seen', next s a = some t ∧ observe next out t rest = some seen' ∧
      seen = out s a ++ seen' := by
  obtain ⟨t, ht, h⟩ := Option.bind_eq_some_iff.1 h
  obtain ⟨seen', hseen, h⟩ := Option.map_eq_some_iff.1 h
  exact ⟨t, seen', ht, hseen, h.symm⟩

/-- A run without an action that is not hidden shows nothing. -/
theorem Unwinding.observe_hidden (hu : Unwinding next out hidden R) :
    ∀ {actions : List A} {t : S} {seen : List O}, actions.filter (!hidden ·) = [] →
      observe next out t actions = some seen → seen = [] := by
  intro actions
  induction actions with
  | nil =>
    intro t seen _ hseen
    cases hseen
    rfl
  | cons a rest ih =>
    intro t seen hfilter hseen
    obtain ⟨t', seen', ht', hrest, rfl⟩ := observe_cons_eq_some hseen
    have hhidden : hidden a = true := by
      cases ha : hidden a with
      | true => rfl
      | false => simp [ha] at hfilter
    rw [List.filter_cons_of_neg (by simp [hhidden])] at hfilter
    rw [hu.silent t a hhidden, ih hfilter hrest]
    rfl

/-- A run up to its first action that is not hidden. -/
theorem Unwinding.peel (hu : Unwinding next out hidden R) {s : S} {a : A} {visible : List A} :
    ∀ {actions : List A} {t : S} {seen : List O}, R s t →
      actions.filter (!hidden ·) = a :: visible → observe next out t actions = some seen →
        ∃ t₁ t₂ rest seen', R s t₁ ∧ next t₁ a = some t₂ ∧ hidden a = false ∧
          rest.filter (!hidden ·) = visible ∧ observe next out t₂ rest = some seen' ∧
            seen = out t₁ a ++ seen' := by
  intro actions
  induction actions with
  | nil =>
    intro t seen _ hfilter _
    cases hfilter
  | cons b rest ih =>
    intro t seen hR hfilter hseen
    obtain ⟨t', seen', ht', hrest, rfl⟩ := observe_cons_eq_some hseen
    cases hb : hidden b with
    | true =>
      rw [List.filter_cons_of_neg (by simp [hb])] at hfilter
      rw [hu.silent t b hb, List.nil_append]
      exact ih (hu.right s t b t' hR hb ht') hfilter hrest
    | false =>
      rw [List.filter_cons_of_pos (by simp [hb])] at hfilter
      obtain ⟨rfl, hvisible⟩ := List.cons.inj hfilter
      exact ⟨t, t', rest, seen', hR, ht', hb, hvisible, hrest, rfl⟩

/-- Two runs from related states that differ in hidden actions only show the observer the same. -/
theorem Unwinding.observe_eq (hu : Unwinding next out hidden R) :
    ∀ {actions actions' : List A} {s t : S} {seen seen' : List O}, R s t →
      actions.filter (!hidden ·) = actions'.filter (!hidden ·) →
        observe next out s actions = some seen → observe next out t actions' = some seen' →
          seen = seen' := by
  intro actions
  induction actions with
  | nil =>
    intro actions' s t seen seen' hR hfilter hseen hseen'
    cases hseen
    exact (hu.observe_hidden hfilter.symm hseen').symm
  | cons a rest ih =>
    intro actions' s t seen seen' hR hfilter hseen hseen'
    obtain ⟨s', seen₁, hs', hrest, rfl⟩ := observe_cons_eq_some hseen
    cases ha : hidden a with
    | true =>
      rw [List.filter_cons_of_neg (by simp [ha])] at hfilter
      rw [hu.silent s a ha, List.nil_append]
      exact ih (hu.left s t a s' hR ha hs') hfilter hrest hseen'
    | false =>
      -- the other run does hidden actions, and then the same action in a related state
      rw [List.filter_cons_of_pos (by simp [ha])] at hfilter
      obtain ⟨t₁, t₂, rest', seen₂, hR₁, ht₂, -, hvisible, hrest', rfl⟩ :=
        hu.peel hR hfilter.symm hseen'
      have hR₂ := hu.step s t₁ a s' t₂ hR₁ ha hs' ht₂
      rw [hu.output s t₁ a hR₁ ha, ih hR₂ hvisible.symm hrest hrest']

end Unwinding

end MiniVisor.Lib
