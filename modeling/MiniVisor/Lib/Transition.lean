import MiniVisor.Lib.Numerals

/-!
# Labelled transition systems

A transition system is given by its initial states and a labelled step relation. `Run` is the
relation between the labels of a finite run and the state it ends in.

The rules of this module are `Run.invariant`, by which a property that holds initially and is
preserved by every step holds in every reachable state, `Run.simulate`, by which a system whose
every step is matched by a step of another one under the same label has only runs of that system,
and `along_congr`, by which two conditions on steps that agree under an invariant hold along the
same runs.
-/

set_option autoImplicit false

namespace MiniVisor.Lib

universe u v w

variable {S : Type u} {T : Type v} {L : Type w}

/-- The runs of a system: the labels of the steps, first step first, and the last state. -/
inductive Run (init : S → Prop) (step : S → L → S → Prop) : List L → S → Prop where
  | start {s : S} (h : init s) : Run init step [] s
  | next {labels : List L} {s t : S} {label : L} (h : Run init step labels s)
      (hstep : step s label t) : Run init step (labels ++ [label]) t

variable {init : S → Prop} {step : S → L → S → Prop}

/-- What holds initially and is preserved by every step holds at the end of every run. -/
theorem Run.invariant {P : S → Prop} {labels : List L} {s : S} (hr : Run init step labels s)
    (hinit : ∀ s, init s → P s) (hstep : ∀ s label t, P s → step s label t → P t) : P s := by
  induction hr with
  | start h => exact hinit _ h
  | next _ hst ih => exact hstep _ _ _ ih hst

/-- A run without steps is at its start. -/
theorem Run.of_nil {s : S} (hr : Run init step [] s) : init s := by
  generalize hlabels : ([] : List L) = labels at hr
  cases hr with
  | start h => exact h
  | next _ _ => exact absurd hlabels.symm (List.append_ne_nil_of_right_ne_nil _
      (List.cons_ne_nil _ _))

/-- Forward simulation: related states stay related when every step is matched under its label. -/
theorem Run.simulate {init' : T → Prop} {step' : T → L → T → Prop} {R : S → T → Prop}
    {labels : List L} {s : S} (hr : Run init step labels s)
    (hinit : ∀ s, init s → ∃ t, init' t ∧ R s t)
    (hstep : ∀ s label s' t, R s t → step s label s' → ∃ t', step' t label t' ∧ R s' t') :
    ∃ t, Run init' step' labels t ∧ R s t := by
  induction hr with
  | start h =>
    obtain ⟨t, ht, hR⟩ := hinit _ h
    exact ⟨t, .start ht, hR⟩
  | next _ hst ih =>
    obtain ⟨t, ht, hR⟩ := ih
    obtain ⟨t', ht', hR'⟩ := hstep _ _ _ _ hR hst
    exact ⟨t', .next ht ht', hR'⟩

/-- The runs of a system are runs of every system that can do as much. -/
theorem Run.mono {step' : S → L → S → Prop} {labels : List L} {s : S} (hr : Run init step labels s)
    (hstep : ∀ s label t, step s label t → step' s label t) : Run init step' labels s := by
  induction hr with
  | start h => exact .start h
  | next _ hst ih => exact .next ih (hstep _ _ _ hst)

/-- Every step of a run with the given labels has a property, in whatever way the steps go. -/
def Along (step : S → L → S → Prop) (P : S → L → S → Prop) : S → List L → Prop
  | _, [] => True
  | s, label :: rest => ∀ t, step s label t → P s label t ∧ Along step P t rest

/-- Two properties of steps that agree under an invariant agree along runs. The invariant may need
the property to be preserved. -/
theorem along_congr {P Q : S → L → S → Prop} (inv : S → Prop)
    (hPQ : ∀ s label t, inv s → step s label t → (P s label t ↔ Q s label t))
    (hinv : ∀ s label t, inv s → step s label t → P s label t → inv t) (labels : List L) :
    ∀ s, inv s → (Along step P s labels ↔ Along step Q s labels) := by
  induction labels with
  | nil => exact fun _ _ => Iff.rfl
  | cons label rest ih =>
    intro s hs
    refine forall₂_congr fun t hst => ?_
    rw [hPQ s label t hs hst]
    refine and_congr_right fun hQ => ?_
    exact ih t (hinv s label t hs hst ((hPQ s label t hs hst).2 hQ))

/-- The state that a function reaches under the labels of a run. -/
def follow (next : S → L → Option S) : S → List L → Option S
  | s, [] => some s
  | s, label :: rest => (next s label).bind fun t => follow next t rest

/-- A run goes on under the labels that a function follows. -/
theorem Run.follow {next : S → L → Option S}
    (hnext : ∀ s label t, next s label = some t → step s label t) (more : List L) :
    ∀ {labels : List L} {s t : S}, Run init step labels s → follow next s more = some t →
      Run init step (labels ++ more) t := by
  induction more with
  | nil =>
    intro labels s t hr h
    cases h
    rwa [List.append_nil]
  | cons label rest ih =>
    intro labels s t hr h
    obtain ⟨w, hw, h⟩ := Option.bind_eq_some_iff.1 h
    have := ih (hr.next (hnext s label w hw)) h
    rwa [List.append_assoc] at this

/-- A property of the steps along a run holds of the last step that a function takes. -/
theorem Along.last {P : S → L → S → Prop} {next : S → L → Option S}
    (hnext : ∀ s label t, next s label = some t → step s label t) (labels : List L) {label : L} :
    ∀ {s t u : S}, Along step P s (labels ++ [label]) → follow next s labels = some t →
      next t label = some u → P t label u := by
  induction labels with
  | nil =>
    intro s t u hal h hu
    cases h
    exact (hal u (hnext s label u hu)).1
  | cons first rest ih =>
    intro s t u hal h hu
    obtain ⟨w, hw, h⟩ := Option.bind_eq_some_iff.1 h
    exact ih (hal w (hnext s first w hw)).2 h hu

end MiniVisor.Lib
