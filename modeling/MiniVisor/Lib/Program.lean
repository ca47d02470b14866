import MiniVisor.Lib.Fault

/-!
# Programs with state and their weakest preconditions

A `Program` runs on a state, and ends in a value or in a fault. The state survives a fault, so what
a program did before it stopped can still be spoken of.

`wp x fail post` holds of the states from which `x` ends either in a value and a state that satisfy
`post`, or in a fault and a state that satisfy `fail`. The rules of this module are equivalences by
which `simp` runs straight-line code symbolically. `loop` runs a body over a list of inputs, one for
each iteration; `wp_loop` is the rule for it, with an invariant and with a condition that is only
known to hold before each iteration (`Throughout`).
-/

set_option autoImplicit false

namespace MiniVisor.Lib

abbrev Program (σ α : Type) := ExceptT Fault (StateM σ) α

section Rules

variable {σ τ α β : Type}

/-- The weakest precondition of a program. -/
def wp (x : Program σ α) (fail : Fault → σ → Prop) (post : α → σ → Prop) (s : σ) : Prop :=
  match x s with
  | (.ok a, t) => post a t
  | (.error fault, t) => fail fault t

variable {fail fail' : Fault → σ → Prop} {post post' : α → σ → Prop} {s : σ}

@[simp] theorem wp_pure (a : α) : wp (pure a : Program σ α) fail post s ↔ post a s := Iff.rfl

@[simp] theorem wp_throw (fault : Fault) :
    wp (throw fault : Program σ α) fail post s ↔ fail fault s := Iff.rfl

@[simp] theorem wp_get {post : σ → σ → Prop} :
    wp (get : Program σ σ) fail post s ↔ post s s := Iff.rfl

@[simp] theorem wp_modify (f : σ → σ) {post : Unit → σ → Prop} :
    wp (modify f : Program σ Unit) fail post s ↔ post () (f s) := Iff.rfl

theorem bind_apply (x : Program σ α) (f : α → Program σ β) (s : σ) :
    (x >>= f) s = match x s with
      | (.ok a, t) => f a t
      | (.error fault, t) => (.error fault, t) := by
  show (match x s with | (r, t) => ExceptT.bindCont f r t) = _
  rcases x s with ⟨_ | a, t⟩ <;> rfl

theorem bind_of_ok {x : Program σ α} {f : α → Program σ β} {s t : σ} {a : α}
    (h : x s = (.ok a, t)) : (x >>= f) s = f a t := by
  rw [bind_apply, h]

@[simp] theorem wp_bind (x : Program σ α) (f : α → Program σ β) {post : β → σ → Prop} :
    wp (x >>= f) fail post s ↔ wp x fail (fun a t => wp (f a) fail post t) s := by
  unfold wp
  rw [bind_apply]
  rcases x s with ⟨_ | a, t⟩ <;> rfl

@[simp] theorem wp_map (f : α → β) (x : Program σ α) {post : β → σ → Prop} :
    wp (f <$> x) fail post s ↔ wp x fail (fun a t => post (f a) t) s :=
  wp_bind x fun a => pure (f a)

@[simp] theorem wp_ite (c : Prop) [Decidable c] (x y : Program σ α) :
    wp (if c then x else y) fail post s ↔
      (c → wp x fail post s) ∧ (¬c → wp y fail post s) := by
  by_cases h : c <;> simp [h]

theorem wp_mono {x : Program σ α} (h : wp x fail post s)
    (hfail : ∀ fault t, fail fault t → fail' fault t) (hpost : ∀ a t, post a t → post' a t) :
    wp x fail' post' s := by
  unfold wp at h ⊢
  rcases hx : x s with ⟨fault | a, t⟩ <;> rw [hx] at h
  · exact hfail fault t h
  · exact hpost a t h

theorem wp_congr {x : Program σ α} (hpost : ∀ a t, post a t ↔ post' a t) :
    wp x fail post s ↔ wp x fail post' s :=
  ⟨fun h => wp_mono h (fun _ _ => id) fun a t => (hpost a t).1,
    fun h => wp_mono h (fun _ _ => id) fun a t => (hpost a t).2⟩

theorem wp_of_forall {x : Program σ α} (hfail : ∀ fault t, fail fault t)
    (hpost : ∀ a t, post a t) : wp x fail post s := by
  unfold wp
  rcases x s with ⟨fault | a, t⟩
  · exact hfail fault t
  · exact hpost a t

theorem wp_and {x : Program σ α} (h : wp x fail post s) (h' : wp x fail' post' s) :
    wp x (fun fault t => fail fault t ∧ fail' fault t) (fun a t => post a t ∧ post' a t) s := by
  unfold wp at h h' ⊢
  rcases hx : x s with ⟨fault | a, t⟩ <;> rw [hx] at h h' <;> exact ⟨h, h'⟩

/-- A program that ends in a value decides a proposition about it. -/
theorem wp_iff_of_total {x : Program σ α} {p : Prop}
    (h : wp x (fun _ _ => False) (fun a t => post a t ↔ p) s) :
    wp x (fun _ _ => False) post s ↔ p := by
  unfold wp at h ⊢
  rcases hx : x s with ⟨fault | a, t⟩ <;> rw [hx] at h
  · exact h.elim
  · exact h

/-- A precondition from a run of the program. -/
theorem wp_of_ok {x : Program σ α} {a : α} {t : σ} (hx : x s = (.ok a, t)) (h : post a t) :
    wp x fail post s := by
  unfold wp
  rwa [hx]

/-- A program that can only end in one fault. -/
theorem wp.fault {x : Program σ α} {fault : Fault}
    (h : wp x (fun fault' _ => fault' = fault) (fun _ _ => False) s) : (x s).1 = .error fault := by
  unfold wp at h
  rcases hx : x s with ⟨_ | a, t⟩ <;> rw [hx] at h
  · rw [h]
  · exact h.elim

/-- What a precondition says of a program that ended in a value. -/
theorem wp.ok {x : Program σ α} (h : wp x fail post s) {a : α} {t : σ} (hx : x s = (.ok a, t)) :
    post a t := by
  unfold wp at h
  rwa [hx] at h

/-- What a precondition says of a program that ended in a fault. -/
theorem wp.error {x : Program σ α} (h : wp x fail post s) {fault : Fault} {t : σ}
    (hx : x s = (.error fault, t)) : fail fault t := by
  unfold wp at h
  rwa [hx] at h

/-- What a precondition says of the last state, however the program ended. -/
theorem wp.state {x : Program σ α} {P : σ → Prop} (h : wp x (fun _ => P) (fun _ => P) s) :
    P (x s).2 := by
  unfold wp at h
  rcases hx : x s with ⟨_ | a, t⟩ <;> rw [hx] at h <;> exact h

/-- A program on a part of the state. -/
def zoom (part : σ → τ) (put : τ → σ → σ) (x : Program τ α) : Program σ α :=
  fun s => ((x (part s)).1, put (x (part s)).2 s)

@[simp] theorem wp_zoom {part : σ → τ} {put : τ → σ → σ} (x : Program τ α) :
    wp (zoom part put x) fail post s ↔
      wp x (fun fault t => fail fault (put t s)) (fun a t => post a (put t s)) (part s) := by
  unfold wp zoom
  rcases x (part s) with ⟨_ | a, t⟩ <;> rfl

end Rules

/-! ## Checked arithmetic -/

section Arithmetic

variable {σ : Type} {fail : Fault → σ → Prop} {post : Nat → σ → Prop} {s : σ}

/-- The result of an operation on unsigned words of the given width. -/
def fits (bits n : Nat) : Program σ Nat :=
  if n < 2 ^ bits then pure n else throw .overflow

/-- The difference of unsigned words. -/
def minus (a b : Nat) : Program σ Nat :=
  if b ≤ a then pure (a - b) else throw .overflow

/-- The remainder of unsigned words. -/
def rem (a b : Nat) : Program σ Nat :=
  if b = 0 then throw .divisionByZero else pure (a % b)

/-- The quotient of unsigned words. -/
def quot (a b : Nat) : Program σ Nat :=
  if b = 0 then throw .divisionByZero else pure (a / b)

@[simp] theorem wp_fits (bits n : Nat) : wp (fits bits n) fail post s ↔
    (n < 2 ^ bits → post n s) ∧ (¬n < 2 ^ bits → fail .overflow s) := by
  unfold fits
  rw [wp_ite, wp_pure, wp_throw]

@[simp] theorem wp_minus (a b : Nat) : wp (minus a b) fail post s ↔
    (b ≤ a → post (a - b) s) ∧ (¬b ≤ a → fail .overflow s) := by
  unfold minus
  rw [wp_ite, wp_pure, wp_throw]

@[simp] theorem wp_rem (a b : Nat) : wp (rem a b) fail post s ↔
    (b = 0 → fail .divisionByZero s) ∧ (¬b = 0 → post (a % b) s) := by
  unfold rem
  rw [wp_ite, wp_pure, wp_throw]

@[simp] theorem wp_quot (a b : Nat) : wp (quot a b) fail post s ↔
    (b = 0 → fail .divisionByZero s) ∧ (¬b = 0 → post (a / b) s) := by
  unfold quot
  rw [wp_ite, wp_pure, wp_throw]

end Arithmetic

/-! ## Properties that a program keeps -/

section Preserves

variable {σ α β : Type} {I : σ → Prop}

/-- The program keeps a property of the state, however it ends. -/
def Preserves (I : σ → Prop) (x : Program σ α) : Prop :=
  ∀ s, I s → wp x (fun _ => I) (fun _ => I) s

end Preserves

/-! ## Parts of the state that a program does not look at -/

section Blind

variable {σ τ α β : Type} {put : τ → σ → σ}

/-- What `put` puts into the state is neither read nor changed by the program. -/
def Blind (put : τ → σ → σ) (x : Program σ α) : Prop :=
  ∀ v s, x (put v s) = ((x s).1, put v (x s).2)

theorem blind_pure (a : α) : Blind put (pure a) := fun _ _ => rfl

theorem blind_throw (fault : Fault) : Blind put (throw fault : Program σ α) := fun _ _ => rfl

theorem blind_bind {x : Program σ α} {f : α → Program σ β} (hx : Blind put x)
    (hf : ∀ a, Blind put (f a)) : Blind put (x >>= f) := by
  intro v s
  rw [bind_apply, bind_apply, hx v s]
  rcases x s with ⟨_ | a, t⟩
  · rfl
  · exact hf a v t

theorem blind_ite {c : Prop} [Decidable c] {x y : Program σ α} (hx : Blind put x)
    (hy : Blind put y) : Blind put (if c then x else y) := by
  split
  · exact hx
  · exact hy

theorem blind_modify {f : σ → σ} (hf : ∀ v s, f (put v s) = put v (f s)) :
    Blind put (modify f) := by
  intro v s
  show (Except.ok (), f (put v s)) = (Except.ok (), put v (f s))
  rw [hf]

theorem blind_fits (bits n : Nat) : Blind put (fits bits n) :=
  blind_ite (blind_pure _) (blind_throw _)

theorem blind_minus (a b : Nat) : Blind put (minus a b) :=
  blind_ite (blind_pure _) (blind_throw _)

theorem blind_quot (a b : Nat) : Blind put (quot a b) :=
  blind_ite (blind_throw _) (blind_pure _)

end Blind

/-! ## Loops -/

section Loop

variable {σ ι β : Type}

/-- How an iteration ends: with the next iteration, behind the loop, or outside the function. -/
inductive Flow (β : Type) where
  | next (b : β)
  | stop (b : β)
  | exit

/-- A loop with an accumulator. Each iteration reads an input, and the loop is out of fuel when
there is none left. The result is absent when the function was left from inside the loop. -/
def loop (body : ι → β → Program σ (Flow β)) : List ι → β → Program σ (Option β)
  | [], _ => throw .outOfFuel
  | i :: rest, b => do
    match ← body i b with
    | .next b => loop body rest b
    | .stop b => return some b
    | .exit => return none

/-- A condition that holds before every iteration of a loop. -/
def Throughout (body : ι → β → Program σ (Flow β)) (C : ι → β → σ → Prop) :
    List ι → β → σ → Prop
  | [], _, _ => True
  | i :: rest, b, s => C i b s ∧
      ∀ b' t, body i b s = (.ok (.next b'), t) → Throughout body C rest b' t

instance decidableThroughout (body : ι → β → Program σ (Flow β)) (C : ι → β → σ → Prop)
    [∀ i b s, Decidable (C i b s)] :
    (inputs : List ι) → (b : β) → (s : σ) → Decidable (Throughout body C inputs b s)
  | [], _, _ => .isTrue trivial
  | i :: rest, b, s =>
    match hrun : body i b s with
    | (.ok (.next b'), t) =>
      haveI := decidableThroughout body C rest b' t
      decidable_of_iff (C i b s ∧ Throughout body C rest b' t)
        ⟨fun h => ⟨h.1, fun _ _ h' => by cases hrun.symm.trans h'; exact h.2⟩,
          fun h => ⟨h.1, h.2 b' t hrun⟩⟩
    | (.ok (.stop _), _) =>
      decidable_of_iff (C i b s) ⟨fun h => ⟨h, fun _ _ h' => by cases hrun.symm.trans h'⟩, And.left⟩
    | (.ok .exit, _) =>
      decidable_of_iff (C i b s) ⟨fun h => ⟨h, fun _ _ h' => by cases hrun.symm.trans h'⟩, And.left⟩
    | (.error _, _) =>
      decidable_of_iff (C i b s) ⟨fun h => ⟨h, fun _ _ h' => by cases hrun.symm.trans h'⟩, And.left⟩

/-- What an iteration has to establish: the invariant for the next one, or the postcondition. -/
def Flow.Meets (I : β → σ → Prop) (post : Option β → σ → Prop) (flow : Flow β) (t : σ) : Prop :=
  match flow with
  | .next b => I b t
  | .stop b => post (some b) t
  | .exit => post none t

/-- The rule for loops: each iteration from the invariant, under the condition, establishes what it
has to; running out of inputs is accounted for under the invariant. -/
theorem wp_loop {body : ι → β → Program σ (Flow β)} {C : ι → β → σ → Prop} {I : β → σ → Prop}
    {fail : Fault → σ → Prop} {post : Option β → σ → Prop}
    (hfuel : ∀ b s, I b s → fail .outOfFuel s)
    (hbody : ∀ i b s, I b s → C i b s → wp (body i b) fail (Flow.Meets I post) s) :
    ∀ (inputs : List ι) (b : β) (s : σ), I b s → Throughout body C inputs b s →
      wp (loop body inputs b) fail post s := by
  intro inputs
  induction inputs with
  | nil => exact fun b s hI _ => hfuel b s hI
  | cons i rest ih =>
    intro b s hI hC
    have hstep := hbody i b s hI hC.1
    rw [loop, wp_bind]
    unfold wp at hstep ⊢
    rcases hrun : body i b s with ⟨fault | flow, t⟩
    · rwa [hrun] at hstep
    · rw [hrun] at hstep
      cases flow with
      | next b' => exact ih b' t hstep (hC.2 b' t hrun)
      | stop b' => exact hstep
      | exit => exact hstep

theorem Throughout.mono {body : ι → β → Program σ (Flow β)} {C C' : ι → β → σ → Prop}
    (h : ∀ i b s, C i b s → C' i b s) :
    ∀ {inputs : List ι} {b : β} {s : σ}, Throughout body C inputs b s →
      Throughout body C' inputs b s
  | [], _, _, _ => trivial
  | _ :: _, _, _, hC => ⟨h _ _ _ hC.1, fun b' t hrun => (hC.2 b' t hrun).mono h⟩

/-- A condition that holds of every input holds throughout a loop. -/
theorem throughout_of_forall {body : ι → β → Program σ (Flow β)} {C : ι → β → σ → Prop}
    (inputs : List ι) (h : ∀ i ∈ inputs, ∀ b s, C i b s) (b : β) (s : σ) :
    Throughout body C inputs b s := by
  induction inputs generalizing b s with
  | nil => trivial
  | cons i rest ih =>
    exact ⟨h i List.mem_cons_self b s, fun b' t _ =>
      ih (fun j hj => h j (List.mem_cons_of_mem _ hj)) b' t⟩

end Loop

end MiniVisor.Lib
