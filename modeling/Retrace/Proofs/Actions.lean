import Mathlib.Tactic.Common

/-!
# Actions that may fail, step by step

A run is an action on a state: it ends with a result or with an error, and in both cases with a
state. The lemmas of this module take the steps of an action apart, so that later modules need not
unfold the monad: what each step does to a state, and when a sequence of steps has a result.
-/

namespace Retrace.Actions

variable {ε σ α β : Type}

theorem bind_apply (x : EStateM ε σ α) (f : α → EStateM ε σ β) (s : σ) :
    (x >>= f) s = match x s with
      | .ok a t => f a t
      | .error e t => .error e t := rfl

theorem map_apply (f : α → β) (x : EStateM ε σ α) (s : σ) :
    (f <$> x) s = match x s with
      | .ok a t => .ok (f a) t
      | .error e t => .error e t := rfl

@[simp] theorem pure_apply (a : α) (s : σ) : (pure a : EStateM ε σ α) s = .ok a s := rfl

@[simp] theorem throw_apply (e : ε) (s : σ) : (throw e : EStateM ε σ α) s = .error e s := rfl

@[simp] theorem get_apply (s : σ) : (get : EStateM ε σ σ) s = .ok s s := rfl

@[simp] theorem modify_apply (f : σ → σ) (s : σ) :
    (modify f : EStateM ε σ PUnit) s = .ok () (f s) := rfl

@[simp] theorem ofExcept_ok_apply (a : α) (s : σ) :
    (MonadExcept.ofExcept (.ok a) : EStateM ε σ α) s = .ok a s := rfl

@[simp] theorem ofExcept_error_apply (e : ε) (s : σ) :
    (MonadExcept.ofExcept (.error e) : EStateM ε σ α) s = .error e s := rfl

/-- Two steps have a result if the first has one, and the second from there. -/
theorem bind_eq_ok {x : EStateM ε σ α} {f : α → EStateM ε σ β} {s u : σ} {b : β} :
    (x >>= f) s = .ok b u ↔ ∃ a t, x s = .ok a t ∧ f a t = .ok b u := by
  rw [bind_apply]
  constructor
  · intro h
    split at h
    · rename_i a t hx
      exact ⟨a, t, hx, h⟩
    · cases h
  · rintro ⟨a, t, hx, hf⟩
    rw [hx]
    exact hf

/-- Two steps fail if the first fails, or the second from where the first ends. -/
theorem bind_eq_error {x : EStateM ε σ α} {f : α → EStateM ε σ β} {s u : σ} {e : ε} :
    (x >>= f) s = .error e u ↔ x s = .error e u ∨ ∃ a t, x s = .ok a t ∧ f a t = .error e u := by
  rw [bind_apply]
  cases x s <;> simp

theorem pure_eq_ok {a b : α} {s t : σ} : (pure a : EStateM ε σ α) s = .ok b t ↔ a = b ∧ s = t := by
  rw [pure_apply, EStateM.Result.ok.injEq]

theorem throw_ne_ok {e : ε} {s t : σ} {b : β} : (throw e : EStateM ε σ β) s ≠ .ok b t := by
  simp

theorem ofExcept_eq_ok {r : Except ε α} {s t : σ} {b : α} :
    (MonadExcept.ofExcept r : EStateM ε σ α) s = .ok b t ↔ r = .ok b ∧ s = t := by
  cases r <;> simp

theorem except_bind_eq_ok {r : Except ε α} {f : α → Except ε β} {b : β} :
    (r >>= f) = .ok b ↔ ∃ a, r = .ok a ∧ f a = .ok b := by
  cases r <;> simp [bind, Except.bind]

theorem except_bind_eq_error {r : Except ε α} {f : α → Except ε β} {e : ε} :
    (r >>= f) = .error e ↔ r = .error e ∨ ∃ a, r = .ok a ∧ f a = .error e := by
  cases r <;> simp [bind, Except.bind]

/-- If some steps in a row fail, then one of them does. -/
theorem exists_of_mapM_eq_error {f : α → EStateM ε σ β} {l : List α} {s u : σ} {e : ε}
    (h : l.mapM f s = .error e u) : ∃ a ∈ l, ∃ t, f a t = .error e u := by
  induction l generalizing s with
  | nil => cases h
  | cons a l ih =>
    rw [List.mapM_cons] at h
    obtain h | ⟨b, t, -, h⟩ := bind_eq_error.mp h
    · exact ⟨a, List.mem_cons_self, s, h⟩
    · obtain h | ⟨_, _, -, h⟩ := bind_eq_error.mp h
      · obtain ⟨c, hc, hfails⟩ := ih h
        exact ⟨c, List.mem_cons_of_mem a hc, hfails⟩
      · cases h

theorem mapM_eq_ok_map {f : α → Except ε β} {g : α → β} {l : List α}
    (h : ∀ a ∈ l, f a = .ok (g a)) : l.mapM f = .ok (l.map g) := by
  induction l with
  | nil => rfl
  | cons a l ih =>
    rw [List.forall_mem_cons] at h
    rw [List.mapM_cons, h.1, ih h.2]
    rfl

/-- A step that is guarded by an error needs the guard to fail. -/
theorem ite_error_eq_ok {c : Prop} [Decidable c] {x : EStateM ε σ α}
    (hx : ∀ s a t, x s ≠ .ok a t) {k : EStateM ε σ β} {s t : σ} {b : β} :
    (if c then x >>= fun _ => k else k) s = .ok b t ↔ ¬c ∧ k s = .ok b t := by
  by_cases hc : c
  · simp only [hc, if_true, not_true_eq_false, false_and, iff_false]
    intro h
    obtain ⟨a, u, hu, -⟩ := bind_eq_ok.mp h
    exact hx s a u hu
  · simp only [hc, if_false, not_false_eq_true, true_and]

theorem exists_of_toOption_any {r : Except ε α} {p : α → Bool} (h : r.toOption.any p = true) :
    ∃ a, r = .ok a ∧ p a = true := by
  cases r with
  | error e => cases h
  | ok a => exact ⟨a, rfl, h⟩

/-- Whether an action has a result. -/
def completes (x : EStateM ε σ α) (s : σ) : Bool :=
  match x s with
  | .ok _ _ => true
  | .error _ _ => false

theorem exists_of_completes {x : EStateM ε σ α} {s : σ} (h : completes x s = true) :
    ∃ a t, x s = .ok a t := by
  unfold completes at h
  split at h
  · rename_i a t hx
    exact ⟨a, t, hx⟩
  · cases h

/-- The error with which an action fails, if it does. -/
def error? (x : EStateM ε σ α) (s : σ) : Option ε :=
  match x s with
  | .ok _ _ => none
  | .error e _ => some e

theorem exists_of_error? {x : EStateM ε σ α} {s : σ} {e : ε} (h : error? x s = some e) :
    ∃ t, x s = .error e t := by
  unfold error? at h
  split at h
  · cases h
  · rename_i t hx
    cases h
    exact ⟨t, hx⟩

/-- The state that an action leaves behind, whether it has a result or not. -/
def after (x : EStateM ε σ α) (s : σ) : σ :=
  match x s with
  | .ok _ t => t
  | .error _ t => t

theorem after_of_ok {x : EStateM ε σ α} {s t : σ} {a : α} (h : x s = .ok a t) : after x s = t := by
  rw [after, h]

theorem after_of_error {x : EStateM ε σ α} {s t : σ} {e : ε} (h : x s = .error e t) :
    after x s = t := by
  rw [after, h]

/-- What holds at the end of two steps: the second is made only if the first has a result. -/
theorem after_bind {P : σ → Prop} {x : EStateM ε σ α} {f : α → EStateM ε σ β} {s : σ}
    (hx : P (after x s)) (hf : ∀ a t, x s = .ok a t → P (after (f a) t)) :
    P (after (x >>= f) s) := by
  unfold after at *
  rw [bind_apply]
  cases hxs : x s with
  | ok a t => exact hf a t hxs
  | error e t =>
    rw [hxs] at hx
    exact hx

/-! ## Outcomes in a larger state -/

section Embed

variable {τ : Type} {f : σ → τ}

/-- An outcome with its state put into another one. -/
def embed (f : σ → τ) : EStateM.Result ε σ α → EStateM.Result ε τ α
  | .ok a s => .ok a (f s)
  | .error e s => .error e (f s)

@[simp] theorem embed_ok (a : α) (s : σ) :
    embed f (.ok a s : EStateM.Result ε σ α) = .ok a (f s) := rfl

@[simp] theorem embed_error (e : ε) (s : σ) :
    embed f (.error e s : EStateM.Result ε σ α) = .error e (f s) := rfl

theorem embed_eq_ok {r : EStateM.Result ε σ α} {a : α} {t : τ} :
    embed f r = .ok a t ↔ ∃ s, r = .ok a s ∧ t = f s := by
  cases r <;> simp [eq_comm]

theorem embed_eq_error {r : EStateM.Result ε σ α} {e : ε} {t : τ} :
    embed f r = .error e t ↔ ∃ s, r = .error e s ∧ t = f s := by
  cases r <;> simp [eq_comm]

end Embed

/-! ## What every step of an action respects -/

/-- An action moves along `R` from the state `s`, also if it fails. -/
def Moves (R : σ → σ → Prop) (x : EStateM ε σ α) (s : σ) : Prop := R s (after x s)

section Moves

variable {R : σ → σ → Prop}

theorem Moves.ok {x : EStateM ε σ α} {s t : σ} {a : α} (h : Moves R x s) (hx : x s = .ok a t) :
    R s t := by
  rwa [Moves, after_of_ok hx] at h

/-- Two steps move along a transitive relation if both do. -/
theorem Moves.bind (htrans : ∀ {s t u}, R s t → R t u → R s u) {x : EStateM ε σ α}
    {f : α → EStateM ε σ β} {s : σ} (hx : Moves R x s)
    (hf : ∀ a t, x s = .ok a t → Moves R (f a) t) : Moves R (x >>= f) s :=
  after_bind hx fun a t hxs => htrans (hx.ok hxs) (hf a t hxs)

theorem Moves.of_eq (hrefl : ∀ s, R s s) {x : EStateM ε σ α} {s : σ} (hx : after x s = s) :
    Moves R x s := by
  rw [Moves, hx]
  exact hrefl s

end Moves

end Retrace.Actions
