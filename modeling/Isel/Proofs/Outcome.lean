/-!
# Outcomes of computations

Name resolution and instruction selection are computations that carry a state and
may end early.  The lemmas below say what such a computation does when it is run:
a sequence ends well exactly if both of its parts do, the second one from the state
that the first one leaves.
-/

namespace Isel.Proofs

variable {ε σ α β : Type}

@[simp] theorem pure_apply (a : α) (s : σ) : (pure a : EStateM ε σ α) s = .ok a s := rfl

@[simp] theorem throw_apply (e : ε) (s : σ) : (throw e : EStateM ε σ α) s = .error e s := rfl

@[simp] theorem modify_apply (f : σ → σ) (s : σ) :
    (modify f : EStateM ε σ PUnit) s = .ok ⟨⟩ (f s) := rfl

theorem bind_of_ok {x : EStateM ε σ α} {f : α → EStateM ε σ β} {s s' : σ} {a : α}
    (h : x s = .ok a s') : (x >>= f) s = f a s' := by
  show EStateM.bind x f s = _
  rw [EStateM.bind, h]

theorem bind_of_error {x : EStateM ε σ α} {f : α → EStateM ε σ β} {s s' : σ} {e : ε}
    (h : x s = .error e s') : (x >>= f) s = .error e s' := by
  show EStateM.bind x f s = _
  rw [EStateM.bind, h]

@[simp] theorem pure_bind_apply (a : α) (f : α → EStateM ε σ β) (s : σ) :
    ((pure a : EStateM ε σ α) >>= f) s = f a s := rfl

@[simp] theorem get_bind_apply (f : σ → EStateM ε σ β) (s : σ) :
    ((get : EStateM ε σ σ) >>= f) s = f s s := rfl

@[simp] theorem modify_bind_apply (g : σ → σ) (f : PUnit → EStateM ε σ β) (s : σ) :
    ((modify g : EStateM ε σ PUnit) >>= f) s = f ⟨⟩ (g s) := rfl

/-- **A sequence ends well** if both parts do. -/
theorem bind_eq_ok {x : EStateM ε σ α} {f : α → EStateM ε σ β} {s s'' : σ} {b : β} :
    (x >>= f) s = .ok b s'' ↔ ∃ a s', x s = .ok a s' ∧ f a s' = .ok b s'' := by
  cases h : x s with
  | ok a s' =>
    rw [bind_of_ok h]
    constructor
    · intro hf
      exact ⟨a, s', rfl, hf⟩
    · rintro ⟨a', t, he, hf⟩
      cases he
      exact hf
  | error e s' =>
    rw [bind_of_error h]
    constructor
    · intro hf
      cases hf
    · rintro ⟨a', t, he, -⟩
      cases he

theorem forM_cons_apply (f : α → EStateM ε σ PUnit) (x : α) (xs : List α) (s : σ) :
    (x :: xs).forM f s = (f x >>= fun _ => xs.forM f) s := rfl

/-- A loop that ends well, from the steps for each of its items: `I done s` is what holds in `s`
when the items `done` have been gone through. -/
theorem forM_induction {I : List α → σ → Prop} {f : α → EStateM ε σ PUnit} {u : PUnit}
    {xs : List α} (hstep : ∀ done x rest, xs = done ++ x :: rest → ∀ s s', I done s →
      f x s = .ok u s' → I (done ++ [x]) s') {s s' : σ} (hinit : I [] s)
    (h : xs.forM f s = .ok u s') : I xs s' := by
  suffices hrest : ∀ (rest done : List α) (s : σ), xs = done ++ rest → I done s →
      rest.forM f s = .ok u s' → I xs s' from hrest xs [] s rfl hinit h
  intro rest
  induction rest with
  | nil =>
    intro done s hsplit hs h
    cases h
    rw [List.append_nil] at hsplit
    exact hsplit ▸ hs
  | cons x rest ih =>
    intro done s hsplit hs h
    rw [forM_cons_apply, bind_eq_ok] at h
    obtain ⟨_, s₁, hx, h⟩ := h
    have hsplit' : xs = (done ++ [x]) ++ rest := by rw [hsplit, List.append_assoc]; rfl
    exact ih (done ++ [x]) s₁ hsplit' (hstep done x rest hsplit s s₁ hs hx) h

/-- What each step of a loop keeps, the loop keeps. -/
theorem forM_invariant {I : σ → Prop} {f : α → EStateM ε σ PUnit} {u : PUnit} {xs : List α}
    (hstep : ∀ x ∈ xs, ∀ s s', I s → f x s = .ok u s' → I s') {s s' : σ} (hinit : I s)
    (h : xs.forM f s = .ok u s') : I s' := by
  refine forM_induction (I := fun _ => I) (fun done x rest hsplit => ?_) hinit h
  exact hstep x (by rw [hsplit]; simp)

end Isel.Proofs
