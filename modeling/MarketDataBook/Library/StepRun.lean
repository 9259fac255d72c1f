import Mathlib.Tactic.ByContra

/-! Runs of a step function over a list of actions. A run is a left fold; a state it
visits is the fold over a prefix of the actions. -/
namespace StepRun
variable {σ α : Type*} {step : σ → α → σ} {s : σ} {as : List α}

/-- Every action meets `P` in the state it is taken from. -/
def Along (step : σ → α → σ) (P : σ → α → Prop) : σ → List α → Prop
  | _, [] => True
  | s, a::as => P s a ∧ Along step P (step s a) as

instance decidableAlong {P : σ → α → Prop} [∀ s a, Decidable (P s a)] :
    (s : σ) → (as : List α) → Decidable (Along step P s as)
  | _, [] => isTrue trivial
  | s, a::as =>
    have := decidableAlong (P := P) (step s a) as
    inferInstanceAs (Decidable (P s a ∧ Along step P (step s a) as))

theorem Along.mono {P Q : σ → α → Prop} (h : Along step P s as) (hpq : ∀ s a, P s a → Q s a) :
    Along step Q s as := by
  induction as generalizing s with
  | nil => trivial
  | cons a as ih => exact ⟨hpq s a h.1, ih h.2⟩

/-- Two conditions that agree wherever an invariant holds which either of them keeps. -/
theorem along_iff_along {P Q : σ → α → Prop} {I : σ → Prop} (hi : I s)
    (hpq : ∀ s a, I s → (P s a ↔ Q s a)) (hkeep : ∀ s a, I s → Q s a → I (step s a)) :
    Along step P s as ↔ Along step Q s as := by
  induction as generalizing s with
  | nil => exact Iff.rfl
  | cons a as ih =>
    constructor
    · intro h
      have hq : Q s a := (hpq s a hi).mp h.1
      exact ⟨hq, (ih (hkeep s a hi hq)).mp h.2⟩
    · intro h
      exact ⟨(hpq s a hi).mpr h.1, (ih (hkeep s a hi h.1)).mpr h.2⟩

theorem Along.take {P : σ → α → Prop} (h : Along step P s as) (k : Nat) :
    Along step P s (as.take k) := by
  induction as generalizing s k with
  | nil => simpa using h
  | cons a as ih =>
    cases k with
    | zero => trivial
    | succ k => exact ⟨h.1, ih h.2 k⟩

theorem Along.append {P : σ → α → Prop} {bs : List α} (h : Along step P s as)
    (h' : Along step P (as.foldl step s) bs) : Along step P s (as ++ bs) := by
  induction as generalizing s with
  | nil => exact h'
  | cons a as ih => exact ⟨h.1, ih h.2 h'⟩

/-- An invariant that every action meeting `P` keeps. -/
theorem Along.invariant {P : σ → α → Prop} {I : σ → Prop} (h : Along step P s as) (hi : I s)
    (hstep : ∀ s a, I s → P s a → I (step s a)) : I (as.foldl step s) := by
  induction as generalizing s with
  | nil => exact hi
  | cons a as ih => exact ih h.2 (hstep s a hi h.1)

/-- What every action meeting `P` meets besides wherever an invariant holds. -/
theorem Along.of_invariant {P Q : σ → α → Prop} {I : σ → Prop} (h : Along step P s as) (hi : I s)
    (hstep : ∀ s a, I s → P s a → I (step s a)) (hq : ∀ s a, I s → P s a → Q s a) :
    Along step Q s as := by
  induction as generalizing s with
  | nil => trivial
  | cons a as ih => exact ⟨hq s a hi h.1, ih h.2 (hstep s a hi h.1)⟩

/-- Two step functions run side by side keep a relation that every action meeting `P` keeps. -/
theorem Along.simulation {τ : Type*} {step' : τ → α → τ} {t : τ} {P : σ → α → Prop}
    {R : σ → τ → Prop} (h : Along step P s as) (hr : R s t)
    (hstep : ∀ s t a, R s t → P s a → R (step s a) (step' t a)) :
    R (as.foldl step s) (as.foldl step' t) := by
  induction as generalizing s t with
  | nil => exact hr
  | cons a as ih => exact ih h.2 (hstep s t a hr h.1)

/-- Refinement with stuttering: each action is answered by a list of actions of the other system,
which may be empty. -/
theorem refines {τ β : Type*} {step' : τ → β → τ} {t : τ} {R : σ → τ → Prop} (hr : R s t)
    (as : List α) (hstep : ∀ s t a, R s t → ∃ bs, R (step s a) (List.foldl step' t bs)) :
    ∃ bs, R (as.foldl step s) (List.foldl step' t bs) := by
  induction as generalizing s t with
  | nil => exact ⟨[], hr⟩
  | cons a as ih =>
    obtain ⟨bs, hbs⟩ := hstep s t a hr
    obtain ⟨cs, hcs⟩ := ih hbs
    exact ⟨bs ++ cs, by rwa [List.foldl_append]⟩

theorem invariant {I : σ → Prop} (as : List α) (hi : I s)
    (hstep : ∀ s a, I s → I (step s a)) : I (as.foldl step s) := by
  induction as generalizing s with
  | nil => exact hi
  | cons a as ih => exact ih (hstep s a hi)

theorem invariant_replicate {a : α} {I : σ → Prop} (n : Nat) (hi : I s)
    (hstep : ∀ s, I s → I (step s a)) : I ((List.replicate n a).foldl step s) := by
  induction n generalizing s with
  | zero => exact hi
  | succ n ih => exact ih (hstep s hi)

/-- A condition is exact for a property of all visited states of a run whose actions are
legal: the legal actions that meet it keep an invariant which gives the property, and any other
legal action breaks the property at once. -/
theorem visited_iff_along_of_legal {V P : σ → α → Prop} {I Q : σ → Prop}
    (hv : Along step V s as) (hi : I s) (hq : ∀ s, I s → Q s)
    (hkeep : ∀ s a, I s → V s a → P s a → I (step s a))
    (hbreak : ∀ s a, I s → V s a → ¬ P s a → ¬ Q (step s a)) :
    (∀ k, Q ((as.take k).foldl step s)) ↔ Along step P s as := by
  induction as generalizing s with
  | nil => simpa [Along] using hq s hi
  | cons a as ih =>
    constructor
    · intro h
      have hp : P s a := by
        by_contra hp
        exact hbreak s a hi hv.1 hp (h 1)
      exact ⟨hp, (ih hv.2 (hkeep s a hi hv.1 hp)).mp fun k => h (k+1)⟩
    · intro h k
      cases k with
      | zero => exact hq s hi
      | succ k => exact (ih hv.2 (hkeep s a hi hv.1 h.1)).mpr h.2 k

theorem along_true (s : σ) (as : List α) : Along step (fun _ _ => True) s as := by
  induction as generalizing s with
  | nil => trivial
  | cons a as ih => exact ⟨trivial, ih (step s a)⟩

theorem visited_iff_along {P : σ → α → Prop} {I Q : σ → Prop} (hi : I s)
    (hq : ∀ s, I s → Q s) (hkeep : ∀ s a, I s → P s a → I (step s a))
    (hbreak : ∀ s a, I s → ¬ P s a → ¬ Q (step s a)) :
    (∀ k, Q ((as.take k).foldl step s)) ↔ Along step P s as :=
  visited_iff_along_of_legal (along_true s as) hi hq (fun s a h _ => hkeep s a h)
    fun s a h _ => hbreak s a h

/-- A property that an action keeps exactly when it meets `P`, and that is never regained. -/
theorem foldl_iff_along {P : σ → α → Prop} {I Q : σ → Prop} (hi : I s)
    (hinv : ∀ s a, I s → I (step s a)) (hstep : ∀ s a, I s → (Q (step s a) ↔ Q s ∧ P s a)) :
    Q (as.foldl step s) ↔ Q s ∧ Along step P s as := by
  induction as generalizing s with
  | nil => exact ⟨fun h => ⟨h, trivial⟩, And.left⟩
  | cons a as ih =>
    calc
      Q ((a::as).foldl step s) ↔ Q (step s a) ∧ Along step P (step s a) as := ih (hinv s a hi)
      _ ↔ Q s ∧ Along step P s (a::as) := by rw [hstep s a hi, and_assoc]; rfl

/-- One action taken over and over reaches `D`: in every state short of it the action keeps
what `W` says and lowers the weight. -/
theorem reaches {a : α} {D : σ → Prop} {W : σ → Nat → Prop}
    (hstep : ∀ s n, W s n → ¬ D s → ∃ m < n, W (step s a) m) {n : Nat} (h : W s n) :
    ∃ k, D ((List.replicate k a).foldl step s) := by
  induction n using Nat.strongRecOn generalizing s with
  | ind n ih =>
    by_cases hd : D s
    · exact ⟨0, hd⟩
    · obtain ⟨m, hm, hw⟩ := hstep s n h hd
      obtain ⟨k, hk⟩ := ih m hm hw
      exact ⟨k+1, hk⟩

/-- The same with a round of actions, chosen by the state, in place of the one action. -/
theorem reaches_by_rounds {D : σ → Prop} {W : σ → Nat → Prop}
    (hround : ∀ s n, W s n → ¬ D s → ∃ round, ∃ m < n, W (List.foldl step s round) m) {n : Nat}
    (h : W s n) : ∃ as, D (List.foldl step s as) ∧ ∃ m, W (List.foldl step s as) m := by
  induction n using Nat.strongRecOn generalizing s with
  | ind n ih =>
    by_cases hd : D s
    · exact ⟨[], hd, n, h⟩
    · obtain ⟨round, m, hm, hw⟩ := hround s n h hd
      obtain ⟨as, has⟩ := ih m hm hw
      exact ⟨round ++ as, by rwa [List.foldl_append]⟩

end StepRun
