import Mathlib

/-! Guarded state machines whose atomic sections may stop at a failed assertion.
Reachability, the invariant rule and simulations are stated once, for arbitrary
state and action types; nothing here refers to a particular kernel. -/
namespace NachOS
namespace StateMachine

variable {σ τ α β : Type}

/-- Why an action has no successor state: it is not enabled there, the code it runs
stops at a failed assertion, it leaves the objects it may access, or it shuts the whole
system down. -/
inductive Fault
  | blocked | assertion | undefined | halted
  deriving DecidableEq, Repr

/-- `check c` is an assertion of the modelled code. -/
def check (c : Prop) [Decidable c] : Except Fault Unit :=
  if c then .ok () else .error .assertion

/-- `require c` restricts an action to the states in which it can be taken. -/
def require (c : Prop) [Decidable c] : Except Fault Unit :=
  if c then .ok () else .error .blocked

/-- `inBounds c`: an access whose effect is modelled only if `c` holds. -/
def inBounds (c : Prop) [Decidable c] : Except Fault Unit :=
  if c then .ok () else .error .undefined

@[simp] theorem check_of {c : Prop} [Decidable c] (h : c) : check c = .ok () := by
  simp [check,h]

@[simp] theorem require_of {c : Prop} [Decidable c] (h : c) : require c = .ok () := by
  simp [require,h]

@[simp] theorem inBounds_of {c : Prop} [Decidable c] (h : c) : inBounds c = .ok () := by
  simp [inBounds,h]

theorem require_bind_ok {c : Prop} [Decidable c] {f : Unit → Except Fault σ} {s : σ} :
    (require c >>= f) = .ok s ↔ c ∧ f () = .ok s := by
  by_cases h : c <;> simp [require,h,bind,Except.bind]

theorem check_bind_ok {c : Prop} [Decidable c] {f : Unit → Except Fault σ} {s : σ} :
    (check c >>= f) = .ok s ↔ c ∧ f () = .ok s := by
  by_cases h : c <;> simp [check,h,bind,Except.bind]

theorem inBounds_bind_ok {c : Prop} [Decidable c] {f : Unit → Except Fault σ} {s : σ} :
    (inBounds c >>= f) = .ok s ↔ c ∧ f () = .ok s := by
  by_cases h : c <;> simp [inBounds,h,bind,Except.bind]

theorem require_bind_assertion {c : Prop} [Decidable c] {f : Unit → Except Fault σ} :
    (require c >>= f) = .error .assertion ↔ c ∧ f () = .error .assertion := by
  by_cases h : c <;> simp [require,h,bind,Except.bind]

theorem check_bind_assertion {c : Prop} [Decidable c] {f : Unit → Except Fault σ} :
    (check c >>= f) = .error .assertion ↔ (c → f () = .error .assertion) := by
  by_cases h : c <;> simp [check,h,bind,Except.bind]

theorem bind_ok {ε γ : Type} {x : Except ε γ} {f : γ → Except ε σ} {s : σ} :
    (x >>= f) = .ok s ↔ ∃ a, x = .ok a ∧ f a = .ok s := by
  cases x <;> simp [bind,Except.bind]

theorem bind_of_ok {ε γ : Type} {x : Except ε γ} {a : γ} (h : x = .ok a)
    (f : γ → Except ε σ) : (x >>= f) = f a := by
  subst h
  rfl

theorem ok_of_toOption {x : Except Fault σ} {s : σ} (h : x.toOption = some s) : x = .ok s := by
  cases x with
  | error e => cases h
  | ok t =>
    cases h
    rfl

/-- Composing what two parts of an action are known to do. -/
theorem exists_bind {γ : Type} {x : Except Fault γ} {f : γ → Except Fault σ} {a : γ}
    {P : σ → Prop} (hx : x = .ok a) (hf : ∃ s, f a = .ok s ∧ P s) :
    ∃ s, (x >>= f) = .ok s ∧ P s := by
  subst hx
  exact hf

theorem bind_assertion {γ : Type} {x : Except Fault γ} {f : γ → Except Fault σ} :
    (x >>= f) = .error .assertion ↔
      x = .error .assertion ∨ ∃ a, x = .ok a ∧ f a = .error .assertion := by
  cases x <;> simp [bind,Except.bind]

/-- An assertion that fails in such an action fails in its first part. -/
theorem bind_pure_assertion {γ : Type} {x : Except Fault γ} {f : γ → σ} :
    (x >>= fun a => pure (f a)) = .error .assertion ↔ x = .error .assertion := by
  cases x <;> simp [bind,Except.bind,pure,Except.pure]

/-- A machine is a set of initial states and a partial step function. -/
structure Machine (σ α : Type) where
  initial : σ → Prop
  step : σ → α → Except Fault σ

namespace Machine

variable (M : Machine σ α)

/-- Execute a finite schedule. -/
def run (s : σ) : List α → Except Fault σ
  | [] => .ok s
  | a :: as => M.step s a >>= fun t => run t as

@[simp] theorem run_nil (s : σ) : M.run s [] = .ok s := rfl

theorem run_cons_ok {s t : σ} {a : α} {as : List α} :
    M.run s (a :: as) = .ok t ↔ ∃ m, M.step s a = .ok m ∧ M.run m as = .ok t := bind_ok

theorem run_append_ok {s t : σ} {as bs : List α} :
    M.run s (as ++ bs) = .ok t ↔ ∃ m, M.run s as = .ok m ∧ M.run m bs = .ok t := by
  induction as generalizing s with
  | nil => simp
  | cons a as ih =>
    simp only [List.cons_append,run_cons_ok,ih]
    constructor
    · rintro ⟨m,h1,n,h2,h3⟩; exact ⟨n,⟨m,h1,h2⟩,h3⟩
    · rintro ⟨n,⟨m,h1,h2⟩,h3⟩; exact ⟨m,h1,n,h2,h3⟩

/-- The invariant rule for a run: what every step keeps holds at its end. -/
theorem run_invariant {P : σ → Prop} (hstep : ∀ s a t, P s → M.step s a = .ok t → P t)
    {s t : σ} {as : List α} (hs : P s) (h : M.run s as = .ok t) : P t := by
  induction as generalizing s with
  | nil =>
    cases h
    exact hs
  | cons a as ih =>
    obtain ⟨m,hm,h⟩ := M.run_cons_ok.mp h
    exact ih (hstep s a m hs hm) h

/-- The states some finite schedule leads to from an initial state. -/
inductive Reachable : σ → Prop
  | start {s : σ} : M.initial s → Reachable s
  | step {s t : σ} {a : α} : Reachable s → M.step s a = .ok t → Reachable t

variable {M}

theorem Reachable.run {s t : σ} {as : List α} (hs : M.Reachable s) (h : M.run s as = .ok t) :
    M.Reachable t := by
  induction as generalizing s with
  | nil =>
    have he : s = t := by simpa using h
    exact he ▸ hs
  | cons a as ih =>
    obtain ⟨m,h1,h2⟩ := M.run_cons_ok.mp h
    exact ih (hs.step h1) h2

theorem reachable_iff_run {t : σ} :
    M.Reachable t ↔ ∃ s as, M.initial s ∧ M.run s as = .ok t := by
  constructor
  · intro h
    induction h with
    | @start s h => exact ⟨s,[],h,rfl⟩
    | @step s t a _ hstep ih =>
      obtain ⟨s₀,as,hi,hr⟩ := ih
      refine ⟨s₀,as ++ [a],hi,M.run_append_ok.mpr ⟨s,hr,?_⟩⟩
      exact M.run_cons_ok.mpr ⟨t,hstep,rfl⟩
  · rintro ⟨s,as,hi,hr⟩
    exact (Reachable.start hi).run hr

/-- The invariant rule: what holds initially and is kept by every step holds throughout. -/
theorem Reachable.invariant {P : σ → Prop} (h₀ : ∀ s, M.initial s → P s)
    (hstep : ∀ s a t, P s → M.step s a = .ok t → P t) {s : σ} (h : M.Reachable s) : P s := by
  induction h with
  | start hi => exact h₀ _ hi
  | step _ ht ih => exact hstep _ _ _ ih ht

/-- The states that runs lead to whose steps all meet the condition `C`. -/
inductive ReachableWith (M : Machine σ α) (C : σ → α → Prop) : σ → Prop
  | start {s : σ} : M.initial s → ReachableWith M C s
  | step {s t : σ} {a : α} : ReachableWith M C s → C s a → M.step s a = .ok t →
      ReachableWith M C t

theorem ReachableWith.reachable {C : σ → α → Prop} {s : σ} (h : M.ReachableWith C s) :
    M.Reachable s := by
  induction h with
  | start hi => exact .start hi
  | step _ _ ht ih => exact .step ih ht

theorem ReachableWith.invariant {C : σ → α → Prop} {P : σ → Prop} (h₀ : ∀ s, M.initial s → P s)
    (hstep : ∀ s a t, P s → C s a → M.step s a = .ok t → P t) {s : σ}
    (h : M.ReachableWith C s) : P s := by
  induction h with
  | start hi => exact h₀ _ hi
  | step _ hc ht ih => exact hstep _ _ _ ih hc ht

/-- Execute a schedule whose actions are tested for the condition `C`. -/
def runWith (M : Machine σ α) (C : σ → α → Prop) [∀ s a, Decidable (C s a)] (s : σ) :
    List α → Except Fault σ
  | [] => .ok s
  | a :: as => do
    require (C s a)
    let t ← M.step s a
    runWith M C t as

theorem ReachableWith.runWith {C : σ → α → Prop} [∀ s a, Decidable (C s a)] {s t : σ}
    {as : List α} (hs : M.ReachableWith C s) (h : M.runWith C s as = .ok t) :
    M.ReachableWith C t := by
  induction as generalizing s with
  | nil =>
    cases h
    exact hs
  | cons a as ih =>
    obtain ⟨hc,h⟩ := require_bind_ok.mp h
    obtain ⟨m,hm,h⟩ := bind_ok.mp h
    exact ih (hs.step hc hm) h

/-- A simulation maps every step of the concrete machine, taken from a reachable
state, to a finite schedule of the abstract one. -/
structure Simulation (M : Machine σ α) (N : Machine τ β) where
  abs : σ → τ
  initial : ∀ s, M.initial s → N.initial (abs s)
  step : ∀ s a t, M.Reachable s → M.step s a = .ok t → ∃ bs, N.run (abs s) bs = .ok (abs t)

theorem Simulation.reachable {N : Machine τ β} (f : Simulation M N) {s : σ}
    (h : M.Reachable s) : N.Reachable (f.abs s) := by
  induction h with
  | start hi => exact .start (f.initial _ hi)
  | step hs ht ih =>
    obtain ⟨bs,hb⟩ := f.step _ _ _ hs ht
    exact ih.run hb

end Machine

/-! Calls that answer. -/

/-- The answers of a run and the state it ends in. -/
def answers (f : σ → α → Except Fault (β × σ)) (s : σ) : List α → Except Fault (List β × σ)
  | [] => .ok ([],s)
  | a :: as => do
    let (b,t) ← f s a
    let (bs,t) ← answers f t as
    return (b :: bs,t)

/-- Two calls fail alike, or answer alike and leave related states. -/
inductive Agree (R : σ → τ → Prop) : Except Fault (β × σ) → Except Fault (β × τ) → Prop
  | ok (b : β) {s : σ} {t : τ} (h : R s t) : Agree R (.ok (b,s)) (.ok (b,t))
  | error (e : Fault) : Agree R (.error e) (.error e)

/-- Steps that agree make runs that agree. -/
theorem Agree.answers {R : σ → τ → Prop} {f : σ → α → Except Fault (β × σ)}
    {g : τ → α → Except Fault (β × τ)} (hstep : ∀ s t a, R s t → Agree R (f s a) (g t a))
    {s : σ} {t : τ} (h : R s t) (as : List α) :
    Agree R (answers f s as) (answers g t as) := by
  induction as generalizing s t with
  | nil => exact .ok [] h
  | cons a as ih =>
    unfold StateMachine.answers
    generalize f s a = x,g t a = y,hstep s t a h = hxy
    cases hxy with
    | error e => exact .error e
    | ok b h =>
      simp only [bind,Except.bind]
      generalize StateMachine.answers f _ as = x,StateMachine.answers g _ as = y,ih h = hxy
      cases hxy with
      | error e => exact .error e
      | ok bs h => exact .ok (b :: bs) h

theorem answers_error {f : σ → α → Except Fault (β × σ)} {P : Fault → Prop}
    (hstep : ∀ s a e, f s a = .error e → P e) {s : σ} {as : List α} {e : Fault}
    (h : answers f s as = .error e) : P e := by
  induction as generalizing s with
  | nil => cases h
  | cons a as ih =>
    unfold StateMachine.answers at h
    cases hf : f s a with
    | error e' =>
      rw [hf] at h
      cases h
      exact hstep s a e hf
    | ok r =>
      rw [bind_of_ok hf] at h
      cases hrest : StateMachine.answers f r.2 as with
      | error e' =>
        simp only [hrest,bind,Except.bind] at h
        cases h
        exact ih hrest
      | ok r' =>
        simp only [hrest,bind,Except.bind] at h
        cases h

/-- The answers and the last state that a specification allows for a sequence of calls. -/
inductive Allows (spec : τ → α → β → τ → Prop) : τ → List α → List β → τ → Prop
  | nil {t : τ} : Allows spec t [] [] t
  | cons {t t' t'' : τ} {a : α} {as : List α} {b : β} {bs : List β} :
      spec t a b t' → Allows spec t' as bs t'' → Allows spec t (a :: as) (b :: bs) t''

/-- Every call of the sequence meets a condition, whatever the specification allows the calls
before it to do. -/
def Meets (spec : τ → α → β → τ → Prop) (condition : τ → α → Prop) : τ → List α → Prop
  | _,[] => True
  | t,a :: as => condition t a ∧ ∀ b t', spec t a b t' → Meets spec condition t' as

/-- Calls that succeed and meet a specification under a condition make such runs. -/
theorem Allows.answers {R : σ → τ → Prop} {spec : τ → α → β → τ → Prop}
    {condition : τ → α → Prop} {f : σ → α → Except Fault (β × σ)}
    (hstep : ∀ s t a, R s t → condition t a →
      ∃ b s' t', f s a = .ok (b,s') ∧ spec t a b t' ∧ R s' t')
    {s : σ} {t : τ} (h : R s t) {as : List α} (hmeets : Meets spec condition t as) :
    ∃ bs s' t', answers f s as = .ok (bs,s') ∧ Allows spec t as bs t' ∧ R s' t' := by
  induction as generalizing s t with
  | nil => exact ⟨[],s,t,rfl,.nil,h⟩
  | cons a as ih =>
    obtain ⟨b,s₁,t₁,hf,hspec,h₁⟩ := hstep s t a h hmeets.1
    obtain ⟨bs,s₂,t₂,hrest,hallows,h₂⟩ := ih h₁ (hmeets.2 b t₁ hspec)
    exact ⟨b :: bs,s₂,t₂,bind_ok.mpr ⟨_,hf,bind_ok.mpr ⟨_,hrest,rfl⟩⟩,.cons hspec hallows,h₂⟩

end StateMachine
end NachOS
