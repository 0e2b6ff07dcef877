import NachOS.StateMachine

/-! The `switch` statement of C: control enters at the first case with the given label and
runs on into the following cases until a `return` or a `break`. -/
namespace NachOS
namespace Switch

open StateMachine

variable {σ : Type}

inductive Stmt (σ : Type)
  | run (f : σ → Except Fault σ)
  | ret
  | brk

structure Case (σ : Type) where
  label : ℤ
  body : List (Stmt σ)

/-- Execute statements; the result says whether the function returned. -/
def exec : List (Stmt σ) → σ → Except Fault (Bool × σ)
  | [],s => .ok (false,s)
  | .run f :: rest,s => f s >>= fun t => exec rest t
  | .ret :: _,s => .ok (true,s)
  | .brk :: _,s => .ok (false,s)

/-- The statements that are executed for `c`: those of its case and of all later ones. -/
def entry (cases : List (Case σ)) (default : List (Stmt σ)) (c : ℤ) : List (Stmt σ) :=
  match cases with
  | [] => default
  | x :: rest =>
    if x.label = c then x.body ++ (rest.flatMap (·.body) ++ default)
    else entry rest default c

@[simp] theorem exec_run (f : σ → Except Fault σ) (rest : List (Stmt σ)) (s : σ) :
    exec (.run f :: rest) s = f s >>= fun t => exec rest t := rfl

@[simp] theorem exec_ret (rest : List (Stmt σ)) (s : σ) :
    exec (.ret :: rest) s = .ok (true,s) := rfl

/-- What stands behind a `return` is not executed. -/
theorem exec_append_ret (body rest : List (Stmt σ)) (s : σ) :
    exec (body ++ .ret :: rest) s = exec (body ++ [.ret]) s := by
  induction body generalizing s with
  | nil => rfl
  | cons x body ih =>
    cases x with
    | run f =>
      simp only [List.cons_append,exec_run]
      congr 1
      funext t
      exact ih t
    | ret => rfl
    | brk => rfl

/-- A label that no case has leads to the default. -/
theorem entry_of_notMem {cases : List (Case σ)} {default : List (Stmt σ)} {c : ℤ}
    (h : c ∉ cases.map (·.label)) : entry cases default c = default := by
  induction cases with
  | nil => rfl
  | cons x rest ih =>
    simp only [List.map_cons,List.mem_cons,not_or] at h
    rw [entry,if_neg (fun he => h.1 he.symm)]
    exact ih h.2

/-- Control enters at a case, and what follows it in the list comes after it. -/
theorem entry_of_append {before : List (Case σ)} (rest : List (Case σ))
    (default : List (Stmt σ)) {x : Case σ} (h : x.label ∉ before.map (·.label)) :
    entry (before ++ x :: rest) default x.label =
      x.body ++ (rest.flatMap (·.body) ++ default) := by
  induction before with
  | nil => simp [entry]
  | cons y before ih =>
    simp only [List.map_cons,List.mem_cons,not_or] at h
    rw [List.cons_append,entry,if_neg (fun he => h.1 he.symm)]
    exact ih h.2

/-- If no label occurs twice, a case that ends in `return` runs its own statements only. -/
theorem exec_entry_of_ret {cases : List (Case σ)} {default body : List (Stmt σ)} {c : ℤ}
    (hcases : (cases.map (·.label)).Nodup) (hmem : ⟨c,body ++ [.ret]⟩ ∈ cases) (s : σ) :
    exec (entry cases default c) s = exec (body ++ [.ret]) s := by
  obtain ⟨before,rest,rfl⟩ := List.append_of_mem hmem
  have hnot : c ∉ before.map (·.label) := by
    intro hin
    rw [List.map_append,List.map_cons] at hcases
    exact List.disjoint_of_nodup_append hcases hin List.mem_cons_self
  have he := entry_of_append rest default (x := ⟨c,body ++ [.ret]⟩) hnot
  rw [he,List.append_assoc,List.singleton_append]
  exact exec_append_ret body _ s

/-- Control executes statements of the cases and of the default only. -/
theorem mem_entry {cases : List (Case σ)} {default : List (Stmt σ)} {c : ℤ} {x : Stmt σ}
    (h : x ∈ entry cases default c) : x ∈ default ∨ ∃ y ∈ cases, x ∈ y.body := by
  induction cases with
  | nil => exact Or.inl h
  | cons y rest ih =>
    rw [entry] at h
    split at h
    · simp only [List.mem_append,List.mem_flatMap] at h
      rcases h with h | ⟨z,hz,h⟩ | h
      · exact Or.inr ⟨y,List.mem_cons_self,h⟩
      · exact Or.inr ⟨z,List.mem_cons_of_mem y hz,h⟩
      · exact Or.inl h
    · rcases ih h with h | ⟨z,hz,h⟩
      · exact Or.inl h
      · exact Or.inr ⟨z,List.mem_cons_of_mem y hz,h⟩

/-- What every statement keeps, their execution keeps. -/
theorem exec_preserves {P : σ → Prop} {stmts : List (Stmt σ)} {s t : σ} {b : Bool}
    (hrun : ∀ f, Stmt.run f ∈ stmts → ∀ s t, P s → f s = .ok t → P t) (hs : P s)
    (h : exec stmts s = .ok (b,t)) : P t := by
  induction stmts generalizing s with
  | nil =>
    cases h
    exact hs
  | cons x rest ih =>
    cases x with
    | run f =>
      obtain ⟨m,hm,h⟩ := bind_ok.mp h
      have hP : P m := hrun f List.mem_cons_self s m hs hm
      exact ih (fun g hg => hrun g (List.mem_cons_of_mem _ hg)) hP h
    | ret =>
      cases h
      exact hs
    | brk =>
      cases h
      exact hs

end Switch
end NachOS
