import NachOS.StateMachine

/-! The operations of `List<T>` and `SortedList<T>` (lib/list.cc) that the kernel uses, on
the sequence of items a list holds, with the assertions the code makes. -/
namespace NachOS
namespace KernelList

open StateMachine

variable {T : Type} [DecidableEq T]

/-- `List::Append`: the item must not be in the list yet. -/
def append (l : List T) (item : T) : Except Fault (List T) := do
  check (item ∉ l)
  let l' := l ++ [item]
  check (item ∈ l')
  return l'

/-- `List::RemoveFront`: the list must not be empty. -/
def removeFront : List T → Except Fault (T × List T)
  | [] => .error .assertion
  | x :: xs => .ok (x,xs)

theorem append_of_notMem {l : List T} {x : T} (h : x ∉ l) : append l x = .ok (l ++ [x]) := by
  simp [append,h,pure,Except.pure,bind,Except.bind]

theorem append_of_mem {l : List T} {x : T} (h : x ∈ l) : append l x = .error .assertion := by
  simp [append,check,h,bind,Except.bind]

theorem append_ok {l l' : List T} {x : T} : append l x = .ok l' ↔ x ∉ l ∧ l' = l ++ [x] := by
  by_cases h : x ∈ l
  · simp [append_of_mem h,h]
  · simp [append_of_notMem h,h,eq_comm]

/-! `SortedList::Insert`. -/

/-- The loop that looks behind an element for the first one bigger than `item`. -/
def insertBehind (compare : T → T → ℤ) (item : T) : List T → List T
  | [] => [item]
  | y :: ys => if compare item y < 0 then item :: y :: ys else y :: insertBehind compare item ys

def insert (compare : T → T → ℤ) (l : List T) (item : T) : Except Fault (List T) := do
  check (item ∉ l)
  let l' := match l with
    | [] => [item]
    | x :: xs =>
      if compare item x < 0 then item :: x :: xs else x :: insertBehind compare item xs
  check (item ∈ l')
  return l'

variable {compare : T → T → ℤ} {l l' : List T} {x : T}

omit [DecidableEq T] in
theorem insertBehind_perm (compare : T → T → ℤ) (x : T) (l : List T) :
    (insertBehind compare x l).Perm (x :: l) := by
  induction l with
  | nil => exact List.Perm.refl _
  | cons y ys ih =>
    unfold insertBehind
    split
    · exact List.Perm.refl _
    · exact (ih.cons y).trans (List.Perm.swap x y ys)

theorem insert_ok : insert compare l x = .ok l' ↔ x ∉ l ∧ l' = insertBehind compare x l := by
  have hbody : (match l with
      | [] => [x]
      | y :: ys => if compare x y < 0 then x :: y :: ys else y :: insertBehind compare x ys) =
      insertBehind compare x l := by
    cases l <;> rfl
  have hmem : x ∈ insertBehind compare x l :=
    (insertBehind_perm compare x l).mem_iff.mpr List.mem_cons_self
  unfold insert
  simp only [hbody]
  rw [check_bind_ok,check_of hmem]
  refine and_congr_right fun _ => ?_
  constructor
  · intro h
    exact (Except.ok.inj h).symm
  · rintro rfl
    rfl

omit [DecidableEq T] in
/-- The item goes before the first one that is bigger. -/
theorem insertBehind_before {l₁ l₂ : List T} {y : T} (h₁ : ∀ z ∈ l₁, ¬ compare x z < 0)
    (hy : compare x y < 0) :
    insertBehind compare x (l₁ ++ y :: l₂) = l₁ ++ x :: y :: l₂ := by
  induction l₁ with
  | nil => simp [insertBehind,hy]
  | cons z l₁ ih =>
    rw [List.forall_mem_cons] at h₁
    simp [insertBehind,h₁.1,ih h₁.2]

omit [DecidableEq T] in
theorem insertBehind_last (h : ∀ z ∈ l, ¬ compare x z < 0) :
    insertBehind compare x l = l ++ [x] := by
  induction l with
  | nil => rfl
  | cons z l ih =>
    rw [List.forall_mem_cons] at h
    simp [insertBehind,h.1,ih h.2]

omit [DecidableEq T] in
/-- An order that the comparison decides against the new item is kept. -/
theorem pairwise_insertBehind {R : T → T → Prop} (hl : l.Pairwise R)
    (hbehind : ∀ y ∈ l, ¬ compare x y < 0 → R y x) (hbefore : ∀ y ∈ l, compare x y < 0 → R x y)
    (htrans : ∀ y z, compare x y < 0 → R y z → R x z) :
    (insertBehind compare x l).Pairwise R := by
  induction l with
  | nil => exact List.pairwise_singleton R x
  | cons y ys ih =>
    obtain ⟨hy,hys⟩ := List.pairwise_cons.mp hl
    unfold insertBehind
    by_cases hlt : compare x y < 0
    · rw [if_pos hlt]
      refine List.pairwise_cons.mpr ⟨fun z hz => ?_,hl⟩
      rcases List.mem_cons.mp hz with rfl | hz
      · exact hbefore z List.mem_cons_self hlt
      · exact htrans y z hlt (hy z hz)
    · rw [if_neg hlt]
      refine List.pairwise_cons.mpr ⟨fun z hz => ?_,ih hys ?_ ?_⟩
      · rcases List.mem_cons.mp ((insertBehind_perm compare x ys).mem_iff.mp hz) with rfl | hz
        · exact hbehind y List.mem_cons_self hlt
        · exact hy z hz
      · exact fun z hz => hbehind z (List.mem_cons_of_mem y hz)
      · exact fun z hz => hbefore z (List.mem_cons_of_mem y hz)

end KernelList
end NachOS
