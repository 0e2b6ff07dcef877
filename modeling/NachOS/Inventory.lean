import NachOS.StateMachine

/-! Accounting for a pool of resources: a fixed part, and one share for each of `n`
owners.  The account is exact if nothing occurs twice and the resources marked as taken
are those that occur. -/
namespace NachOS
namespace Inventory

variable {α : Type} {base : List α} {share share' : ℕ → List α} {n i j : ℕ}
  {marked marked' : α → Prop} {l : List α}

def total (base : List α) (share : ℕ → List α) (n : ℕ) : List α :=
  base ++ (List.range n).flatMap share

structure Exact (marked : α → Prop) (l : List α) : Prop where
  nodup : l.Nodup
  marked_iff : ∀ a, marked a ↔ a ∈ l

theorem mem_total {a : α} :
    a ∈ total base share n ↔ a ∈ base ∨ ∃ i, i < n ∧ a ∈ share i := by
  simp [total]

theorem flatMap_range_congr (h : ∀ j, j < n → share' j = share j) :
    (List.range n).flatMap share' = (List.range n).flatMap share := by
  induction n with
  | zero => rfl
  | succ n ih =>
    simp only [List.range_succ,List.flatMap_append,List.flatMap_singleton]
    rw [ih fun j hj => h j (by omega),h n (by omega)]

theorem total_congr (h : ∀ j, j < n → share' j = share j) :
    total base share' n = total base share n := by
  rw [total,total,flatMap_range_congr h]

theorem flatMap_range_perm (hi : i < n) (hempty : share i = [])
    (h : ∀ j, j < n → j ≠ i → share' j = share j) :
    ((List.range n).flatMap share').Perm (share' i ++ (List.range n).flatMap share) := by
  induction n with
  | zero => omega
  | succ n ih =>
    simp only [List.range_succ,List.flatMap_append,List.flatMap_singleton]
    by_cases he : i = n
    · subst he
      rw [flatMap_range_congr fun j hj => h j (by omega) (by omega),hempty,List.append_nil]
      exact List.perm_append_comm
    · rw [h n (by omega) (fun hn => he hn.symm),← List.append_assoc]
      exact (ih (by omega) fun j hj hne => h j (by omega) hne).append_right _

/-- Giving owner `i` a share where it had none adds that share to the total. -/
theorem total_perm (base : List α) (hi : i < n) (hempty : share i = [])
    (h : ∀ j, j < n → j ≠ i → share' j = share j) :
    (total base share' n).Perm (share' i ++ total base share n) := by
  have hp := (flatMap_range_perm hi hempty h).append_left base
  refine hp.trans ?_
  rw [total,← List.append_assoc,← List.append_assoc]
  exact List.perm_append_comm.append_right _

namespace Exact

variable (hx : Exact marked (total base share n))
include hx

/-- Owner `i`, who had nothing, takes resources that were not marked. -/
theorem acquire (hi : i < n) (hempty : share i = [])
    (h : ∀ j, j < n → j ≠ i → share' j = share j) (hnodup : (share' i).Nodup)
    (hfree : ∀ a ∈ share' i, ¬ marked a)
    (hmark : ∀ a, marked' a ↔ marked a ∨ a ∈ share' i) :
    Exact marked' (total base share' n) := by
  have hp := total_perm base hi hempty h
  refine ⟨hp.nodup_iff.mpr (hnodup.append hx.nodup ?_),fun a => ?_⟩
  · intro a ha hb
    exact hfree a ha ((hx.marked_iff a).mpr hb)
  · rw [hmark,hx.marked_iff,hp.mem_iff,List.mem_append]
    exact or_comm

/-- Owner `i` gives back its share. -/
theorem release (hi : i < n) (hempty : share' i = [])
    (h : ∀ j, j < n → j ≠ i → share' j = share j)
    (hmark : ∀ a, marked' a ↔ marked a ∧ a ∉ share i) :
    Exact marked' (total base share' n) := by
  have hp := total_perm base hi hempty fun j hj hne => (h j hj hne).symm
  have happend := hp.nodup_iff.mp hx.nodup
  have hdisjoint := List.disjoint_of_nodup_append happend
  refine ⟨happend.of_append_right,fun a => ?_⟩
  rw [hmark,hx.marked_iff,hp.mem_iff,List.mem_append]
  constructor
  · rintro ⟨ha | ha,hnot⟩
    · exact absurd ha hnot
    · exact ha
  · intro ha
    exact ⟨Or.inr ha,fun hb => hdisjoint hb ha⟩

theorem share_nodup (hi : i < n) : (share i).Nodup := by
  have hr := hx.nodup.of_append_right
  exact (List.nodup_flatMap.mp hr).1 i (List.mem_range.mpr hi)

theorem base_nodup : base.Nodup := hx.nodup.of_append_left

theorem share_base (hi : i < n) {a : α} (ha : a ∈ share i) : a ∉ base := by
  intro hb
  have hd := List.disjoint_of_nodup_append hx.nodup
  exact hd hb (List.mem_flatMap.mpr ⟨i,List.mem_range.mpr hi,ha⟩)

theorem share_share (hi : i < n) (hj : j < n) (hne : i ≠ j) {a : α} (ha : a ∈ share i) :
    a ∉ share j := by
  intro hb
  have hp := (List.nodup_flatMap.mp hx.nodup.of_append_right).2
  have hsymm : Std.Symm (Function.onFun List.Disjoint share) := ⟨fun _ _ h => List.Disjoint.symm h⟩
  have hd := hp.forall (List.mem_range.mpr hi) (List.mem_range.mpr hj) hne
  exact hd ha hb

end Exact

/-! First fit: of numbered resources, the ones with the lowest numbers are taken. -/

/-- All of `taken` was free, and nothing below an element of it is free any more. -/
structure FirstFit (marked : ℕ → Prop) (taken : Finset ℕ) : Prop where
  free : ∀ x ∈ taken, ¬ marked x
  below : ∀ x ∈ taken, ∀ l, l < x → marked l ∨ l ∈ taken

namespace FirstFit

variable {used : ℕ → Prop} {a b : Finset ℕ}

theorem subset (ha : FirstFit used a) (hb : FirstFit used b) (hcard : a.card = b.card) :
    a ⊆ b := by
  intro x hx
  by_contra hx'
  -- as many on both sides, so `b` has an element that `a` has not
  have hex : ∃ y ∈ b, y ∉ a := by
    by_contra hno
    push Not at hno
    have heq := Finset.eq_of_subset_of_card_le hno hcard.le
    exact hx' (heq ▸ hx)
  obtain ⟨y,hy,hy'⟩ := hex
  rcases Nat.lt_trichotomy x y with hlt | heq | hlt
  · exact (hb.below y hy x hlt).elim (ha.free x hx) hx'
  · exact hx' (heq ▸ hy)
  · exact (ha.below x hx y hlt).elim (hb.free y hy) hy'

/-- How many are taken determines which. -/
theorem unique (ha : FirstFit used a) (hb : FirstFit used b) (hcard : a.card = b.card) :
    a = b := Finset.Subset.antisymm (ha.subset hb hcard) (hb.subset ha hcard.symm)

end FirstFit
end Inventory
end NachOS
