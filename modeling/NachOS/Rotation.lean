import Mathlib

/-! A track of `S` sectors that turns under a head, one sector in `R` ticks: sector `a` is
under the head from tick `R * j` to tick `R * (j + 1)` if `j` and `a` are congruent modulo
`S`.  Nothing here refers to a particular disk. -/
namespace NachOS
namespace Rotation

variable {R S : ℤ}

/-- The first sector boundary at or after tick `t`. -/
def boundary (R t : ℤ) : ℤ := t + -t % R

/-- The number of sectors that pass before sector `a` if sector `b` is next. -/
def delay (S a b : ℤ) : ℤ := (a - b) % S

/-- Sector `a` passes completely under the head between the two ticks. -/
def Passes (R S a start stop : ℤ) : Prop :=
  ∃ j, start ≤ R * j ∧ R * (j + 1) ≤ stop ∧ j % S = a % S

/-- The boundaries at which sector `a` has just passed. -/
def Passed (R S a t : ℤ) : Prop := R ∣ t ∧ t / R % S = (a + 1) % S

theorem boundary_le (hR : 0 < R) (t : ℤ) : t ≤ boundary R t ∧ boundary R t < t + R := by
  have h₀ := Int.emod_nonneg (-t) (ne_of_gt hR)
  have h₁ := Int.emod_lt_of_pos (-t) hR
  unfold boundary
  omega

theorem dvd_boundary (R t : ℤ) : R ∣ boundary R t := by
  have hsum : boundary R t = -(R * (-t / R)) := by
    have hdiv := Int.emod_add_mul_ediv (-t) R
    unfold boundary
    omega
  rw [hsum]
  exact (Int.dvd_mul_right R _).neg_right

theorem isLeast_boundary (hR : 0 < R) (t : ℤ) : IsLeast {b | R ∣ b ∧ t ≤ b} (boundary R t) := by
  refine ⟨⟨dvd_boundary R t,(boundary_le hR t).1⟩,?_⟩
  rintro b ⟨hb,ht⟩
  have hlt := (boundary_le hR t).2
  obtain ⟨p,hp⟩ := dvd_boundary R t
  obtain ⟨q,rfl⟩ := hb
  have hpq : p < q + 1 := by
    by_contra hle
    have hmul := Int.mul_le_mul_of_nonneg_left (not_lt.mp hle) hR.le
    rw [mul_add,mul_one] at hmul
    omega
  rw [hp]
  exact Int.mul_le_mul_of_nonneg_left (by omega) hR.le

theorem delay_range (hS : 0 < S) (a b : ℤ) : 0 ≤ delay S a b ∧ delay S a b < S :=
  ⟨Int.emod_nonneg _ (ne_of_gt hS),Int.emod_lt_of_pos _ hS⟩

theorem add_delay (S a b : ℤ) : (b + delay S a b) % S = a % S := by
  rw [delay,Int.add_emod_emod,show b + (a - b) = a by omega]

/-- The first time at which sector `a` has passed, from the boundary `b` on. -/
theorem isLeast_passed (hR : 0 < R) (hS : 0 < S) (a : ℤ) {b : ℤ} (hb : R ∣ b) :
    IsLeast {t | Passed R S a t ∧ b + R ≤ t} (b + delay S a (b / R) * R + R) := by
  obtain ⟨p,rfl⟩ := hb
  have hrange := delay_range hS a p
  have hnext := add_delay S a p
  rw [Int.mul_ediv_cancel_left p (ne_of_gt hR)]
  have hsum : R * p + delay S a p * R + R = R * (p + delay S a p + 1) := by ring
  rw [hsum]
  refine ⟨⟨⟨Int.dvd_mul_right R _,?_⟩,?_⟩,?_⟩
  · rw [Int.mul_ediv_cancel_left _ (ne_of_gt hR),Int.add_emod,hnext,← Int.add_emod]
  · have hmul := Int.mul_le_mul_of_nonneg_left hrange.1 hR.le
    rw [mul_zero] at hmul
    rw [mul_add,mul_add,mul_one]
    omega
  · rintro t ⟨⟨⟨q,rfl⟩,hq⟩,hle⟩
    rw [Int.mul_ediv_cancel_left q (ne_of_gt hR)] at hq
    have hpq : p + 1 ≤ q := by
      by_contra hlt
      have hmul := Int.mul_le_mul_of_nonneg_left (show q ≤ p by omega) hR.le
      omega
    refine Int.mul_le_mul_of_nonneg_left ?_ hR.le
    -- both are congruent to `a + 1`, so they differ by a multiple of `S`
    have hcong : (p + delay S a p + 1) % S = q % S := by
      rw [hq,Int.add_emod,hnext,← Int.add_emod]
    have hdvd : S ∣ p + delay S a p + 1 - q := Int.ModEq.dvd hcong.symm
    by_contra hlt
    have hle' := Int.le_of_dvd (show 0 < p + delay S a p + 1 - q by omega) hdvd
    omega

/-- More whole sectors than the delay have passed, so sector `a` is among them. -/
theorem passes_of_delay_lt (hR : 0 < R) (hS : 0 < S) (a : ℤ) {b p : ℤ} (hb : R ∣ b)
    (h : delay S a (b / R) < (p - b) / R) : Passes R S a b p := by
  obtain ⟨k,rfl⟩ := hb
  rw [Int.mul_ediv_cancel_left k (ne_of_gt hR)] at h
  have hrange := delay_range hS a k
  refine ⟨k + delay S a k,?_,?_,add_delay S a k⟩
  · exact Int.mul_le_mul_of_nonneg_left (by omega) hR.le
  · have hturns : delay S a k + 1 ≤ (p - R * k) / R := by omega
    have hmul := Int.mul_le_mul_of_nonneg_left hturns hR.le
    have hdiv := Int.mul_ediv_self_le (x := p - R * k) (ne_of_gt hR)
    have hsum : R * (k + delay S a k + 1) = R * k + R * (delay S a k + 1) := by ring
    omega

end Rotation
end NachOS
