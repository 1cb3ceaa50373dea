import Mathlib.Algebra.BigOperators.Intervals
import Mathlib.LinearAlgebra.Matrix.Notation
import Mathlib.Tactic.Module
import ProcessModel.Proofs.Vectors

/-! The orders on linear systems are those of the Taylor series.

Over a step of size `dt`, order `m` adds the first `m` terms of the exponential series to the
states, so that two successive orders differ by one term and errors are the sizes of the terms. -/

namespace ProcessModel

open Exact

open scoped Matrix

open Matrix (mulVec_add mulVec_smul mulVec_mulVec one_mulVec)

variable {n : Nat}

section Methods

variable {f : (Fin n → ℚ) → Fin n → ℚ} {dt : ℚ} {x k₁ k₂ k₃ k₄ : Fin n → ℚ}

theorem increment_one (h₁ : f x = k₁) : increment f dt x 1 = dt • k₁ := by
  subst h₁
  simp [increment, slopes, weighted, RungeKutta.rationalWeights, RungeKutta.table]

theorem increment_two (h₁ : f x = k₁) (h₂ : f (x + dt • k₁) = k₂) :
    increment f dt x 2 = dt • ((1 / 2 : ℚ) • k₁ + (1 / 2 : ℚ) • k₂) := by
  subst h₁ h₂
  simp [increment, slopes, weighted, RungeKutta.rationalWeights, RungeKutta.table]

theorem increment_three (h₁ : f x = k₁) (h₂ : f (x + dt • (1 / 2 : ℚ) • k₁) = k₂)
    (h₃ : f (x + dt • ((-1 : ℚ) • k₁ + (2 : ℚ) • k₂)) = k₃) :
    increment f dt x 3 =
      dt • ((1 / 6 : ℚ) • k₁ + ((2 / 3 : ℚ) • k₂ + (1 / 6 : ℚ) • k₃)) := by
  subst h₁ h₂ h₃
  simp [increment, slopes, weighted, RungeKutta.rationalWeights, RungeKutta.table]

theorem increment_four (h₁ : f x = k₁) (h₂ : f (x + dt • (1 / 2 : ℚ) • k₁) = k₂)
    (h₃ : f (x + dt • (1 / 2 : ℚ) • k₂) = k₃) (h₄ : f (x + dt • k₃) = k₄) :
    increment f dt x 4 =
      dt • ((1 / 6 : ℚ) • k₁ + ((1 / 3 : ℚ) • k₂ + ((1 / 3 : ℚ) • k₃ + (1 / 6 : ℚ) • k₄))) := by
  subst h₁ h₂ h₃ h₄
  simp [increment, slopes, weighted, RungeKutta.rationalWeights, RungeKutta.table]

end Methods

namespace LinearSystem

variable (A : Matrix (Fin n) (Fin n) ℚ) (dt : ℚ)

/-- The first `m` terms of the series, after the initial one, where `v k` is `A ^ k y`. -/
def series (v : Nat → Fin n → ℚ) (m : Nat) : Fin n → ℚ :=
  ∑ k ∈ Finset.Icc 1 m, (dt ^ k / k.factorial) • v k

theorem series_succ (v : Nat → Fin n → ℚ) (m : Nat) :
    series dt v (m + 1) = series dt v m + (dt ^ (m + 1) / (m + 1).factorial) • v (m + 1) :=
  Finset.sum_Icc_succ_top (Nat.le_add_left 1 m) _

theorem increment_mulVec {v : Nat → Fin n → ℚ} (hv : ∀ k, A *ᵥ v k = v (k + 1)) {m : Nat}
    (hpos : 1 ≤ m) (hle : m ≤ RungeKutta.methods) :
    increment A.mulVec dt (v 0) m = series dt v m := by
  -- The matrix moves every `v k` on by one, so each stage is a polynomial in `dt` with these terms.
  have hhalf : A *ᵥ (v 0 + dt • (1 / 2 : ℚ) • v 1) = v 1 + (dt / 2) • v 2 := by
    simp only [mulVec_add, mulVec_smul, hv]
    module
  change m ≤ 4 at hle
  obtain rfl | rfl | rfl | rfl : m = 1 ∨ m = 2 ∨ m = 3 ∨ m = 4 := by omega
  · rw [increment_one (hv 0)]
    simp [series]
  · have h₂ : A *ᵥ (v 0 + dt • v 1) = v 1 + dt • v 2 := by
      simp only [mulVec_add, mulVec_smul, hv]
    have hseries : series dt v 2 = dt • v 1 + (dt ^ 2 / 2) • v 2 := by
      simp [series, Finset.sum_Icc_succ_top]
    rw [increment_two (hv 0) h₂, hseries]
    module
  · have h₃ : A *ᵥ (v 0 + dt • ((-1 : ℚ) • v 1 + (2 : ℚ) • (v 1 + (dt / 2) • v 2))) =
        v 1 + dt • v 2 + dt ^ 2 • v 3 := by
      simp only [mulVec_add, mulVec_smul, hv]
      module
    have hseries : series dt v 3 = dt • v 1 + (dt ^ 2 / 2) • v 2 + (dt ^ 3 / 6) • v 3 := by
      simp [series, Finset.sum_Icc_succ_top, Nat.factorial_succ]
    rw [increment_three (hv 0) hhalf h₃, hseries]
    module
  · have h₃ : A *ᵥ (v 0 + dt • (1 / 2 : ℚ) • (v 1 + (dt / 2) • v 2)) =
        v 1 + (dt / 2) • v 2 + (dt ^ 2 / 4) • v 3 := by
      simp only [mulVec_add, mulVec_smul, hv]
      module
    have h₄ : A *ᵥ (v 0 + dt • (v 1 + (dt / 2) • v 2 + (dt ^ 2 / 4) • v 3)) =
        v 1 + dt • v 2 + (dt ^ 2 / 2) • v 3 + (dt ^ 3 / 4) • v 4 := by
      simp only [mulVec_add, mulVec_smul, hv]
      module
    have hseries : series dt v 4 =
        dt • v 1 + (dt ^ 2 / 2) • v 2 + (dt ^ 3 / 6) • v 3 + (dt ^ 4 / 24) • v 4 := by
      simp [series, Finset.sum_Icc_succ_top, Nat.factorial_succ]
    rw [increment_four (hv 0) hhalf h₃ h₄, hseries]
    module

end LinearSystem

namespace SolverRun

variable {ε σ ν α : Type} [Scalar α] {ode : Ode ε σ α} {d : Dynamics σ ν α} {p : Departure ν α}

theorem tryEach_ok (hode : ode.Follows d) {os : List Nat}
    (hos : ∀ m ∈ os, 1 ≤ m ∧ m ≤ RungeKutta.methods) {r : SolverRun σ α}
    (h : Underway d p [p.first] r) :
    ∃ t, os.forM (tryOrder ode) r = .ok () t ∧ ∀ m,
      m ∈ os ∨ r.solver.buffers.fluxResults[m]? = some (d.integral p m) →
        t.solver.buffers.fluxResults[m]? = some (d.integral p m) := by
  induction os generalizing r with
  | nil => exact ⟨r, rfl, fun m hm => hm.resolve_left nofun⟩
  | cons order os ih =>
    obtain ⟨hpos, hle⟩ := hos order List.mem_cons_self
    obtain ⟨t, hrun, houtside, hend⟩ := tryOrder_ok hode hpos hle h
    obtain ⟨u, hrest, hkept⟩ := ih (fun m hm => hos m (List.mem_cons_of_mem _ hm)) hend.toUnderway
    have hfluxes : t.solver.buffers.fluxResults =
        r.solver.buffers.fluxResults.set order (d.integral p order) :=
      congrArg (·.buffers.fluxResults) houtside
    refine ⟨u, (run_bind_ok hrun).trans hrest, fun m hm => hkept m ?_⟩
    rw [hfluxes]
    rcases eq_or_ne order m with rfl | hne
    · exact .inr (List.getElem?_set_self (by rw [h.fluxResults]; omega))
    · rw [List.getElem?_set_ne hne]
      exact hm.imp_left fun hmem => (List.mem_cons.1 hmem).resolve_left hne.symm

end SolverRun

namespace LinearSystem

open SolverRun

section Terms

variable [Functions] (A : Matrix (Fin n) (Fin n) ℚ) (dt : ℚ) (y : Fin n → ℚ)

theorem integral_taylor (s : Solver Exact) {m : Nat} (hpos : 1 ≤ m)
    (hle : m ≤ RungeKutta.methods) : (dynamics (rows A)).integral
      (departure (dynamics (rows A)) (rational dt) ⟨s, start (rows A) (vec y)⟩) m =
      vec (series dt (fun k => A ^ k *ᵥ y) m) := by
  have hv (k : Nat) : A *ᵥ (A ^ k *ᵥ y) = A ^ (k + 1) *ᵥ y := by
    rw [mulVec_mulVec, pow_succ']
  have hzero : A ^ 0 *ᵥ y = y := by rw [pow_zero, one_mulVec]
  have hincrement := increment_mulVec A dt hv hpos hle
  rw [hzero] at hincrement
  rw [← hincrement]
  exact (additive_dynamics A).integral_eq rfl rfl (apply_rows A y) m

theorem sound_start : (dynamics (rows A)).Sound (start (rows A) (vec y)) :=
  ⟨rfl, by simp [start, rows]⟩

/-- Successive orders differ by a term of the series. -/
theorem errors_taylor (s : Solver Exact) {m : Nat} (hge : 2 ≤ m) (hle : m ≤ RungeKutta.methods) :
    ((dynamics (rows A)).errors
      (departure (dynamics (rows A)) (rational dt) ⟨s, start (rows A) (vec y)⟩) m).1 =
      rational (maxSize ((dt ^ m / m.factorial) • (A ^ m *ᵥ y))) := by
  obtain ⟨k, rfl⟩ : ∃ k, m = k + 1 := ⟨m - 1, by omega⟩
  rw [Dynamics.errors, integral_taylor A dt y s (by omega) hle, Nat.add_sub_cancel,
    integral_taylor A dt y s (by omega) (by omega), resultErrors_vec, series_succ,
    add_sub_cancel_left]

/-- On a linear system order `m` yields the first `m` terms of the series, whichever orders were
tried before, and the errors of the orders are the sizes of the terms. -/
theorem orders_taylor (s : Solver Exact) (os : List Nat)
    (hos : ∀ m ∈ os, 1 ≤ m ∧ m ≤ RungeKutta.methods) :
    (∃ t, (startPoint ode >>= fun _ => os.forM (tryOrder ode))
        ⟨{ s with vars := { s.vars with dt := rational dt } }, start (rows A) (vec y)⟩ = .ok () t ∧
      ∀ m ∈ os, t.solver.buffers.fluxResults[m]? =
        some (vec (∑ k ∈ Finset.Icc 1 m, (dt ^ k / k.factorial) • (A ^ k *ᵥ y)))) ∧
    ∃ t, orderErrors ode (rational dt) ⟨s, start (rows A) (vec y)⟩ =
      .ok ([2, 3, 4].map fun p =>
        rational (maxSize ((dt ^ p / p.factorial) • (A ^ p *ᵥ y)))) t := by
  have hode := follows_dynamics (rows A)
  have hsound := sound_start A y
  constructor
  · let sized : Solver Exact := { s with vars := { s.vars with dt := rational dt } }
    obtain ⟨t, hstart, hunderway⟩ :=
      startPoint_ok hode (r := ⟨sized, start (rows A) (vec y)⟩) hsound
    obtain ⟨u, hrun, hkept⟩ := tryEach_ok hode hos hunderway
    refine ⟨u, (run_bind_ok hstart).trans hrun, fun m hm => ?_⟩
    rw [hkept m (.inl hm)]
    exact congrArg some (integral_taylor A dt y sized (hos m hm).1 (hos m hm).2)
  · obtain ⟨t, hrun⟩ :=
      orderErrors_ok hode (r := ⟨s, start (rows A) (vec y)⟩) hsound (rational dt)
    refine ⟨t, hrun.trans (congrArg (EStateM.Result.ok · t) (List.map_congr_left fun m hm => ?_))⟩
    have hbounds : 2 ≤ m ∧ m ≤ RungeKutta.methods := by
      revert m
      decide
    exact errors_taylor A dt y _ hbounds.1 hbounds.2

end Terms

/-- An oscillator over half a unit of time, with orders out of turn. -/
theorem oscillator_taylor :
    letI : Functions := ⟨id, id⟩
    letI A : Matrix (Fin 2) (Fin 2) ℚ := !![0, 1; -1, 0]
    letI s : Solver Exact := { settings := .standard, vars := .initial }
    (∀ m ∈ [4, 2, 4, 1], 1 ≤ m ∧ m ≤ RungeKutta.methods) ∧
    (∃ t, (startPoint ode >>= fun _ => [4, 2, 4, 1].forM (tryOrder ode))
        ⟨{ s with vars := { s.vars with dt := rational (1 / 2) } }, start (rows A) (vec ![1, 0])⟩ =
        .ok () t ∧
      ∀ m ∈ [4, 2, 4, 1], t.solver.buffers.fluxResults[m]? =
        some (vec (∑ k ∈ Finset.Icc 1 m, ((1 / 2) ^ k / k.factorial : ℚ) • (A ^ k *ᵥ ![1, 0])))) ∧
    ∃ t, orderErrors ode (rational (1 / 2)) ⟨s, start (rows A) (vec ![1, 0])⟩ =
      .ok [rational (1 / 8), rational (1 / 48), rational (1 / 384)] t := by
  let _ : Functions := ⟨id, id⟩
  let A : Matrix (Fin 2) (Fin 2) ℚ := !![0, 1; -1, 0]
  have hos : ∀ m ∈ [4, 2, 4, 1], 1 ≤ m ∧ m ≤ RungeKutta.methods := by decide
  have hterms : [2, 3, 4].map (fun p =>
      rational (maxSize (((1 / 2) ^ p / p.factorial : ℚ) • (A ^ p *ᵥ ![1, 0])))) =
      [rational (1 / 8), rational (1 / 48), rational (1 / 384)] := by decide +kernel
  have htaylor := orders_taylor A (1 / 2) ![1, 0] { settings := .standard, vars := .initial } _ hos
  rw [hterms] at htaylor
  exact ⟨hos, htaylor⟩

end LinearSystem

end ProcessModel
