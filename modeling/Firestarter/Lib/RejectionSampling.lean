import Mathlib.Data.List.Nodup
import Mathlib.Data.List.Perm.Subperm

namespace Firestarter.RejectionSampling

/-!
# Rejection sampling

A loop draws values until it has picked a number of distinct ones; a value that was picked before
is drawn again.  The draws are given by a sequence, and a draw can fail.

* `sample`: the loop, for a number of draws;
* `sample_done`: what it returns is as long as it should be, and without repetition;
* `sample_ne_failed`: without a failing draw it does not fail;
* `sample_ends`: it ends if enough values come up again and again.
-/

/-- What a number of draws comes to. -/
inductive Outcome (α : Type)
  | failed
  | running
  | done (picked : List α)
  deriving DecidableEq

variable {α : Type} [DecidableEq α]

/-- The loop: `n` more values are to be picked, the next draw is number `k`. -/
def sample (draw : ℕ → Option α) : (fuel n k : ℕ) → (picked : List α) → Outcome α
  | _, 0, _, picked => .done picked
  | 0, _ + 1, _, _ => .running
  | fuel + 1, n + 1, k, picked =>
    match draw k with
    | none => .failed
    | some x =>
      if x ∈ picked then sample draw fuel (n + 1) (k + 1) picked
      else sample draw fuel n (k + 1) (x :: picked)

@[simp] theorem sample_zero (draw : ℕ → Option α) (fuel k : ℕ) (picked : List α) :
    sample draw fuel 0 k picked = .done picked := by
  cases fuel <;> rfl

/-- A draw that is picked. -/
theorem sample_succ_of_not_mem {draw : ℕ → Option α} {k : ℕ} {x : α} (hx : draw k = some x)
    {picked : List α} (hnew : x ∉ picked) (fuel n : ℕ) :
    sample draw (fuel + 1) (n + 1) k picked = sample draw fuel n (k + 1) (x :: picked) := by
  simp only [sample, hx, hnew, if_false]

/-- A draw that is repeated. -/
theorem sample_succ_of_mem {draw : ℕ → Option α} {k : ℕ} {x : α} (hx : draw k = some x)
    {picked : List α} (hold : x ∈ picked) (fuel n : ℕ) :
    sample draw (fuel + 1) (n + 1) k picked = sample draw fuel (n + 1) (k + 1) picked := by
  simp only [sample, hx, hold, if_true]

/-- **The result**: the values are distinct, as many as were asked for, and were all drawn. -/
theorem sample_done {draw : ℕ → Option α} {fuel n k : ℕ} {picked result : List α}
    (h : sample draw fuel n k picked = .done result) (hnodup : picked.Nodup) :
    result.Nodup ∧ result.length = picked.length + n ∧
      ∀ x ∈ result, x ∈ picked ∨ ∃ j, draw j = some x := by
  induction fuel generalizing n k picked with
  | zero =>
    cases n with
    | zero =>
      cases h
      exact ⟨hnodup, rfl, fun x hx => .inl hx⟩
    | succ n => cases h
  | succ fuel ih =>
    cases n with
    | zero =>
      cases h
      exact ⟨hnodup, rfl, fun x hx => .inl hx⟩
    | succ n =>
      cases hx : draw k with
      | none =>
        simp only [sample, hx] at h
        cases h
      | some x =>
        by_cases hmem : x ∈ picked
        · rw [sample_succ_of_mem hx hmem] at h
          exact ih h hnodup
        · rw [sample_succ_of_not_mem hx hmem] at h
          obtain ⟨hres, hlen, hdrawn⟩ := ih h (List.nodup_cons.mpr ⟨hmem, hnodup⟩)
          refine ⟨hres, by rw [hlen, List.length_cons]; omega, fun y hy => ?_⟩
          rcases hdrawn y hy with hy | hy
          · rcases List.mem_cons.mp hy with rfl | hy
            · exact .inr ⟨k, hx⟩
            · exact .inl hy
          · exact .inr hy

/-- Without a failing draw the loop does not fail. -/
theorem sample_ne_failed {draw : ℕ → Option α} (hdraw : ∀ k, draw k ≠ none) (fuel n k : ℕ)
    (picked : List α) : sample draw fuel n k picked ≠ .failed := by
  induction fuel generalizing n k picked with
  | zero =>
    intro h
    cases n <;> cases h
  | succ fuel ih =>
    cases n with
    | zero =>
      intro h
      cases h
    | succ n =>
      obtain ⟨x, hx⟩ := Option.ne_none_iff_exists'.mp (hdraw k)
      by_cases hmem : x ∈ picked
      · rw [sample_succ_of_mem hx hmem]
        exact ih _ _ _
      · rw [sample_succ_of_not_mem hx hmem]
        exact ih _ _ _

/-- **The loop ends** if the values that come up again and again are enough. -/
theorem sample_ends {draw : ℕ → Option α} (hdraw : ∀ k, draw k ≠ none) {values : List α}
    (hvalues : values.Nodup) (hfair : ∀ x ∈ values, ∀ k, ∃ j, k ≤ j ∧ draw j = some x) (n k : ℕ)
    (picked : List α) (hroom : picked.length + n ≤ values.length) :
    ∃ fuel result, sample draw fuel n k picked = .done result := by
  induction n generalizing k picked with
  | zero => exact ⟨0, picked, sample_zero draw 0 k picked⟩
  | succ n ih =>
    -- a value that is not picked yet comes up after some draws
    obtain ⟨x, hx, hnew⟩ : ∃ x ∈ values, x ∉ picked := by
      by_contra hall
      have hsub : values ⊆ picked := fun x hx => by_contra fun hnew => hall ⟨x, hx, hnew⟩
      have hle := (hvalues.subperm hsub).length_le
      omega
    obtain ⟨j, hkj, hj⟩ := hfair x hx k
    obtain ⟨d, rfl⟩ := Nat.exists_eq_add_of_le hkj
    -- at the latest then something is picked
    induction d generalizing k with
    | zero =>
      rw [Nat.add_zero] at hj
      obtain ⟨fuel, result, h⟩ := ih (k + 1) (x :: picked) (by rw [List.length_cons]; omega)
      exact ⟨fuel + 1, result, by rw [sample_succ_of_not_mem hj hnew, h]⟩
    | succ d ihd =>
      obtain ⟨y, hy⟩ := Option.ne_none_iff_exists'.mp (hdraw k)
      by_cases hmem : y ∈ picked
      · obtain ⟨fuel, result, h⟩ :=
          ihd (k + 1) (by omega) (by rwa [Nat.add_assoc, Nat.add_comm 1 d])
        exact ⟨fuel + 1, result, by rw [sample_succ_of_mem hy hmem, h]⟩
      · obtain ⟨fuel, result, h⟩ := ih (k + 1) (y :: picked) (by rw [List.length_cons]; omega)
        exact ⟨fuel + 1, result, by rw [sample_succ_of_not_mem hy hmem, h]⟩

end Firestarter.RejectionSampling
