import Mathlib.Data.List.Basic

namespace Scan

/-!
# Scanners

A scanner reads a prefix of its input and leaves the rest, or fails.  The ones built here decide
by looking at one symbol at a time, so a scanner that stops before the end of its input does not
notice what is appended behind it.

* `Local`: the rest is a suffix of the input, and a scan that leaves something is not changed by
  appending more (`Local.stable`);
* `Local.bind`, `Local.map`: scanners are composed of local ones;
* `local_item`, `local_exactly`, `local_skipIf`, `local_skipWhile`, `local_span`: the primitives.
-/

/-- A scanner over symbols `σ`. -/
abbrev Scanner (σ : Type) := StateT (List σ) Option

variable {σ α β : Type}

/-- One symbol. -/
def item : Scanner σ σ
  | [] => none
  | c :: r => some (c, r)

/-- The symbol `c`. -/
def exactly [DecidableEq σ] (c : σ) : Scanner σ Unit
  | [] => none
  | d :: r => if d = c then some ((), r) else none

/-- One symbol if it satisfies `p`, and whether it did. -/
def skipIf (p : σ → Bool) : Scanner σ Bool
  | [] => some (false, [])
  | c :: r => if p c then some (true, r) else some (false, c :: r)

/-- All leading symbols that satisfy `p`. -/
def skipWhile (p : σ → Bool) : Scanner σ Unit := fun s => some ((), s.dropWhile p)

/-- The leading symbols that satisfy `p`. -/
def span (p : σ → Bool) : Scanner σ (List σ) := fun s => some (s.takeWhile p, s.dropWhile p)

/-! ### Local scanners -/

/-- What is left is a suffix of the input; and if something is left, text appended to the input is
    left behind it. -/
structure Local (f : Scanner σ α) : Prop where
  suffix : ∀ {s v r}, f.run s = some (v, r) → r <:+ s
  stable : ∀ {s v r}, f.run s = some (v, r) → r ≠ [] → ∀ t, f.run (s ++ t) = some (v, r ++ t)

/-- A scanner that reads nothing. -/
theorem local_pure (a : α) : Local (pure a : Scanner σ α) where
  suffix h := by
    cases h
    exact List.suffix_rfl
  stable h _ t := by
    cases h
    rfl

/-- A scanner that fails. -/
theorem local_failure : Local (failure : Scanner σ α) where
  suffix h := absurd h nofun
  stable h := absurd h nofun

/-- A scan in two parts. -/
theorem run_bind_eq_some {f : Scanner σ α} {g : α → Scanner σ β} {s r : List σ} {v : β} :
    (f >>= g).run s = some (v, r) ↔ ∃ a q, f.run s = some (a, q) ∧ (g a).run q = some (v, r) := by
  rw [StateT.run_bind, Option.bind_eq_bind, Option.bind_eq_some_iff]
  exact Prod.exists

/-- **Composition.**  If the second part leaves something, so does the first. -/
theorem Local.bind {f : Scanner σ α} {g : α → Scanner σ β} (hf : Local f) (hg : ∀ a, Local (g a)) :
    Local (f >>= g) where
  suffix h := by
    obtain ⟨a, q, hq, hr⟩ := run_bind_eq_some.mp h
    exact ((hg a).suffix hr).trans (hf.suffix hq)
  stable h hne t := by
    obtain ⟨a, q, hq, hr⟩ := run_bind_eq_some.mp h
    have hqne : q ≠ [] := by
      rintro rfl
      exact hne (List.suffix_nil.mp ((hg a).suffix hr))
    exact run_bind_eq_some.mpr ⟨a, q ++ t, hf.stable hq hqne t, (hg a).stable hr hne t⟩

theorem local_item : Local (item : Scanner σ σ) where
  suffix {s v r} h := by
    cases s with
    | nil => exact absurd h nofun
    | cons c s =>
      cases h
      exact List.suffix_cons ..
  stable {s v r} h _ t := by
    cases s with
    | nil => exact absurd h nofun
    | cons c s =>
      cases h
      rfl

theorem local_exactly [DecidableEq σ] (c : σ) : Local (exactly c) where
  suffix {s v r} h := by
    cases s with
    | nil => exact absurd h nofun
    | cons d s =>
      obtain ⟨-, ⟨⟩⟩ := Option.ite_none_right_eq_some.mp h
      exact List.suffix_cons ..
  stable {s v r} h _ t := by
    cases s with
    | nil => exact absurd h nofun
    | cons d s =>
      obtain ⟨hd, ⟨⟩⟩ := Option.ite_none_right_eq_some.mp h
      exact if_pos hd

theorem local_skipIf (p : σ → Bool) : Local (skipIf p) where
  suffix {s v r} h := by
    cases s with
    | nil =>
      cases h
      exact List.suffix_rfl
    | cons c s =>
      simp only [StateT.run, skipIf] at h
      split at h
      · cases h
        exact List.suffix_cons ..
      · cases h
        exact List.suffix_rfl
  stable {s v r} h hne t := by
    cases s with
    | nil =>
      cases h
      exact absurd rfl hne
    | cons c s =>
      simp only [StateT.run, skipIf, List.cons_append] at h ⊢
      split at h
      · next hc =>
        cases h
        exact if_pos hc
      · next hc =>
        cases h
        exact if_neg hc

/-- Where a `dropWhile` stops, it stops again. -/
theorem dropWhile_append_of_ne_nil {p : σ → Bool} {s : List σ} (h : s.dropWhile p ≠ [])
    (t : List σ) : (s ++ t).dropWhile p = s.dropWhile p ++ t := by
  rw [List.dropWhile_append, if_neg (by simpa using h)]

theorem takeWhile_append_of_ne_nil {p : σ → Bool} {s : List σ} (h : s.dropWhile p ≠ [])
    (t : List σ) : (s ++ t).takeWhile p = s.takeWhile p := by
  rw [List.takeWhile_append, if_neg]
  intro hlen
  have heq := congrArg List.length (List.takeWhile_append_dropWhile (p := p) (l := s))
  rw [List.length_append, hlen] at heq
  exact h (List.length_eq_zero_iff.mp (by omega))

theorem local_skipWhile (p : σ → Bool) : Local (skipWhile p) where
  suffix h := by
    cases h
    exact List.dropWhile_suffix p
  stable h hne t := by
    cases h
    exact congrArg (fun r => some ((), r)) (dropWhile_append_of_ne_nil hne t)

theorem local_span (p : σ → Bool) : Local (span p) where
  suffix h := by
    cases h
    exact List.dropWhile_suffix p
  stable h hne t := by
    cases h
    exact congrArg₂ (fun v r => some (v, r)) (takeWhile_append_of_ne_nil hne t)
      (dropWhile_append_of_ne_nil hne t)

end Scan
