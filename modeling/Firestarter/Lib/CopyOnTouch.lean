import Mathlib.Logic.Basic

namespace CopyOnTouch

/-!
# Copy on first touch

A checkpoint of a store that is divided into regions can be taken lazily: nothing is copied
when it is taken, and a region is copied to its shadow just before it changes for the first
time.  `content`, `shadow` and `base` give, for each region, what it holds now, what its
shadow holds, and what it held at the checkpoint.

* `Exact` — the invariant of the scheme: a touched region has its checkpoint content in its
  shadow, and an untouched region still holds it;
* `exact_checkpoint`, `Exact.touch`, `Exact.write` — the three moves of the scheme keep it.

Regions outside `D` are left out of account.
-/

variable {ρ β : Type*}

/-- The shadow of every touched region, and every untouched region itself, hold what the
    region held at the checkpoint. -/
structure Exact (D : ρ → Prop) (content shadow base : ρ → β) (touched : ρ → Prop) : Prop where
  saved : ∀ r, D r → touched r → shadow r = base r
  clean : ∀ r, D r → ¬ touched r → content r = base r

variable {D : ρ → Prop} {content shadow base : ρ → β} {touched : ρ → Prop}

/-- A new checkpoint copies nothing. -/
theorem exact_checkpoint (hc : ∀ r, D r → content r = base r) (ht : ∀ r, D r → ¬ touched r) :
    Exact D content shadow base touched :=
  ⟨fun r hr h => absurd h (ht r hr), fun r hr _ => hc r hr⟩

/-- **Touch.** Touching a region copies it to its shadow unless it was touched before, and
    leaves the other shadows alone. -/
theorem Exact.touch (h : Exact D content shadow base touched) {r : ρ} {content' shadow' : ρ → β}
    {touched' : ρ → Prop} (hc : ∀ q, D q → content' q = content q)
    (hnew : ¬ touched r → shadow' r = content r) (hold : touched r → shadow' r = shadow r)
    (hother : ∀ q, D q → q ≠ r → shadow' q = shadow q)
    (ht : ∀ q, D q → (touched' q ↔ q = r ∨ touched q)) :
    Exact D content' shadow' base touched' := by
  refine ⟨fun q hq htq => ?_, fun q hq htq => ?_⟩
  · by_cases hqr : q = r
    · subst hqr
      by_cases htouched : touched q
      · rw [hold htouched, h.saved q hq htouched]
      · rw [hnew htouched, h.clean q hq htouched]
    · have hbefore : touched q := ((ht q hq).mp htq).resolve_left hqr
      rw [hother q hq hqr, h.saved q hq hbefore]
  · have hbefore : ¬ touched q := fun hb => htq ((ht q hq).mpr (Or.inr hb))
    rw [hc q hq, h.clean q hq hbefore]

/-- **Write.** A write that changes touched regions only keeps the checkpoint. -/
theorem Exact.write (h : Exact D content shadow base touched) {content' shadow' : ρ → β}
    (hc : ∀ r, D r → ¬ touched r → content' r = content r)
    (hs : ∀ r, D r → shadow' r = shadow r) : Exact D content' shadow' base touched :=
  ⟨fun r hr ht => by rw [hs r hr, h.saved r hr ht],
    fun r hr ht => by rw [hc r hr ht, h.clean r hr ht]⟩

end CopyOnTouch
