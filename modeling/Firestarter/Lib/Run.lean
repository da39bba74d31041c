import Mathlib.Data.List.Basic

namespace Runs

/-!
# Runs of a partial step function

A machine is a step function `σ → ε → Option σ`; `none` means that the event cannot happen in
that state (or ends the machine).  A run over a list of events is `List.foldlM`.

* `Meets P step s es` — every step the run takes from `s` meets the condition `P`, evaluated
  in the state before the step;
* `invariant_of_run` — what one step that meets `P` preserves, a whole run preserves;
* `meets_of_invariant` — what such an invariant says about each step holds along the run;
* `meets_of_final`, `meets_of_prefixes` — what is known of the last state, or of every state the
  run reaches, as a condition on its steps;
* `meets_iff_splits` — the condition stated of every event behind a part of the run.
-/

variable {σ ε : Type*}

/-- Every step of the run `es` from `s` meets `P` in the state it is taken in. -/
def Meets (P : σ → ε → Prop) (step : σ → ε → Option σ) : σ → List ε → Prop
  | _, [] => True
  | s, e :: es => P s e ∧ ∀ s', step s e = some s' → Meets P step s' es

variable {P : σ → ε → Prop} {step : σ → ε → Option σ}

/-- A condition that can be evaluated can be evaluated along a run. -/
instance decidableMeets [∀ s e, Decidable (P s e)] :
    (s : σ) → (es : List ε) → Decidable (Meets P step s es)
  | _, [] => .isTrue trivial
  | s, e :: es =>
    haveI : DecidablePred fun s' => Meets P step s' es := fun s' => decidableMeets s' es
    decidable_of_iff (P s e ∧ ∀ s' ∈ step s e, Meets P step s' es) Iff.rfl

variable {s t : σ} {es : List ε}

/-- A run is extended at its front by a step that is known. -/
theorem meets_cons {s' : σ} {e : ε} (hP : P s e) (hs : step s e = some s')
    (h : Meets P step s' es) : Meets P step s (e :: es) := by
  refine ⟨hP, fun t ht => ?_⟩
  rw [hs, Option.some.injEq] at ht
  exact ht ▸ h

/-- A condition that every event of the list meets in every state. -/
theorem meets_of_forall (h : ∀ s, ∀ e ∈ es, P s e) : Meets P step s es := by
  induction es generalizing s with
  | nil => trivial
  | cons e es ih =>
    exact ⟨h s e (by simp), fun s' _ => ih fun t e' he' => h t e' (by simp [he'])⟩

/-- Two conditions that a run meets are met together. -/
theorem meets_and {Q : σ → ε → Prop} (hP : Meets P step s es) (hQ : Meets Q step s es) :
    Meets (fun s e => P s e ∧ Q s e) step s es := by
  induction es generalizing s with
  | nil => trivial
  | cons e es ih =>
    exact ⟨⟨hP.1, hQ.1⟩, fun s' hs' => ih (hP.2 s' hs') (hQ.2 s' hs')⟩

/-- A run over `e :: es` is a step followed by a run. -/
theorem run_cons {e : ε} :
    (e :: es).foldlM step s = some t ↔ ∃ s', step s e = some s' ∧ es.foldlM step s' = some t := by
  simp [List.foldlM_cons, Option.bind_eq_some_iff]

/-- A run over `es ++ fs` splits at the state between them. -/
theorem run_append {fs : List ε} :
    (es ++ fs).foldlM step s = some t ↔
      ∃ s', es.foldlM step s = some s' ∧ fs.foldlM step s' = some t := by
  simp [List.foldlM_append, Option.bind_eq_some_iff]

/-- **Run rule.** An invariant that every step meeting `P` preserves holds after every run
    whose steps all meet `P`. -/
theorem invariant_of_run {I : σ → Prop} (hstep : ∀ s e s', I s → P s e → step s e = some s' → I s')
    (hs : I s) (hP : Meets P step s es) (hrun : es.foldlM step s = some t) : I t := by
  induction es generalizing s with
  | nil =>
    simp only [List.foldlM_nil, Option.pure_def, Option.some.injEq] at hrun
    exact hrun ▸ hs
  | cons e es ih =>
    obtain ⟨s', hs', hrun⟩ := run_cons.mp hrun
    exact ih (hstep s e s' hs hP.1 hs') (hP.2 s' hs') hrun

/-- **Step rule.** If moreover the invariant and `P` give `Q`, then every step of such a run
    meets `Q`. -/
theorem meets_of_invariant {I : σ → Prop} {Q : σ → ε → Prop}
    (hstep : ∀ s e s', I s → P s e → step s e = some s' → I s') (hQ : ∀ s e, I s → P s e → Q s e)
    (hs : I s) (hP : Meets P step s es) : Meets Q step s es := by
  induction es generalizing s with
  | nil => trivial
  | cons e es ih =>
    exact ⟨hQ s e hs hP.1, fun s' hs' => ih (hstep s e s' hs hP.1 hs') (hP.2 s' hs')⟩

/-- A run whose steps all meet `P` is one on each of its prefixes. -/
theorem meets_prefix {pre : List ε} (hpre : pre <+: es) (h : Meets P step s es) :
    Meets P step s pre := by
  induction pre generalizing s es with
  | nil => trivial
  | cons e pre ih =>
    obtain ⟨post, rfl⟩ := hpre
    exact ⟨h.1, fun s' hs' => ih (List.prefix_append pre post) (h.2 s' hs')⟩

/-- A property that a step cannot establish holds all along a run that ends with it. -/
theorem meets_of_final {R : σ → Prop} (hback : ∀ s e s', step s e = some s' → R s' → R s)
    (hrun : es.foldlM step s = some t) (ht : R t) :
    R s ∧ Meets (fun s e => ∀ s', step s e = some s' → R s') step s es := by
  induction es generalizing s with
  | nil =>
    simp only [List.foldlM_nil, Option.pure_def, Option.some.injEq] at hrun
    exact ⟨hrun ▸ ht, trivial⟩
  | cons e es ih =>
    obtain ⟨s', hs', hrun⟩ := run_cons.mp hrun
    obtain ⟨hR, hmeets⟩ := ih hrun
    exact ⟨hback s e s' hs' hR,
      meets_cons (fun u hu => Option.some.inj (hs'.symm.trans hu) ▸ hR) hs' hmeets⟩

/-- What every state on the way has, each step establishes. -/
theorem meets_of_prefixes {R : σ → Prop}
    (h : ∀ pre, pre <+: es → ∀ t, pre.foldlM step s = some t → R t) :
    Meets (fun s e => ∀ s', step s e = some s' → R s') step s es := by
  induction es generalizing s with
  | nil => trivial
  | cons e es ih =>
    refine ⟨fun s' hs' => ?_, fun s' hs' => ih fun pre hpre t ht => ?_⟩
    · exact h [e] (List.prefix_cons_inj e |>.mpr (List.nil_prefix)) s' (run_cons.mpr ⟨s', hs', rfl⟩)
    · exact h (e :: pre) ((List.prefix_cons_inj e).mpr hpre) t (run_cons.mpr ⟨s', hs', ht⟩)

/-- A run meets a condition if every event meets it in the state that the events before it lead
    to. -/
theorem meets_iff_splits :
    Meets P step s es ↔
      ∀ pre e post u, es = pre ++ e :: post → pre.foldlM step s = some u → P u e := by
  induction es generalizing s with
  | nil => exact iff_of_true trivial fun pre e post u h _ => absurd h (by simp)
  | cons e es ih =>
    constructor
    · rintro ⟨he, hes⟩ pre e' post u hsplit hpre
      cases pre with
      | nil =>
        obtain ⟨rfl, -⟩ := List.cons.inj hsplit
        obtain rfl : s = u := Option.some.inj hpre
        exact he
      | cons e₀ pre =>
        obtain ⟨rfl, htail⟩ := List.cons.inj hsplit
        obtain ⟨s', hs', hpre⟩ := run_cons.mp hpre
        exact ih.mp (hes s' hs') pre e' post u htail hpre
    · intro h
      refine ⟨h [] e es s rfl (List.foldlM_nil ..), fun s' hs' =>
        ih.mpr fun pre e' post u hsplit hpre => ?_⟩
      exact h (e :: pre) e' post u (by rw [hsplit]; rfl) (run_cons.mpr ⟨s', hs', hpre⟩)

end Runs
