import Firestarter.Lib.CNumber
import Firestarter.Hybrid.Adaptation

namespace Firestarter.Hybrid

open Firestarter.Rcvry

/-!
# The auto-adaptation decision

`rcvry_auto_adapt_init` takes the sample size, the threshold and the scale from the
environment.  The TSX hook counts windows and failed windows of a site and reduces the sample
count modulo the sample size; the end-of-window hook of the undo log divides the scaled failures
by the windows and switches the gate.  All of it is `uint32_t` arithmetic.

* `zero_mem_divisors_iff`: which events divide by zero.
* `checkAndSwitch_decides`: without overflow the decision is that of unbounded integers.
* `adaptRun_exact`: along runs that stay within 32 bits, with a sample size.
-/

/-! ### The environment -/

/-- The variables `RCVRY_AUTO_ADAPT__SAMPLE_SZ`, `..__THRESHOLD` and `..__SCALE`. -/
structure AdaptEnv where
  sampleSz : Option String
  threshold : Option String
  scale : Option String

/-- A `uint32_t` global with an initial value that the environment may override by a number
    (`strtoul(v, NULL, 0)`). -/
def envValue (initial : ℕ) : Option String → ℕ
  | none => initial
  | some v => uint32 ((CNumber.strtoul v.toList).getD 0)

/-- `rcvry_auto_adapt_init` -/
def rcvryAutoAdaptInit (build : Config) (env : AdaptEnv) : Config :=
  { build with
    sampleSize := envValue 0 env.sampleSz
    threshold := envValue 0 env.threshold
    scale := envValue 1 env.scale }

/-! ### Divisions -/

variable (c : Config)

/-- The state in which `ltckpt_end_of_window_undolog` makes the check. -/
def beforeCheck (s : GateState) : GateState := if c.dontRemember then forgetTxType c s else s

/-- The divisor of `RCVRY_AUTO_ADAPT_CHECK_AND_SWITCH`, if it comes to the division. -/
def checkDivisors (s : GateState) : List ℕ :=
  if s.gates s.currentSiteId ≠ .undolog ∧ s.currentStats.numTsxHits > 0 ∧
      s.currentStats.sampleCount = 0 then [s.currentStats.numTsxHits]
  else []

/-- A TSX window is counted as failed behind the gate. -/
def CountsFail (xbegin : ℕ → Bool) (s : GateState) : Prop :=
  s.phase = .atGate ∧ s.gates s.currentSiteId = .tsx ∧ tsxReturnsEarly c s = false ∧
    c.autoAdapt = true ∧ tsxStarts c xbegin = false

instance (xbegin : ℕ → Bool) (s : GateState) : Decidable (CountsFail c xbegin s) :=
  inferInstanceAs (Decidable (_ ∧ _ ∧ _ ∧ _ ∧ _))

/-- The event runs the end-of-window hook of the undo log. -/
def EndsUndolog (s : GateState) (e : GateEvent) : Prop :=
  s.phase.running ∧ s.variant = .ltckpt ∧ e.hook s = some .ltckpt

instance (s : GateState) (e : GateEvent) : Decidable (EndsUndolog s e) :=
  inferInstanceAs (Decidable (_ ∧ _ ∧ _))

/-- The divisors of the divisions and reductions that an event makes. -/
def divisors (s : GateState) : GateEvent → List ℕ
  | .gate (some xbegin) => if CountsFail c xbegin s then [c.sampleSize] else []
  | e => if EndsUndolog s e ∧ c.autoAdapt = true then checkDivisors (beforeCheck c s) else []

variable (s : GateState)

/-- The check divides only by a positive number of windows. -/
theorem zero_notMem_checkDivisors : 0 ∉ checkDivisors s := by
  simp only [checkDivisors, List.mem_ite_nil_right, List.mem_singleton]
  rintro ⟨⟨-, hpos, -⟩, hzero⟩
  omega

/-- **Division by zero.**  It happens at a failed TSX window without a sample size, and
    nowhere else. -/
theorem zero_mem_divisors_iff (e : GateEvent) :
    0 ∈ divisors c s e ↔
      c.sampleSize = 0 ∧ ∃ xbegin, e = .gate (some xbegin) ∧ CountsFail c xbegin s := by
  have hcheck : ∀ e, 0 ∉ (if EndsUndolog s e ∧ c.autoAdapt = true then
      checkDivisors (beforeCheck c s) else []) := by
    intro e
    rw [List.mem_ite_nil_right]
    exact fun h => zero_notMem_checkDivisors _ h.2
  rcases e with _ | (_ | xbegin) | _ | _ | _ | _
  case gate.some =>
    simp only [divisors, List.mem_ite_nil_right, List.mem_singleton, GateEvent.gate.injEq,
      Option.some.injEq, exists_eq_left']
    exact ⟨fun h => ⟨h.2.symm, h.1⟩, fun h => ⟨h.2, h.1.symm⟩⟩
  all_goals
    refine iff_of_false (hcheck _) ?_
    rintro ⟨-, _, h, -⟩
    cases h

/-! ### The decision -/

/-- The decision in unbounded integers. -/
def ShouldSwitch (x : SiteStats) : Prop :=
  0 < x.numTsxHits ∧ x.sampleCount = 0 ∧
    c.threshold ≤ x.numTsxFails * 100 * c.scale / x.numTsxHits

instance (x : SiteStats) : Decidable (ShouldSwitch c x) :=
  inferInstanceAs (Decidable (_ ∧ _ ∧ _))

/-- The end of an undo-log window switches a gate that is not undo-log yet exactly as the
    unbounded integers say. -/
def DecidesExactly (s : GateState) : Prop :=
  (beforeCheck c s).gates s.currentSiteId ≠ .undolog →
    ((eowUndolog c s).gates s.currentSiteId = .undolog ↔ ShouldSwitch c s.currentStats)

instance (s : GateState) : Decidable (DecidesExactly c s) :=
  inferInstanceAs (Decidable (_ → _))

/-- The scaled failures fit into `uint32_t`. -/
def ProductFits (x : SiteStats) : Prop := x.numTsxFails * 100 * c.scale < 2 ^ 32

variable {c}

theorem uint32_product {x : SiteStats} (h : ProductFits c x) :
    uint32 (uint32 (x.numTsxFails * 100) * c.scale) = x.numTsxFails * 100 * c.scale := by
  rw [uint32, uint32, Nat.mod_mul_mod]
  exact Nat.mod_eq_of_lt h

/-- The test is the unbounded one while the product fits. -/
theorem adaptsAtEnd_iff {s : GateState} (h : ProductFits c s.currentStats) :
    AdaptsAtEnd c s ↔ ShouldSwitch c s.currentStats := by
  simp only [AdaptsAtEnd, ShouldSwitch, ratioReached, uint32_product h, decide_eq_true_eq]

theorem beforeCheck_currentSiteId : (beforeCheck c s).currentSiteId = s.currentSiteId := by
  unfold beforeCheck forgetTxType
  split
  · split <;> rfl
  · rfl

theorem beforeCheck_stats : (beforeCheck c s).stats = s.stats := by
  unfold beforeCheck forgetTxType
  split
  · split <;> rfl
  · rfl

theorem beforeCheck_currentStats : (beforeCheck c s).currentStats = s.currentStats := by
  rw [GateState.currentStats, beforeCheck_stats, beforeCheck_currentSiteId]
  rfl

theorem eowUndolog_eq (hadapt : c.autoAdapt = true) (s : GateState) :
    eowUndolog c s = checkAndSwitch c (beforeCheck c s) := by
  show (if c.autoAdapt then checkAndSwitch c (beforeCheck c s) else beforeCheck c s) = _
  rw [if_pos hadapt]

/-- **Exact decision.**  An end of window whose product fits decides as the unbounded integers
    say. -/
theorem decidesExactly_of_productFits (hadapt : c.autoAdapt = true) {s : GateState}
    (h : ProductFits c s.currentStats) : DecidesExactly c s := by
  intro hgate
  have hfits : ProductFits c (beforeCheck c s).currentStats := by
    rwa [beforeCheck_currentStats]
  have hiff := adaptsAtEnd_iff hfits
  rw [beforeCheck_currentStats] at hiff
  have hwords := checkAndSwitch_words c (beforeCheck c s)
  rw [beforeCheck_currentSiteId] at hwords
  rw [eowUndolog_eq hadapt, ← hiff]
  -- the macro either switched the gate or left it as it was
  rcases hwords with ⟨-, hadapts, -, hgates⟩ | ⟨hno, -, hgates⟩
  · exact ⟨fun _ => hadapts, fun _ => by rw [hgates, Function.update_self]⟩
  · rw [hgates]
    exact ⟨fun h => absurd h hgate, fun h => absurd ⟨hgate, h⟩ hno⟩

/-! ### The counters -/

/-- What a step can do to the counters of the current site. -/
inductive StatsUpdate (x : SiteStats) : SiteStats → Prop
  | reset : StatsUpdate x { x with numTsxHits := 0, numTsxFails := 0 }
  | hit : StatsUpdate x { x with numTsxHits := uint32 (x.numTsxHits + 1) }
  | fail (n : ℕ) :
    StatsUpdate x ⟨n, uint32 (x.numTsxHits + 1), uint32 (x.numTsxFails + 1)⟩

theorem checkAndSwitch_stats :
    (checkAndSwitch c s).stats = s.stats ∨
      (checkAndSwitch c s).stats = Function.update s.stats s.currentSiteId
        { s.currentStats with numTsxHits := 0, numTsxFails := 0 } := by
  unfold checkAndSwitch
  split
  · right
    cases ratioReached c s.currentStats <;> rfl
  · exact .inl rfl

theorem eowTsx_stats : (eowTsx c s).stats = s.stats := by
  unfold eowTsx forgetTxType
  split
  · rfl
  · simp only
    split
    · split <;> rfl
    · rfl

theorem eowUndolog_stats :
    (eowUndolog c s).stats = s.stats ∨
      (eowUndolog c s).stats = Function.update s.stats s.currentSiteId
        { s.currentStats with numTsxHits := 0, numTsxFails := 0 } := by
  by_cases hadapt : c.autoAdapt = true
  · rw [eowUndolog_eq hadapt]
    have h := checkAndSwitch_stats (c := c) (beforeCheck c s)
    rwa [beforeCheck_stats, beforeCheck_currentSiteId, beforeCheck_currentStats] at h
  · left
    show (if c.autoAdapt then checkAndSwitch c (beforeCheck c s) else beforeCheck c s).stats = _
    rw [if_neg hadapt, beforeCheck_stats]

theorem eowHook_stats (hook : Variant) :
    (eowHook c s hook).stats = s.stats ∨
      (eowHook c s hook).stats = Function.update s.stats s.currentSiteId
        { s.currentStats with numTsxHits := 0, numTsxFails := 0 } := by
  cases hook with
  | tsx => exact .inl (eowTsx_stats s)
  | ltckpt => exact eowUndolog_stats s

theorem countFail_countHit_stats :
    (countFail c (countHit s)).stats = Function.update s.stats s.currentSiteId
      ⟨uint32 (s.currentStats.sampleCount + 1) % c.sampleSize,
        uint32 (s.currentStats.numTsxHits + 1), uint32 (s.currentStats.numTsxFails + 1)⟩ := by
  have hstats : (countHit s).currentStats =
      { s.currentStats with numTsxHits := uint32 (s.currentStats.numTsxHits + 1) } :=
    Function.update_self _ _ _
  show Function.update (Function.update s.stats s.currentSiteId _) s.currentSiteId
    { (countHit s).currentStats with
      numTsxFails := uint32 ((countHit s).currentStats.numTsxFails + 1)
      sampleCount := uint32 ((countHit s).currentStats.sampleCount + 1) % c.sampleSize } = _
  rw [hstats, Function.update_idem]

theorem tolTsx_stats (xbegin : ℕ → Bool) (s : GateState) :
    (tolTsx c xbegin s).stats = s.stats ∨
      ∃ x, StatsUpdate s.currentStats x ∧
        (tolTsx c xbegin s).stats = Function.update s.stats s.currentSiteId x := by
  set s₁ : GateState := { s with phase := .window .tsx, variant := .tsx } with hs₁
  by_cases hearly : tsxReturnsEarly c s₁ = true
  · left
    rw [tolTsx, ← hs₁, if_pos hearly]
  · by_cases hadapt : c.autoAdapt = true
    · right
      by_cases hstarts : tsxStarts c xbegin = true
      · refine ⟨_, .hit, ?_⟩
        simp only [tolTsx, ← hs₁, if_neg hearly, if_pos hadapt, if_pos hstarts]
        rfl
      · refine ⟨_, .fail (uint32 (s.currentStats.sampleCount + 1) % c.sampleSize), ?_⟩
        simp only [tolTsx, ← hs₁, if_neg hearly, if_pos hadapt, if_neg hstarts]
        have hcount := countFail_countHit_stats (c := c) s₁
        split
        · exact hcount
        · exact hcount
    · left
      simp only [tolTsx, ← hs₁, if_neg hearly, if_neg hadapt]
      split
      · rfl
      · split <;> rfl

/-- **One step.**  Only the counters of the current site change, and only as listed. -/
theorem gateStep_stats {s s' : GateState} {e : GateEvent} (h : gateStep c s e = some s') :
    s'.stats = s.stats ∨
      ∃ x, StatsUpdate s.currentStats x ∧
        s'.stats = Function.update s.stats s.currentSiteId x ∧
        ((∃ xbegin, e = .gate (some xbegin) ∧ s.gates s.currentSiteId = .tsx) ∨
          x.numTsxHits = 0 ∧ x.numTsxFails = 0) := by
  cases gateStep_cases h with
  | libcall | check | sigsegv => exact .inl rfl
  | gate tol =>
    by_cases hgate : s.gates s.currentSiteId = .tsx
    · cases tol with
      | none =>
        rw [windowEntryGate, if_pos hgate]
        exact .inl rfl
      | some xbegin =>
        rw [windowEntryGate, if_pos hgate]
        rcases tolTsx_stats (c := c) xbegin s with h | ⟨x, hx, h⟩
        · exact .inl h
        · exact .inr ⟨x, hx, h, .inl ⟨xbegin, rfl, hgate⟩⟩
    · rw [windowEntryGate_of_ne c tol hgate]
      exact .inl rfl
  | endOfWindow | ungatedEnd =>
    rcases eowHook_stats (c := c) s _ with h | h
    · exact .inl h
    · exact .inr ⟨_, .reset, h, .inr ⟨rfl, rfl⟩⟩

/-! ### Runs -/

/-- An update keeps the failures below the windows while the latter do not wrap. -/
theorem StatsUpdate.ok {x y : SiteStats} (h : StatsUpdate x y) (hle : x.numTsxFails ≤ x.numTsxHits)
    (hroom : x.numTsxHits + 1 < 2 ^ 32) : y.numTsxFails ≤ y.numTsxHits ∧ y.numTsxHits < 2 ^ 32 := by
  have hhits : uint32 (x.numTsxHits + 1) = x.numTsxHits + 1 := Nat.mod_eq_of_lt hroom
  have hfails : uint32 (x.numTsxFails + 1) = x.numTsxFails + 1 := Nat.mod_eq_of_lt (by omega)
  cases h with
  | reset => exact ⟨le_refl 0, Nat.two_pow_pos 32⟩
  | hit =>
    show x.numTsxFails ≤ uint32 (x.numTsxHits + 1) ∧ uint32 (x.numTsxHits + 1) < 2 ^ 32
    omega
  | fail n =>
    show uint32 (x.numTsxFails + 1) ≤ uint32 (x.numTsxHits + 1) ∧
      uint32 (x.numTsxHits + 1) < 2 ^ 32
    omega

/-- The counters of every site are `uint32_t` values with no more failures than windows. -/
def CountersOk (s : GateState) : Prop :=
  ∀ site, (s.stats site).numTsxFails ≤ (s.stats site).numTsxHits ∧
    (s.stats site).numTsxHits < 2 ^ 32

variable (c) in
/-- A step that stays within 32 bits: a TSX gate finds a sample size, and room in the counter
    of its site; the end of an undo-log window finds failures whose scaled product fits. -/
def AdaptFits (s : GateState) : GateEvent → Prop
  | .gate (some _) =>
    s.gates s.currentSiteId = .tsx → c.sampleSize ≠ 0 ∧ s.currentStats.numTsxHits + 1 < 2 ^ 32
  | e => EndsUndolog s e → ProductFits c s.currentStats

instance (s : GateState) : (e : GateEvent) → Decidable (AdaptFits c s e)
  | .gate (some _) => inferInstanceAs (Decidable (_ → _ ∧ _))
  | .gate none | .libcall .. | .check | .endOfWindow | .ungatedEnd _ | .sigsegv =>
    inferInstanceAs (Decidable (EndsUndolog _ _ → _ < _))

variable (c) in
/-- A step that divides by no zero, finds the counters in order and decides exactly. -/
structure AdaptExact (s : GateState) (e : GateEvent) : Prop where
  divides : 0 ∉ divisors c s e
  fails_le_hits : ∀ site, (s.stats site).numTsxFails ≤ (s.stats site).numTsxHits
  decides : EndsUndolog s e → DecidesExactly c s

/-- A step that fits keeps the counters in order. -/
theorem countersOk_step {s s' : GateState} {e : GateEvent} (hs : CountersOk s)
    (hfits : AdaptFits c s e) (h : gateStep c s e = some s') : CountersOk s' := by
  rcases gateStep_stats h with heq | ⟨x, hx, heq, hkind⟩
  · rwa [CountersOk, heq]
  · have hx' : x.numTsxFails ≤ x.numTsxHits ∧ x.numTsxHits < 2 ^ 32 := by
      rcases hkind with ⟨xbegin, rfl, hgate⟩ | ⟨hhits, hfails⟩
      · exact hx.ok (hs s.currentSiteId).1 (hfits hgate).2
      · rw [hhits, hfails]
        exact ⟨le_refl 0, Nat.two_pow_pos 32⟩
    intro site
    rw [heq]
    by_cases hsite : site = s.currentSiteId
    · rw [hsite, Function.update_self]
      exact hx'
    · rw [Function.update_of_ne hsite]
      exact hs site

theorem countersOk_gateInit (c : Config) : CountersOk (gateInit c) :=
  fun _ => ⟨le_refl 0, Nat.two_pow_pos 32⟩

/-- A step that fits, with the counters in order, is exact. -/
theorem adaptExact_of_fits (hadapt : c.autoAdapt = true) {s : GateState} {e : GateEvent}
    (hs : CountersOk s) (hfits : AdaptFits c s e) : AdaptExact c s e where
  divides := by
    rw [zero_mem_divisors_iff]
    rintro ⟨hzero, xbegin, rfl, hcounts⟩
    exact (hfits hcounts.2.1).1 hzero
  fails_le_hits site := (hs site).1
  decides hends := by
    refine decidesExactly_of_productFits hadapt ?_
    -- a gate runs no end-of-window hook
    rcases e with _ | (_ | xbegin) | _ | _ | _ | _
    case gate.some => exact absurd hends.2.2 nofun
    all_goals exact hfits hends

/-- **Exact adaptation.**  For every environment and every build with `RCVRY_AUTO_ADAPT`, every
    run whose steps stay within 32 bits and find a sample size divides by no zero, keeps the
    failures of every site below its windows and switches gates exactly as the unbounded
    quotient says. -/
theorem adaptRun_exact (build : Config) (env : AdaptEnv) (hadapt : build.autoAdapt = true)
    (es : List GateEvent)
    (hfits : Runs.Meets (AdaptFits (rcvryAutoAdaptInit build env))
      (gateStep (rcvryAutoAdaptInit build env)) (gateInit (rcvryAutoAdaptInit build env)) es) :
    Runs.Meets (AdaptExact (rcvryAutoAdaptInit build env))
        (gateStep (rcvryAutoAdaptInit build env)) (gateInit (rcvryAutoAdaptInit build env)) es ∧
      ∀ t, es.foldlM (gateStep (rcvryAutoAdaptInit build env))
          (gateInit (rcvryAutoAdaptInit build env)) = some t →
        ∀ site, (t.stats site).numTsxFails ≤ (t.stats site).numTsxHits := by
  set c := rcvryAutoAdaptInit build env with hc
  have hstep : ∀ s e s', CountersOk s → AdaptFits c s e → gateStep c s e = some s' →
      CountersOk s' := fun s e s' hs hP h => countersOk_step hs hP h
  refine ⟨?_, fun t ht site => ?_⟩
  · exact Runs.meets_of_invariant hstep (fun s e hs hP => adaptExact_of_fits (c := c) hadapt hs hP)
      (countersOk_gateInit _) hfits
  · exact (Runs.invariant_of_run hstep (countersOk_gateInit _) hfits ht site).1

/-! ### Environments -/

/-- An environment with a sample size: the decision is made at every failed window. -/
def sampledEnv : AdaptEnv := ⟨some "1", some " 0x32", none⟩

/-- A scale whose product with 100 is more than 32 bits long. -/
def scaledEnv : AdaptEnv := ⟨some "1", some "5", some "42949673"⟩

/-- The configuration under `sampledEnv`. -/
def sampledConfig : Config := rcvryAutoAdaptInit adaptConfig sampledEnv

/-- A window at site 1 that falls back to the undo log, with its end. -/
def decidedRun : List GateEvent := firstFallback ++ [.endOfWindow]

theorem decidedRun_fits :
    Runs.Meets (AdaptFits sampledConfig) (gateStep sampledConfig) (gateInit sampledConfig)
      decidedRun := by
  decide +kernel

theorem adaptRun_exact_sampled :
    Runs.Meets (AdaptExact sampledConfig) (gateStep sampledConfig) (gateInit sampledConfig)
      decidedRun :=
  (adaptRun_exact adaptConfig sampledEnv rfl decidedRun decidedRun_fits).1

/-- The state behind the library call of the first window, without any variable set. -/
def unsetState : GateState :=
  (([.endOfWindow, .libcall 1 mallocInfo] : List GateEvent).foldlM
    (gateStep (rcvryAutoAdaptInit adaptConfig ⟨none, none, none⟩))
    (gateInit (rcvryAutoAdaptInit adaptConfig ⟨none, none, none⟩))).get (by decide +kernel)

/-- The state at the end of the first window under `scaledEnv`. -/
def scaledState : GateState :=
  (firstFallback.foldlM (gateStep (rcvryAutoAdaptInit adaptConfig scaledEnv))
    (gateInit (rcvryAutoAdaptInit adaptConfig scaledEnv))).get (by decide +kernel)

/-- Without a sample size the first failed window divides by zero; and a scale can make the
    product wrap, so that a site whose windows all failed is not switched. -/
theorem first_failed_window_divides_by_zero_and_scale_wraps :
    0 ∈ divisors (rcvryAutoAdaptInit adaptConfig ⟨none, none, none⟩) unsetState
        (.gate (some fun _ => false)) ∧
      EndsUndolog scaledState .endOfWindow ∧
      ¬ DecidesExactly (rcvryAutoAdaptInit adaptConfig scaledEnv) scaledState := by
  refine ⟨?_, ?_, ?_⟩ <;> decide +kernel

end Firestarter.Hybrid
