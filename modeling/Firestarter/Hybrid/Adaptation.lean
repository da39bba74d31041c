import Firestarter.Hybrid.Gates

namespace Firestarter.Hybrid

open Firestarter.Rcvry

/-!
# Runs of the shipped auto-adapt build

Two promises that depend on the gates and the global word staying aligned.  Both are broken by
the reset in the undo-log end-of-window hook, which auto-adaptation does not compile out.

* `TxInv` — **the invariant**: unless the global word says undo log, every gate says TSX;
* `undolog_window_rolled_back` — when windows on the undo-log branch have the undo-log type;
* `adaptation_durable_iff` — the sites at which the decision of auto-adaptation lasts.
-/

/-! ### Undo-log windows have the undo-log type -/

/-- A window entered by the undo-log branch of its gate has the type on which
    `rcvry_signal_action` calls `ltckpt_restart`. -/
def RollsBack (s : GateState) : Prop :=
  s.phase = .window .ltckpt → s.currentTxType = .undolog

/-- **The invariant.** Unless the global word says undo log, no gate does (or is closed). -/
structure TxInv (s : GateState) : Prop where
  gates_tsx : s.currentTxType ≠ .undolog → ∀ k, s.gates k = .tsx
  rollsBack : RollsBack s

/-- The condition on a step: an undo-log end-of-window hook that forgets finds no other gate
    off TSX, and no `SIGSEGV` is handled while the global word says TSX. -/
def KeepsWordsAligned (c : Config) (s : GateState) : GateEvent → Prop
  | .sigsegv => s.currentTxType = .undolog
  | e =>
    e.hook s = some .ltckpt → s.currentInfo.ltckptType = .invalid → ¬ AdaptsAtEnd c s →
      ∀ k, k ≠ s.currentSiteId → s.gates k = .tsx

variable {c : Config} {s s' : GateState} {tol : Option (ℕ → Bool)} {a : ℕ} {t : LtckptType}

theorem gateInit_txInv (hdef : c.defaultToUndolog = false) : TxInv (gateInit c) where
  gates_tsx _ k := by simp [gateInit_gates, defaultTxType, hdef]
  rollsBack h := by simp [gateInit] at h

/-- A state outside windows with the undo-log type satisfies the invariant. -/
theorem TxInv.of_undolog (h : s.currentTxType = .undolog) : TxInv s where
  gates_tsx hne := absurd h hne
  rollsBack _ := h

theorem windowEntryGate_txInv (h : TxInv s) : TxInv (windowEntryGate c tol s) := by
  rcases windowEntryGate_words c tol s with ⟨-, hp, htx, hg⟩ | ⟨-, -, htx, -⟩ | ⟨hgate, heq⟩
  · refine ⟨fun hne k => ?_, fun hw => ?_⟩
    · rw [hg]
      exact h.gates_tsx (htx ▸ hne) k
    · rw [hp] at hw
      simp at hw
  · exact TxInv.of_undolog htx
  · -- a gate off TSX forces the undo-log word
    have htx : s.currentTxType = .undolog := by
      by_contra hne
      exact hgate (h.gates_tsx hne _)
    rw [heq]
    exact TxInv.of_undolog htx

/-- **Step, the end of a window.** -/
theorem eowHook_txInv (hb : AutoAdaptBuild c) {hook : Variant} {p : Phase} (h : TxInv s)
    (hp : p = .gap ∨ p = .ended)
    (hcond : hook = .ltckpt → s.currentInfo.ltckptType = .invalid → ¬ AdaptsAtEnd c s →
      ∀ k, k ≠ s.currentSiteId → s.gates k = .tsx) :
    TxInv { eowHook c s hook with phase := p } := by
  refine ⟨fun hne k => ?_, fun hw => ?_⟩
  · show (eowHook c s hook).gates k = .tsx
    have hne' : (eowHook c s hook).currentTxType ≠ .undolog := hne
    cases hook with
    | tsx =>
      obtain ⟨htx, hg⟩ := eowTsx_words hb s
      exact (congrFun hg k).trans (h.gates_tsx (htx ▸ hne') k)
    | ltckpt =>
      rcases eowUndolog_words hb s with ⟨htx, -⟩ | ⟨-, htx, hg⟩ | ⟨hinv, hno, -, hg⟩
      · exact absurd htx hne'
      · exact (congrFun hg k).trans (h.gates_tsx (htx ▸ hne') k)
      · refine (congrFun hg k).trans ?_
        by_cases hk : k = s.currentSiteId
        · rw [hk, Function.update_self]
        · rw [Function.update_of_ne hk]
          exact hcond rfl hinv hno k hk
  · rcases hp with rfl | rfl <;> cases hw

/-- **Step.** Every event that meets the condition keeps the invariant. -/
theorem gateStep_txInv (hb : AutoAdaptBuild c) {e : GateEvent} (h : TxInv s)
    (hcond : KeepsWordsAligned c s e) (hstep : gateStep c s e = some s') : TxInv s' := by
  cases gateStep_cases hstep with
  | libcall => exact ⟨h.gates_tsx, nofun⟩
  | gate => exact windowEntryGate_txInv h
  | check => exact ⟨h.gates_tsx, h.rollsBack⟩
  | endOfWindow => exact eowHook_txInv hb h (.inl rfl) fun hv => hcond (congrArg some hv)
  | ungatedEnd => exact eowHook_txInv hb h (.inr rfl) fun hv => hcond (congrArg some hv)
  | sigsegv => exact TxInv.of_undolog hcond

/-- **Undo-log windows are rolled back.** In the shipped auto-adapt build, for any sites,
    transaction outcomes, sample size and threshold, every state reached by steps that meet
    `KeepsWordsAligned` has the undo-log type in every window that its gate entered by the
    undo-log branch. -/
theorem undolog_window_rolled_back (c : Config) (hb : AutoAdaptBuild c)
    (hdef : c.defaultToUndolog = false) (es : List GateEvent) (s : GateState)
    (hcond : Runs.Meets (KeepsWordsAligned c) (gateStep c) (gateInit c) es)
    (hrun : es.foldlM (gateStep c) (gateInit c) = some s) : RollsBack s :=
  (Runs.invariant_of_run (fun _ _ _ h hc hs => gateStep_txInv hb h hc hs) (gateInit_txInv hdef)
    hcond hrun).rollsBack

/-- The shipped build, adapting on the first failed window if all windows failed. -/
def adaptConfig : Config := ⟨true, false, true, true, false, 3, 1, 100, 1⟩

theorem adaptConfig_build : AutoAdaptBuild adaptConfig := ⟨rfl, rfl, by decide⟩

/-- A `malloc` site that the pass gave no transaction type. -/
def mallocInfo : RcvryInfo := ⟨.invalid, .undoMalloc, 1, 0x4000, 0, 0⟩

/-- A window at `site` that runs as a transaction. -/
def tsxWindow (site : ℕ) : List GateEvent :=
  [.libcall site mallocInfo, .gate (some fun _ => true), .endOfWindow]

/-- A window at `site` whose transaction never starts, up to its end-of-window hook. -/
def fallbackWindow (site : ℕ) : List GateEvent :=
  [.libcall site mallocInfo, .gate (some fun _ => false), .gate (some fun _ => false)]

/-- Site 1 adapts; site 2, which ran one transaction before, falls back and forgets; then a
    window of site 1 is entered. -/
def forgetfulRun : List GateEvent :=
  [.endOfWindow] ++ tsxWindow 2 ++ fallbackWindow 1 ++ [.endOfWindow] ++ fallbackWindow 2 ++
    [.endOfWindow] ++ [.libcall 1 mallocInfo, .gate (some fun _ => true)]

/-- A window on the undo-log branch with the TSX type: a `SIGSEGV` in it rolls nothing back. -/
theorem undolog_window_not_rolled_back :
    ∃ s, forgetfulRun.foldlM (gateStep adaptConfig) (gateInit adaptConfig) = some s ∧
      s.phase = .window .ltckpt ∧ s.currentTxType = .tsx :=
  ⟨(forgetfulRun.foldlM (gateStep adaptConfig) (gateInit adaptConfig)).get (by decide +kernel),
    (Option.some_get _).symm, by decide +kernel, by decide +kernel⟩

/-- The first window of a site that falls back. -/
def firstFallback : List GateEvent := .endOfWindow :: fallbackWindow 1

/-- The condition holds along it: its only end-of-window hook is the TSX one. -/
theorem firstFallback_meets : Runs.Meets (KeepsWordsAligned adaptConfig) (gateStep adaptConfig)
    (gateInit adaptConfig) firstFallback := by
  refine ⟨by rintro ⟨⟩, fun _ _ => Runs.meets_of_forall fun _ e he => ?_⟩
  simp only [fallbackWindow, List.mem_cons, List.not_mem_nil, or_false] at he
  rcases he with rfl | rfl | rfl <;> rintro ⟨⟩

/-- The first window that falls back is rolled back. -/
theorem undolog_window_rolled_back_first :
    ∃ s, firstFallback.foldlM (gateStep adaptConfig) (gateInit adaptConfig) = some s ∧
      s.phase = .window .ltckpt ∧ RollsBack s :=
  ⟨(firstFallback.foldlM (gateStep adaptConfig) (gateInit adaptConfig)).get (by decide +kernel),
    (Option.some_get _).symm, by decide +kernel,
    undolog_window_rolled_back adaptConfig adaptConfig_build rfl firstFallback _ firstFallback_meets
      (Option.some_get _).symm⟩

/-! ### Auto-adaptation -/

/-- The event `e` runs the undo-log end-of-window hook at site `a`, which leaves its gate at the
    undo log. -/
def DecidesFor (c : Config) (a : ℕ) (e : GateEvent) (s₀ s : GateState) : Prop :=
  gateStep c s₀ e = some s ∧ s₀.currentSiteId = a ∧ e.hook s₀ = some .ltckpt ∧
    s.gates a = .undolog

/-- **Auto-adaptation is durable** for sites that the pass gives the type `t`: in every run of
    a shipped build, once the decision is made for a site, every window entered there before
    a `SIGSEGV` there takes the undo-log branch, with no further TSX window counted. -/
def AdaptationDurable (t : LtckptType) : Prop :=
  ∀ (c : Config), AutoAdaptBuild c → ∀ (a : ℕ) (es₀ es : List GateEvent) (e : GateEvent)
    (s₀ s s' : GateState),
    es₀.foldlM (gateStep c) (gateInit c) = some s₀ → DecidesFor c a e s₀ s →
    es.foldlM (gateStep c) s = some s' →
    (s₀.info a).ltckptType = t →
    (∀ i, GateEvent.libcall a i ∈ es → i.ltckptType = t) →
    Runs.Meets (fun s e => e = .sigsegv → s.currentSiteId ≠ a) (gateStep c) s es →
    ∀ tol s'', s'.currentSiteId = a → gateStep c s' (.gate tol) = some s'' →
      s''.phase = .window .ltckpt ∧ s''.stats a = s'.stats a

/-- The decision stands, and the site keeps its type. -/
structure Adapted (a : ℕ) (t : LtckptType) (s : GateState) : Prop where
  gate : s.gates a = .undolog
  type : (s.info a).ltckptType = t

/-- A gate at another site leaves the decision alone. -/
theorem windowEntryGate_adapted (h : Adapted a t s) : Adapted a t (windowEntryGate c tol s) := by
  refine ⟨?_, ?_⟩
  · rcases windowEntryGate_words c tol s with ⟨-, -, -, hg⟩ | ⟨hgate, -, -, hg⟩ | ⟨-, heq⟩
    · rw [hg, h.gate]
    · have hne : a ≠ s.currentSiteId := by
        rintro rfl
        rw [h.gate] at hgate
        cases hgate
      rw [hg, Function.update_of_ne hne, h.gate]
    · rw [heq]
      exact h.gate
  · exact (congrArg (fun f => (f.1 a).ltckptType) (windowEntryGate_frame c tol s)).trans h.type

/-- An end-of-window hook leaves the decision alone if the site has a type of its own. -/
theorem eowHook_adapted (hb : AutoAdaptBuild c) (ht : t ≠ .invalid) (h : Adapted a t s)
    (hook : Variant) (p : Phase) : Adapted a t { eowHook c s hook with phase := p } := by
  refine ⟨?_, (congrArg (fun f => (f.1 a).ltckptType) (eowHook_frame c s hook)).trans h.type⟩
  show (eowHook c s hook).gates a = .undolog
  cases hook with
  | tsx => exact (congrFun (eowTsx_words hb s).2 a).trans h.gate
  | ltckpt =>
    rcases eowUndolog_words hb s with ⟨-, hg⟩ | ⟨-, -, hg⟩ | ⟨hinv, -, -, hg⟩
    · refine (congrFun hg a).trans ?_
      by_cases ha : a = s.currentSiteId
      · rw [ha, Function.update_self]
      · rw [Function.update_of_ne ha, h.gate]
    · exact (congrFun hg a).trans h.gate
    · -- forgetting happens at sites without a type only
      have hne : a ≠ s.currentSiteId := by
        rintro rfl
        exact ht (h.type.symm.trans hinv)
      exact (congrFun hg a).trans ((Function.update_of_ne hne ..).trans h.gate)

/-- **Step.** At a site with a type of its own, every event but a `SIGSEGV` there keeps the
    decision. -/
theorem gateStep_adapted (hb : AutoAdaptBuild c) (ht : t ≠ .invalid) {e : GateEvent}
    (h : Adapted a t s) (htype : ∀ i, e = .libcall a i → i.ltckptType = t)
    (hsegv : e = .sigsegv → s.currentSiteId ≠ a) (hstep : gateStep c s e = some s') :
    Adapted a t s' := by
  cases gateStep_cases hstep with
  | libcall site info =>
    refine ⟨h.gate, ?_⟩
    by_cases hsite : a = site
    · subst hsite
      simp only [Function.update_self]
      exact htype info rfl
    · simp only [Function.update_of_ne hsite]
      exact h.type
  | gate => exact windowEntryGate_adapted h
  | check => exact ⟨h.gate, h.type⟩
  | endOfWindow | ungatedEnd => exact eowHook_adapted hb ht h _ _
  | sigsegv => exact ⟨(Function.update_of_ne (hsegv rfl).symm ..).trans h.gate, h.type⟩

/-- A site with the decision made takes the undo-log branch and attempts no transaction. -/
theorem gate_of_adapted (h : Adapted a t s) (ha : s.currentSiteId = a)
    (hstep : gateStep c s (.gate tol) = some s') :
    s'.phase = .window .ltckpt ∧ s'.stats a = s.stats a := by
  obtain ⟨-, ⟨⟩⟩ := Option.ite_none_right_eq_some.mp hstep
  have hgate : s.gates s.currentSiteId ≠ .tsx := by
    rw [ha, h.gate]
    decide
  rw [windowEntryGate_of_ne c tol hgate]
  exact ⟨rfl, rfl⟩

/-- The window of site 1 that follows, entered by the undo-log branch, and the next call. -/
def nextWindow : List GateEvent :=
  [.libcall 1 mallocInfo, .gate (some fun _ => true), .endOfWindow, .libcall 1 mallocInfo]

/-- At a site without a type the decision lasts for one window: that window's end-of-window
    hook forgets it, and the next window is a transaction again. -/
theorem nextWindow_forgets :
    ∃ s₀ s s' s'', firstFallback.foldlM (gateStep adaptConfig) (gateInit adaptConfig) = some s₀ ∧
      DecidesFor adaptConfig 1 .endOfWindow s₀ s ∧ AdaptsAtEnd adaptConfig s₀ ∧
      nextWindow.foldlM (gateStep adaptConfig) s = some s' ∧
      (s₀.info 1).ltckptType = .invalid ∧ s'.currentSiteId = 1 ∧
      gateStep adaptConfig s' (.gate (some fun _ => true)) = some s'' ∧
      s''.phase = .window .tsx := by
  -- the states of the run, each computed from the start
  let at' (es : List GateEvent) := (firstFallback ++ es).foldlM (gateStep adaptConfig)
    (gateInit adaptConfig)
  refine ⟨(at' []).get (by decide +kernel), (at' [.endOfWindow]).get (by decide +kernel),
    (at' (.endOfWindow :: nextWindow)).get (by decide +kernel),
    (at' (.endOfWindow :: nextWindow ++ [.gate (some fun _ => true)])).get (by decide +kernel),
    (Option.some_get _).symm, ⟨rfl, by decide +kernel, by decide +kernel, by decide +kernel⟩,
    by decide +kernel, rfl, by decide +kernel, by decide +kernel, rfl, by decide +kernel⟩

/-- **Auto-adaptation is durable exactly at sites with a type of their own.** -/
theorem adaptation_durable_iff (t : LtckptType) : AdaptationDurable t ↔ t ≠ .invalid := by
  constructor
  · rintro h rfl
    obtain ⟨s₀, s, s', s'', hrun, hdec, -, hnext, htype, hsite, hgate, hphase⟩ :=
      nextWindow_forgets
    have hdur := h adaptConfig adaptConfig_build 1 firstFallback nextWindow .endOfWindow s₀ s s'
      hrun hdec hnext htype
      (fun i hi => by
        obtain rfl : i = mallocInfo := by simpa [nextWindow] using hi
        rfl)
      (Runs.meets_of_forall fun _ e he hsegv => by
        subst hsegv
        simp [nextWindow] at he)
      _ s'' hsite hgate
    rw [hphase] at hdur
    exact absurd hdur.1 (by decide)
  · intro ht c hb a es₀ es e s₀ s s' _ hdec hrun htype hlib hsegv tol s'' hsite hgate
    obtain ⟨hstep, -, hhook, hundo⟩ := hdec
    have hinit : Adapted a t s := by
      refine ⟨hundo, ?_⟩
      obtain ⟨-, p, -, rfl⟩ := gateStep_eow hhook hstep
      exact (congrArg (fun f => (f.1 a).ltckptType) (eowHook_frame c s₀ .ltckpt)).trans htype
    have hlib' : Runs.Meets (fun _ e => ∀ i, e = GateEvent.libcall a i → i.ltckptType = t)
        (gateStep c) s es := Runs.meets_of_forall fun _ e he i hi => hlib i (hi ▸ he)
    have hinv : Adapted a t s' :=
      Runs.invariant_of_run (fun _ _ _ h hP hs => gateStep_adapted hb ht h hP.1 hP.2 hs) hinit
        (Runs.meets_and hlib' hsegv) hrun
    exact gate_of_adapted hinv hsite hgate

/-- One window after the decision for site 1, a transaction is attempted there again. -/
theorem adaptation_forgotten :
    ∃ s₀ s s' s'', firstFallback.foldlM (gateStep adaptConfig) (gateInit adaptConfig) = some s₀ ∧
      AdaptsAtEnd adaptConfig s₀ ∧ gateStep adaptConfig s₀ .endOfWindow = some s ∧
      s.gates 1 = .undolog ∧ nextWindow.foldlM (gateStep adaptConfig) s = some s' ∧
      s'.currentSiteId = 1 ∧ gateStep adaptConfig s' (.gate (some fun _ => true)) = some s'' ∧
      s''.phase = .window .tsx := by
  obtain ⟨s₀, s, s', s'', hrun, hdec, hadapt, hnext, -, hsite, hgate, hphase⟩ :=
    nextWindow_forgets
  exact ⟨s₀, s, s', s'', hrun, hadapt, hdec.1, hdec.2.2.2, hnext, hsite, hgate, hphase⟩

end Firestarter.Hybrid
