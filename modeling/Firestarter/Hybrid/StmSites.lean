import Firestarter.Hybrid.GapRecovery

namespace Firestarter.Hybrid

open FlatMem Firestarter.Ltckpt Firestarter.Rcvry

/-!
# Library calls named for the undo log

`-hybrcvry-stm-libcalls` names library calls whose windows are to be undo-logged.  The pass
emits code that stores the type into `rcvry_info` behind the call; the gates are filled from
`rcvry_info` by a constructor, before `main` (`rcvryMapActions`).

* `gateStep_gates` — what one event writes into a gate;
* `stm_sites_undologged_iff` — the builds in which the option does what it says.
-/

variable {L : Layout}

/-! ### The emitted code -/

/-- What the emitted code stores for a call named in the option. -/
theorem setRecoveryAction_ltckptType {stm : List String} {cs : CallSite} (h : cs.libFunc ∈ stm)
    (old : RcvryInfo) : (setRecoveryAction stm old cs).ltckptType = .undolog := by
  -- no library call has the recovery type that leaves `rcvry_info` alone
  have hty : rcvryTypeOf cs.libFunc ≠ .ckptBuffPread := by
    unfold rcvryTypeOf
    cases hl : libCallRecoveryMap.lookup cs.libFunc with
    | none => simp
    | some ty =>
      have hmem : (cs.libFunc, ty) ∈ libCallRecoveryMap := by
        obtain ⟨l₁, l₂, heq, -⟩ := List.lookup_eq_some_iff.mp hl
        rw [heq]
        simp
      have hall : ∀ e ∈ libCallRecoveryMap, e.2 ≠ .ckptBuffPread := by decide +kernel
      exact hall _ hmem
  rw [setRecoveryAction, if_pos h]
  generalize rcvryTypeOf cs.libFunc = ty at hty
  cases ty <;> first | rfl | exact absurd rfl hty

/-! ### What is written into a gate -/

/-- What the hooks and the handler write into a gate. -/
inductive GateValue (c : Config) : LtckptType → Prop
  | undolog : GateValue c .undolog
  | close : GateValue c rcvryLibcallGateClose
  | default : GateValue c (defaultTxType c)

/-- The gates are as before, or that of the current site was written. -/
def GatesWritten (c : Config) (s : GateState) (gates : ℕ → LtckptType) : Prop :=
  gates = s.gates ∨ ∃ t, GateValue c t ∧ gates = Function.update s.gates s.currentSiteId t

variable (c : Config) (s : GateState)

theorem forgetTxType_gates : GatesWritten c s (forgetTxType c s).gates := by
  unfold forgetTxType
  split
  · exact .inr ⟨_, .default, rfl⟩
  · exact .inl rfl

theorem checkAndSwitch_gates : GatesWritten c s (checkAndSwitch c s).gates := by
  rcases checkAndSwitch_words c s with ⟨-, -, -, hg⟩ | ⟨-, -, hg⟩
  · exact .inr ⟨_, .undolog, hg⟩
  · exact .inl hg

theorem eowTsx_gates : GatesWritten c s (eowTsx c s).gates := by
  unfold eowTsx
  split
  · exact .inl rfl
  · simp only
    split
    · exact forgetTxType_gates c _
    · exact .inl rfl

theorem forgetTxType_currentSiteId : (forgetTxType c s).currentSiteId = s.currentSiteId := by
  unfold forgetTxType
  split <;> rfl

theorem eowUndolog_gates : GatesWritten c s (eowUndolog c s).gates := by
  unfold eowUndolog
  cases c.dontRemember <;> cases c.autoAdapt
  · exact .inl rfl
  · exact checkAndSwitch_gates c s
  · exact forgetTxType_gates c s
  · -- the test is made on what the reset left
    rcases checkAndSwitch_gates c (forgetTxType c s) with hkept | ⟨t, ht, hwritten⟩
    · simp only [if_true, hkept]
      exact forgetTxType_gates c s
    · refine .inr ⟨t, ht, ?_⟩
      simp only [if_true, hwritten, forgetTxType_currentSiteId]
      rcases forgetTxType_gates c s with hg | ⟨t', -, hg⟩
      · rw [hg]
      · rw [hg, Function.update_idem]

theorem eowHook_gates (hook : Variant) : GatesWritten c s (eowHook c s hook).gates := by
  cases hook with
  | tsx => exact eowTsx_gates c s
  | ltckpt => exact eowUndolog_gates c s

theorem windowEntryGate_gates (c : Config) (tol : Option (ℕ → Bool)) (s : GateState) :
    GatesWritten c s (windowEntryGate c tol s).gates := by
  rcases windowEntryGate_words c tol s with ⟨-, -, -, hg⟩ | ⟨-, -, -, hg⟩ | ⟨-, heq⟩
  · exact .inl hg
  · exact .inr ⟨_, .undolog, hg⟩
  · rw [heq]
    exact .inl rfl

/-- **Step.** What an event writes into the gates. -/
theorem gateStep_gates {c : Config} {s s' : GateState} {e : GateEvent}
    (h : gateStep c s e = some s') : GatesWritten c s s'.gates := by
  cases gateStep_cases h with
  | libcall | check => exact .inl rfl
  | gate tol => exact windowEntryGate_gates c tol s
  | endOfWindow | ungatedEnd => exact eowHook_gates c s _
  | sigsegv => exact .inr ⟨_, .close, rfl⟩

/-- **Run.** Where undo log is the default, no gate ever says TSX. -/
theorem gates_ne_tsx_of_run {c : Config} (hdef : c.defaultToUndolog = true) {es : List GateEvent}
    {s : GateState} (hrun : es.foldlM (gateStep c) (gateInit c) = some s) (k : ℕ) :
    s.gates k ≠ .tsx := by
  have hd : defaultTxType c = .undolog := by rw [defaultTxType, hdef, if_pos rfl]
  have hvalue : ∀ t, GateValue c t → t ≠ .tsx := by
    rintro t (_ | _ | _)
    · simp
    · simp [rcvryLibcallGateClose]
    · simp [hd]
  have hstep : ∀ s e s', (∀ k, s.gates k ≠ .tsx) → True → gateStep c s e = some s' →
      ∀ k, s'.gates k ≠ .tsx := by
    intro s e s' h _ hs k
    rcases gateStep_gates hs with hg | ⟨t, ht, hg⟩
    · rw [hg]
      exact h k
    · rw [hg]
      by_cases hk : k = s.currentSiteId
      · rw [hk, Function.update_self]
        exact hvalue t ht
      · rw [Function.update_of_ne hk]
        exact h k
  have hinit : ∀ k, (gateInit c).gates k ≠ .tsx := fun k => by simp [gateInit_gates, hd]
  exact Runs.invariant_of_run hstep hinit (Runs.meets_of_forall fun _ _ _ => trivial) hrun k

/-! ### Windows at the named calls -/

/-- The run calls `callee site` at every site. -/
def CallsAt (callee : ℕ → String) (es : List (HEvent L)) : Prop :=
  ∀ site cs width ret ws, HEvent.libcall site cs width ret ws ∈ es → cs.libFunc = callee site

/-- No `SIGSEGV` is handled while the site is the current one. -/
def NoCrashAt (c : HConfig) (site : ℕ) (s : HState) (es : List (HEvent L)) : Prop :=
  Runs.Meets (fun s e => match e with
    | .sigsegv _ _ => s.ctl.currentSiteId ≠ site
    | _ => True) (hstep c) s es

/-- **Named calls are undo-logged**: in every run, a window entered at a site of a named call
    takes the undo-log branch, and the gate changes nothing else in the control state, so no
    transaction was tried; as long as no `SIGSEGV` was handled at the site. -/
def StmUndologged (c : HConfig) : Prop :=
  ∀ (L : Layout) (m : Mem) (ctx : Ctx) (callee : ℕ → String) (es : List (HEvent L))
    (s s' : HState) (tol : Option (ℕ → Bool)), CallsAt callee es →
    es.foldlM (hstep c) (hInit c m ctx) = some s →
    callee s.ctl.currentSiteId ∈ c.stmLibCalls →
    NoCrashAt c s.ctl.currentSiteId (hInit c m ctx) es →
    hstep c s (.gate (L := L) tol) = some s' →
    s'.ctl = { s.ctl with phase := .window .ltckpt, variant := .ltckpt }

/-- The first window at site 1, for a call of `f`. -/
def firstCall (f : String) : List (HEvent sampleLayout) :=
  [.endOfWindow 0x4100, .libcall 1 ⟨f, fun _ => 0, 0x4100⟩ 8 0 []]

/-- Where TSX is the default, the first call at a site finds its gate on TSX, although the
    emitted code has just stored the undo-log type for the site. -/
theorem firstCall_run (c : HConfig) (hdef : c.defaultToUndolog = false) (m : Mem) (ctx : Ctx)
    {f : String} (hf : f ∈ c.stmLibCalls) :
    ∃ s, (firstCall f).foldlM (hstep c) (hInit c m ctx) = some s ∧
      s.ctl.currentSiteId = 1 ∧ s.ctl.phase = .atGate ∧ s.ctl.gates 1 = .tsx ∧
      (s.ctl.info 1).ltckptType = .undolog ∧ NoCrashAt c 1 (hInit c m ctx) (firstCall f) := by
  have hd : defaultTxType c.toConfig = .tsx := by simp [defaultTxType, hdef]
  -- the end of the first window is at site 0 and leaves the gate of site 1 alone
  have hgate : (eowTsx c.toConfig (gateInit c.toConfig)).gates 1 = .tsx := by
    have hinit : (gateInit c.toConfig).gates 1 = .tsx := (gateInit_gates _ 1).trans hd
    rcases eowTsx_gates c.toConfig (gateInit c.toConfig) with hg | ⟨t, -, hg⟩
    · rw [hg, hinit]
    · rw [hg, Function.update_of_ne (by simp [gateInit]), hinit]
  have heow : gateStep c.toConfig (gateInit c.toConfig) .endOfWindow =
      some { eowTsx c.toConfig (gateInit c.toConfig) with phase := .gap } := by
    simp [gateStep, gateInit, hdef, Phase.running, eowHook]
  obtain ⟨s₁, hs₁, hctl₁⟩ : ∃ s₁,
      hstep c (hInit c m ctx) (.endOfWindow (L := sampleLayout) 0x4100) = some s₁ ∧
      s₁.ctl = { eowTsx c.toConfig (gateInit c.toConfig) with phase := .gap } := by
    rw [hstep, show (hInit c m ctx).ctl = gateInit c.toConfig from rfl, heow]
    exact ⟨_, rfl, rfl⟩
  obtain ⟨s₂, hs₂, hsite, hphase, hgates, hinfo⟩ : ∃ s₂, hstep c s₁ (.libcall (L := sampleLayout) 1
      ⟨f, fun _ => 0, 0x4100⟩ 8 0 []) = some s₂ ∧ s₂.ctl.currentSiteId = 1 ∧
      s₂.ctl.phase = .atGate ∧ s₂.ctl.gates = s₁.ctl.gates ∧ s₂.ctl.info 1 =
        setRecoveryAction c.stmLibCalls (s₁.ctl.info 1) ⟨f, fun _ => 0, 0x4100⟩ := by
    simp only [hstep, gateStep]
    rw [if_pos (by rw [hctl₁])]
    exact ⟨_, rfl, rfl, rfl, rfl, by simp⟩
  refine ⟨s₂, Runs.run_cons.mpr ⟨s₁, hs₁, Runs.run_cons.mpr ⟨s₂, hs₂, rfl⟩⟩, hsite, hphase, ?_, ?_,
    ?_⟩
  · rw [hgates, hctl₁]
    exact hgate
  · rw [hinfo]
    exact setRecoveryAction_ltckptType hf _
  · exact ⟨trivial, fun _ _ => ⟨trivial, fun _ _ => trivial⟩⟩

/-- **Calls named for the undo log.**  Given that some call is named, their windows are undo-logged
    from the first one on in every run exactly when the runtime is built with
    `RCVRY_CKPT_DEFAULT_TO_UNDOLOG`, which is when all windows are. -/
theorem stm_sites_undologged_iff (c : HConfig) (hstm : c.stmLibCalls ≠ []) :
    StmUndologged c ↔ c.defaultToUndolog = true := by
  constructor
  · intro h
    by_contra hdef
    obtain ⟨f, hf⟩ := List.exists_mem_of_ne_nil _ hstm
    obtain ⟨s, hrun, hsite, hphase, hgate, -, hno⟩ := firstCall_run c (by simpa using hdef)
      (fun _ => 0) ⟨1, 0, 0, 0⟩ hf
    have hcalls : CallsAt (fun _ => f) (firstCall f) := by
      intro site cs width ret ws hmem
      simp only [firstCall, List.mem_cons, List.not_mem_nil, or_false, reduceCtorEq,
        false_or, HEvent.libcall.injEq] at hmem
      rw [hmem.2.1]
    have hstep : hstep c s (.gate (L := sampleLayout) (some fun _ => true)) =
        some (enterWindow s true (windowEntryGate c.toConfig (some fun _ => true) s.ctl)) :=
      Option.map_eq_some_iff.mpr ⟨_, if_pos hphase, rfl⟩
    have hctl := h sampleLayout _ _ (fun _ => f) (firstCall f) s _ _ hcalls hrun hf
      (hsite ▸ hno) hstep
    -- the TSX branch enters a TSX window or goes back to the gate
    rw [enterWindow_ctl] at hctl
    rcases windowEntryGate_words c.toConfig (some fun _ => true) s.ctl with
      ⟨-, hp, -⟩ | ⟨-, hp, -⟩ | ⟨hne, -⟩
    · rw [hctl] at hp
      exact absurd hp (by simp)
    · rw [hctl] at hp
      exact absurd hp (by simp)
    · exact hne (hsite ▸ hgate)
  · intro hdef L m ctx callee es s s' tol _ hrun _ _ hgate
    obtain ⟨gs, hgs⟩ := hrun_ctl hrun
    obtain ⟨ctl, hctl, rfl⟩ := Option.map_eq_some_iff.mp hgate
    obtain ⟨-, ⟨⟩⟩ := Option.ite_none_right_eq_some.mp hctl
    rw [enterWindow_ctl, windowEntryGate_of_ne c.toConfig tol (gates_ne_tsx_of_run hdef hgs _)]

/-- The shipped build with `malloc` named for the undo log. -/
def stmConfig : HConfig := { shippedConfig with stmLibCalls := ["malloc"] }

/-- The same with `RCVRY_CKPT_DEFAULT_TO_UNDOLOG`. -/
def stmUndologConfig : HConfig := { stmConfig with defaultToUndolog := true }

theorem stm_sites_undologged_iff_default : StmUndologged stmUndologConfig :=
  (stm_sites_undologged_iff stmUndologConfig (by decide)).mpr rfl

/-- The state at the first gate of the `malloc` site. -/
def atMallocGate : HState :=
  ((firstCall "malloc").foldlM (hstep stmConfig) (hInit stmConfig (fun _ => 0) ⟨1, 0, 0, 0⟩)).get
    (by decide +kernel)

/-- The first window of the named `malloc` runs as a transaction. -/
theorem stm_first_window_in_transaction :
    ∃ s s', (firstCall "malloc").foldlM (hstep stmConfig)
        (hInit stmConfig (fun _ => 0) ⟨1, 0, 0, 0⟩) = some s ∧
      (s.ctl.info 1).ltckptType = .undolog ∧ s.ctl.gates 1 = .tsx ∧
      hstep stmConfig s (.gate (L := sampleLayout) (some fun _ => true)) = some s' ∧
      s'.ctl.phase = .window .tsx ∧ s'.ctl.inTx = true :=
  ⟨atMallocGate,
    (hstep stmConfig atMallocGate (.gate (L := sampleLayout) (some fun _ => true))).get
      (by decide +kernel),
    (Option.some_get _).symm, by decide +kernel, by decide +kernel, (Option.some_get _).symm,
    by decide +kernel, by decide +kernel⟩

end Firestarter.Hybrid
