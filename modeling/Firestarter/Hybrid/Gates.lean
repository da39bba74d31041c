import Mathlib.Logic.Function.Basic
import Firestarter.Lib.Run
import Firestarter.Rcvry.Tables

namespace Firestarter.Hybrid

open Firestarter.Rcvry

/-!
# The gate machine

Every library-call site has a gate, a transaction-type word of its own; one global word,
`rcvry_current_tx_type`, tells the handler and the function variants which mechanism is on.
The hooks of both mechanisms and the handler write both.

* `windowEntryGate` — the branch behind a library call (`constructWindowEntryGate`) with the
  top-of-the-loop hooks it leads to;
* `eowTsx`, `eowUndolog` — the two end-of-window hooks;
* `gateStep` — one event of a run: a library call, its gate, a variant check, the end of a
  window, a handled `SIGSEGV`;
* `eowUndolog_words`, `eowTsx_words`, `tolTsx_words` — what each hook does to the two words.

Not every library call has a gate: the pass gives none to a call whose result is not used and
none to a non-faultable call.  The latter keeps its end-of-window hook in the ltckpt clone, so
that such a hook may run in the middle of a window.

`RCVRY_DYNAMIC_SWITCH` is on: `RCVRY_CURR_TX_TYPE` is the global word.
-/

/-! ### Build flags and state -/

/-- The build flags the hooks are compiled with, and the auto-adaptation parameters. -/
structure Config where
  /-- `RCVRY_CKPT_DONT_REMEMBER` -/
  dontRemember : Bool
  /-- `RCVRY_CKPT_DEFAULT_TO_UNDOLOG` -/
  defaultToUndolog : Bool
  /-- `RCVRY_AUTO_ADAPT` -/
  autoAdapt : Bool
  /-- `LTCKPT_NO_TSX_FOR_RCVRY_FAIL` -/
  noTsxForRcvryFail : Bool
  /-- `LTCKPT_NO_REG_RESTORATION` without `RCVRY_TSX_NO_SWITCHING` -/
  noRegRestoration : Bool
  /-- `LTCKPT_TSX_MAX_TRIES` -/
  tsxMaxTries : ℕ
  sampleSize : ℕ
  threshold : ℕ
  scale : ℕ

/-- The auto-adaptation counters of a site. -/
structure SiteStats where
  sampleCount : ℕ
  numTsxHits : ℕ
  numTsxFails : ℕ

/-- The two clones of every function, and the two branches of a window-entry gate. -/
inductive Variant
  | tsx | ltckpt
  deriving DecidableEq, Repr

/-- Where the process is. -/
inductive Phase
  /-- in a library call that a gate follows, behind its end-of-window hook -/
  | gap
  | atGate
  /-- in a window that the gate entered by the given branch -/
  | window (branch : Variant)
  /-- the same, behind an end-of-window hook that no gate follows -/
  | ended
  deriving DecidableEq, Repr

/-- The program's own code runs. -/
def Phase.running : Phase → Bool
  | .window _ | .ended => true
  | .gap | .atGate => false

/-- The state of the gate machine. -/
structure GateState where
  gates : ℕ → LtckptType
  currentTxType : LtckptType
  currentSiteId : ℕ
  info : ℕ → RcvryInfo
  stats : ℕ → SiteStats
  variant : Variant
  phase : Phase
  /-- `_xtest()` -/
  inTx : Bool
  prevSiteId : ℕ
  repeatCount : ℕ

/-- Truncation to `uint32_t`. -/
def uint32 (n : ℕ) : ℕ := n % 2 ^ 32

/-- The default transaction type. -/
def defaultTxType (c : Config) : LtckptType := if c.defaultToUndolog then .undolog else .tsx

/-- `rcvry_map_actions`, a constructor: the gates it makes of `rcvry_info` (without
    `TEST_ALTERNATE_TX`). -/
def rcvryMapActions (c : Config) (info : ℕ → RcvryInfo) (site : ℕ) : LtckptType :=
  if (info site).ltckptType ≠ .invalid then (info site).ltckptType else defaultTxType c

/-- `rcvry_info` before `main`: all of it is zero. -/
def infoInit (_ : ℕ) : RcvryInfo := ⟨.invalid, .invalid, 0, 0, 0, 0⟩

/-- After the constructors have run; `main` starts in the variant of the global word. -/
def gateInit (c : Config) : GateState where
  gates := rcvryMapActions c infoInit
  currentTxType := defaultTxType c
  currentSiteId := 0
  info := infoInit
  stats _ := ⟨0, 0, 0⟩
  variant := if c.defaultToUndolog then .ltckpt else .tsx
  phase := .window .tsx
  inTx := false
  prevSiteId := 0
  repeatCount := 0

/-- At the time of the constructor no site has a type. -/
theorem gateInit_gates (c : Config) (site : ℕ) : (gateInit c).gates site = defaultTxType c := rfl

/-- Set the global word and the gate of the current site. -/
def GateState.setTxType (s : GateState) (t : LtckptType) : GateState :=
  { s with currentTxType := t, gates := Function.update s.gates s.currentSiteId t }

/-- Set the counters of the current site. -/
def GateState.setStats (s : GateState) (x : SiteStats) : GateState :=
  { s with stats := Function.update s.stats s.currentSiteId x }

/-- The recovery information of the current site. -/
def GateState.currentInfo (s : GateState) : RcvryInfo := s.info s.currentSiteId

/-- The counters of the current site. -/
def GateState.currentStats (s : GateState) : SiteStats := s.stats s.currentSiteId

/-! ### Hooks -/

/-- The test of `RCVRY_AUTO_ADAPT_CHECK_AND_SWITCH`, in `uint32_t` arithmetic. -/
def ratioReached (c : Config) (x : SiteStats) : Bool :=
  decide (uint32 (uint32 (x.numTsxFails * 100) * c.scale) / x.numTsxHits ≥ c.threshold)

/-- `RCVRY_AUTO_ADAPT_CHECK_AND_SWITCH`. -/
def checkAndSwitch (c : Config) (s : GateState) : GateState :=
  if s.gates s.currentSiteId ≠ .undolog ∧ s.currentStats.numTsxHits > 0 ∧
      s.currentStats.sampleCount = 0 then
    let s' := if ratioReached c s.currentStats then s.setTxType .undolog else s
    s'.setStats { s.currentStats with numTsxHits := 0, numTsxFails := 0 }
  else s

/-- The reset under `RCVRY_CKPT_DONT_REMEMBER`. -/
def forgetTxType (c : Config) (s : GateState) : GateState :=
  if s.currentInfo.ltckptType = .invalid then s.setTxType (defaultTxType c) else s

/-- `ltckpt_end_of_window_undolog`; its flush of the free list is
    `Firestarter.Hybrid.raFreeFreelist`. -/
def eowUndolog (c : Config) (s : GateState) : GateState :=
  let s := if c.dontRemember then forgetTxType c s else s
  if c.autoAdapt then checkAndSwitch c s else s

/-- The early return of the TSX hooks under `LTCKPT_NO_TSX_FOR_RCVRY_FAIL`. -/
def tsxReturnsEarly (c : Config) (s : GateState) : Bool :=
  c.noTsxForRcvryFail && s.currentInfo.rcvryType == .fail

/-- `ltckpt_end_of_window_tsx`: the reset is compiled out under `RCVRY_AUTO_ADAPT`. -/
def eowTsx (c : Config) (s : GateState) : GateState :=
  if tsxReturnsEarly c s then s
  else
    let s := { s with inTx := false }
    if !c.autoAdapt && c.dontRemember then forgetTxType c s else s

/-- One of the `_xbegin`s of the TSX top-of-the-loop hook starts a transaction that lasts to
    the end of the window.  An attempt that aborts later leaves no trace and counts as failed. -/
def tsxStarts (c : Config) (xbegin : ℕ → Bool) : Bool :=
  (List.range (max 1 c.tsxMaxTries)).any xbegin

/-- `ltckpt_switch_to_undolog`, and `rcvry_signal_action(SIGUSR1)`: both end by restoring the
    registers saved before the gate. -/
def switchToUndolog (s : GateState) : GateState :=
  { s.setTxType .undolog with phase := .atGate }

/-- Count a TSX window at the current site. -/
def countHit (s : GateState) : GateState :=
  s.setStats { s.currentStats with numTsxHits := uint32 (s.currentStats.numTsxHits + 1) }

/-- Count a TSX window that never started. -/
def countFail (c : Config) (s : GateState) : GateState :=
  s.setStats { s.currentStats with
    numTsxFails := uint32 (s.currentStats.numTsxFails + 1)
    sampleCount := uint32 (s.currentStats.sampleCount + 1) % c.sampleSize }

/-- `ltckpt_top_of_the_loop_tsx`, entered by the TSX branch of the gate. -/
def tolTsx (c : Config) (xbegin : ℕ → Bool) (s : GateState) : GateState :=
  let s := { s with phase := .window .tsx, variant := .tsx }
  if tsxReturnsEarly c s then s
  else
    let s := if c.autoAdapt then countHit s else s
    if tsxStarts c xbegin then { s with inTx := true }
    else
      let s := if c.autoAdapt then countFail c s else s
      if c.noRegRestoration then s else switchToUndolog s

/-- The end-of-window hook of one of the mechanisms. -/
def eowHook (c : Config) (s : GateState) : Variant → GateState
  | .tsx => eowTsx c s
  | .ltckpt => eowUndolog c s

/-- `constructWindowEntryGate`: the TSX branch exactly when the gate is `HYBRY_TYPE_TSX`. -/
def windowEntryGate (c : Config) (tol : Option (ℕ → Bool)) (s : GateState) : GateState :=
  if s.gates s.currentSiteId = .tsx then
    match tol with
    | some xbegin => tolTsx c xbegin s
    | none => { s with phase := .window .tsx, variant := .tsx }
  else { s with phase := .window .ltckpt, variant := .ltckpt }

/-! ### Steps -/

/-- Events of a run. -/
inductive GateEvent
  /-- a library call at a site, up to the point where registers are saved -/
  | libcall (site : ℕ) (info : RcvryInfo)
  /-- the window-entry gate, with the outcomes of `_xbegin`; `none` if the branch has lost its
      top-of-the-loop call: `rewireLibCallUsage` removes, for a non-faultable call without one of
      its own, the next one in the block -/
  | gate (tol : Option (ℕ → Bool))
  /-- a function entry or return point, which picks the variant by the global word -/
  | check
  /-- the end-of-window hook of the running variant, in front of a library call with a gate -/
  | endOfWindow
  /-- an end-of-window hook that no gate follows: that of the undo log in front of a non-faultable
      call, that of TSX at the entry of a function that its pass excludes -/
  | ungatedEnd (hook : Variant)
  /-- a `SIGSEGV` that the handler survives -/
  | sigsegv

/-- The handler's counter of repeated recoveries, from `prev_site_id` and `repeat_count`; `none`
    when it gives up with `exit(2)`. -/
def nextRepeat (prev count site : ℕ) : Option ℕ :=
  if prev = site then
    if uint32 (count + 1) > 64 then none else some (uint32 (count + 1))
  else some 0

/-- The counter moves on to the current site. -/
def countRepeat (s : GateState) : Option GateState :=
  (nextRepeat s.prevSiteId s.repeatCount s.currentSiteId).map fun n =>
    { s with repeatCount := n, prevSiteId := s.currentSiteId }

/-- The gates part of `rcvry_signal_action(SIGSEGV)`: close the gate and restore the registers
    saved before it. -/
def closeGate (s : GateState) : GateState :=
  { s with
    gates := Function.update s.gates s.currentSiteId rcvryLibcallGateClose
    phase := .atGate
    inTx := false }

/-- The end-of-window hook that an event runs. -/
def GateEvent.hook (s : GateState) : GateEvent → Option Variant
  | .endOfWindow => some s.variant
  | .ungatedEnd hook => some hook
  | _ => none

/-- One event.  Inside a transaction a fault aborts it instead of raising a signal. -/
def gateStep (c : Config) (s : GateState) : GateEvent → Option GateState
  | .libcall site info =>
    if s.phase = .gap then
      some { s with
        currentSiteId := site
        info := Function.update s.info site info
        phase := .atGate }
    else none
  | .gate tol => if s.phase = .atGate then some (windowEntryGate c tol s) else none
  | .check =>
    if s.phase.running then
      some { s with variant := if s.currentTxType = .tsx then .tsx else .ltckpt }
    else none
  | .endOfWindow =>
    if s.phase.running then some { eowHook c s s.variant with phase := .gap } else none
  | .ungatedEnd hook =>
    if s.phase.running ∧ (hook = .ltckpt → s.variant = .ltckpt) then
      some { eowHook c s hook with phase := .ended }
    else none
  | .sigsegv =>
    if s.phase ≠ .atGate ∧ s.inTx = false then (countRepeat s).map closeGate else none

/-! ### What the hooks do to the two words -/

/-- The shipped auto-adapt builds. -/
structure AutoAdaptBuild (c : Config) : Prop where
  dontRemember : c.dontRemember = true
  autoAdapt : c.autoAdapt = true
  sampleSize_pos : 0 < c.sampleSize

/-- The counters of the current site make the end-of-window test decide for the undo log. -/
def AdaptsAtEnd (c : Config) (s : GateState) : Prop :=
  s.currentStats.numTsxHits > 0 ∧ s.currentStats.sampleCount = 0 ∧
    ratioReached c s.currentStats = true

instance (c : Config) (s : GateState) : Decidable (AdaptsAtEnd c s) :=
  inferInstanceAs (Decidable (_ ∧ _ ∧ _))

variable (c : Config) (s : GateState) (x : SiteStats)

@[simp] theorem setStats_gates : (s.setStats x).gates = s.gates := rfl

@[simp] theorem setStats_currentTxType : (s.setStats x).currentTxType = s.currentTxType := rfl

@[simp] theorem setTxType_currentTxType (t : LtckptType) : (s.setTxType t).currentTxType = t := rfl

@[simp] theorem setTxType_gates (t : LtckptType) :
    (s.setTxType t).gates = Function.update s.gates s.currentSiteId t := rfl

/-- The switch is made exactly when the gate is not undo-log yet and the test decides. -/
theorem checkAndSwitch_words :
    (s.gates s.currentSiteId ≠ .undolog ∧ AdaptsAtEnd c s ∧
      (checkAndSwitch c s).currentTxType = .undolog ∧
      (checkAndSwitch c s).gates = Function.update s.gates s.currentSiteId .undolog) ∨
    (¬ (s.gates s.currentSiteId ≠ .undolog ∧ AdaptsAtEnd c s) ∧
      (checkAndSwitch c s).currentTxType = s.currentTxType ∧
      (checkAndSwitch c s).gates = s.gates) := by
  unfold checkAndSwitch AdaptsAtEnd
  by_cases hguard : s.gates s.currentSiteId ≠ .undolog ∧ s.currentStats.numTsxHits > 0 ∧
      s.currentStats.sampleCount = 0
  · rw [if_pos hguard]
    by_cases hratio : ratioReached c s.currentStats = true
    · exact .inl ⟨hguard.1, ⟨hguard.2.1, hguard.2.2, hratio⟩, by simp [hratio], by simp [hratio]⟩
    · exact .inr ⟨fun h => hratio h.2.2.2, by simp [hratio], by simp [hratio]⟩
  · rw [if_neg hguard]
    exact .inr ⟨fun h => hguard ⟨h.1, h.2.1, h.2.2.1⟩, rfl, rfl⟩

/-- **The undo-log end-of-window hook, in the shipped builds.** It leaves the undo-log type
    behind, or keeps both words at a site with a type of its own, or forgets: the site has no
    type and the test does not decide for it. -/
theorem eowUndolog_words {c : Config} (hb : AutoAdaptBuild c) (s : GateState) :
    ((eowUndolog c s).currentTxType = .undolog ∧
      (eowUndolog c s).gates = Function.update s.gates s.currentSiteId .undolog) ∨
    (s.currentInfo.ltckptType ≠ .invalid ∧
      (eowUndolog c s).currentTxType = s.currentTxType ∧ (eowUndolog c s).gates = s.gates) ∨
    (s.currentInfo.ltckptType = .invalid ∧ ¬ AdaptsAtEnd c s ∧
      (eowUndolog c s).currentTxType = .tsx ∧
      (eowUndolog c s).gates = Function.update s.gates s.currentSiteId .tsx) := by
  simp only [eowUndolog, hb.dontRemember, hb.autoAdapt, if_true]
  by_cases hinv : s.currentInfo.ltckptType = .invalid
  · -- the reset gives the gate the default, and the test is made on the reset state
    have hforget : forgetTxType c s = s.setTxType (defaultTxType c) := if_pos hinv
    rw [hforget]
    have hgate : (s.setTxType (defaultTxType c)).gates s.currentSiteId = defaultTxType c :=
      Function.update_self ..
    rcases checkAndSwitch_words c (s.setTxType (defaultTxType c)) with
      ⟨-, -, htx, hg⟩ | ⟨hno, htx, hg⟩
    · exact .inl ⟨htx, by rw [hg]; exact Function.update_idem ..⟩
    · cases hdef : c.defaultToUndolog with
      | true =>
        have hd : defaultTxType c = .undolog := if_pos hdef
        exact .inl ⟨htx.trans hd, hg.trans (by rw [hd]; rfl)⟩
      | false =>
        have hd : defaultTxType c = .tsx := by simp [defaultTxType, hdef]
        refine .inr (.inr ⟨hinv, fun hadapt => hno ⟨fun h => ?_, hadapt⟩, htx.trans hd,
          hg.trans (by rw [hd]; rfl)⟩)
        exact absurd (hgate.symm.trans h) (by rw [hd]; decide)
  · have hforget : forgetTxType c s = s := by simp [forgetTxType, hinv]
    rw [hforget]
    rcases checkAndSwitch_words c s with ⟨-, -, htx, hg⟩ | ⟨-, htx, hg⟩
    · exact .inl ⟨htx, hg⟩
    · exact .inr (.inl ⟨hinv, htx, hg⟩)

/-- In the shipped build the TSX end-of-window hook writes neither word. -/
theorem eowTsx_words {c : Config} (hb : AutoAdaptBuild c) (s : GateState) :
    (eowTsx c s).currentTxType = s.currentTxType ∧ (eowTsx c s).gates = s.gates := by
  unfold eowTsx
  split
  · exact ⟨rfl, rfl⟩
  · simp [hb.autoAdapt]

/-- The TSX top-of-the-loop hook enters a window on the TSX branch with both words kept, or
    gives up: it switches both to the undo log and goes back to the gate. -/
theorem tolTsx_words (c : Config) (xbegin : ℕ → Bool) (s : GateState) :
    ((tolTsx c xbegin s).phase = .window .tsx ∧
      (tolTsx c xbegin s).currentTxType = s.currentTxType ∧
      (tolTsx c xbegin s).gates = s.gates) ∨
    ((tolTsx c xbegin s).phase = .atGate ∧ (tolTsx c xbegin s).currentTxType = .undolog ∧
      (tolTsx c xbegin s).gates = Function.update s.gates s.currentSiteId .undolog) := by
  unfold tolTsx
  simp only
  split
  · exact .inl ⟨rfl, rfl, rfl⟩
  · split
    · left
      cases c.autoAdapt <;> exact ⟨rfl, rfl, rfl⟩
    · split
      · left
        cases c.autoAdapt <;> exact ⟨rfl, rfl, rfl⟩
      · right
        cases c.autoAdapt <;> exact ⟨rfl, rfl, rfl⟩

/-- What the gate and the hooks leave alone: the recovery information, the current site and the
    handler's counter. -/
def GateState.frame (s : GateState) : (ℕ → RcvryInfo) × ℕ × ℕ × ℕ :=
  (s.info, s.currentSiteId, s.prevSiteId, s.repeatCount)

theorem tolTsx_frame (c : Config) (xbegin : ℕ → Bool) (s : GateState) :
    (tolTsx c xbegin s).frame = s.frame := by
  unfold tolTsx
  simp only
  split
  · rfl
  · split
    · cases c.autoAdapt <;> rfl
    · split <;> cases c.autoAdapt <;> rfl

theorem windowEntryGate_of_ne (tol : Option (ℕ → Bool)) {s : GateState}
    (h : s.gates s.currentSiteId ≠ .tsx) :
    windowEntryGate c tol s = { s with phase := .window .ltckpt, variant := .ltckpt } := if_neg h

/-- **The gate.** It enters a window by the TSX branch with both words kept, gives a transaction up
    and stays, or enters a window by the undo-log branch. -/
theorem windowEntryGate_words (c : Config) (tol : Option (ℕ → Bool)) (s : GateState) :
    (s.gates s.currentSiteId = .tsx ∧ (windowEntryGate c tol s).phase = .window .tsx ∧
      (windowEntryGate c tol s).currentTxType = s.currentTxType ∧
      (windowEntryGate c tol s).gates = s.gates) ∨
    (s.gates s.currentSiteId = .tsx ∧ (windowEntryGate c tol s).phase = .atGate ∧
      (windowEntryGate c tol s).currentTxType = .undolog ∧
      (windowEntryGate c tol s).gates = Function.update s.gates s.currentSiteId .undolog) ∨
    (s.gates s.currentSiteId ≠ .tsx ∧
      windowEntryGate c tol s = { s with phase := .window .ltckpt, variant := .ltckpt }) := by
  unfold windowEntryGate
  by_cases hgate : s.gates s.currentSiteId = .tsx
  · simp only [if_pos hgate]
    cases tol with
    | none => exact .inl ⟨hgate, rfl, rfl, rfl⟩
    | some xbegin =>
      rcases tolTsx_words c xbegin s with h | h
      · exact .inl ⟨hgate, h⟩
      · exact .inr (.inl ⟨hgate, h⟩)
  · exact .inr (.inr ⟨hgate, if_neg hgate⟩)

theorem windowEntryGate_frame (c : Config) (tol : Option (ℕ → Bool)) (s : GateState) :
    (windowEntryGate c tol s).frame = s.frame := by
  unfold windowEntryGate
  split
  · cases tol with
    | none => rfl
    | some xbegin => exact tolTsx_frame c xbegin s
  · rfl

theorem eowTsx_frame : (eowTsx c s).frame = s.frame := by
  unfold eowTsx forgetTxType
  split
  · rfl
  · simp only
    split
    · split <;> rfl
    · rfl

theorem eowUndolog_frame : (eowUndolog c s).frame = s.frame := by
  have hcheck : ∀ s : GateState, (checkAndSwitch c s).frame = s.frame := by
    intro s
    unfold checkAndSwitch
    split
    · cases ratioReached c s.currentStats <;> rfl
    · rfl
  have hforget : (forgetTxType c s).frame = s.frame := by
    unfold forgetTxType
    split <;> rfl
  unfold eowUndolog
  cases c.dontRemember <;> cases c.autoAdapt <;> simp [hcheck, hforget]

theorem eowHook_frame (hook : Variant) : (eowHook c s hook).frame = s.frame := by
  cases hook with
  | tsx => exact eowTsx_frame c s
  | ltckpt => exact eowUndolog_frame c s

/-! ### What one event does -/

/-- The cases of `gateStep`.  The hook of the undo log runs in the ltckpt clone only. -/
inductive GateStep (c : Config) (s : GateState) : GateEvent → GateState → Prop
  | libcall (site : ℕ) (info : RcvryInfo) (hgap : s.phase = .gap) :
      GateStep c s (.libcall site info) { s with
        currentSiteId := site
        info := Function.update s.info site info
        phase := .atGate }
  | gate (tol : Option (ℕ → Bool)) (hgate : s.phase = .atGate) :
      GateStep c s (.gate tol) (windowEntryGate c tol s)
  | check (hrun : s.phase.running) : GateStep c s .check
      { s with variant := if s.currentTxType = .tsx then .tsx else .ltckpt }
  | endOfWindow (hrun : s.phase.running) :
      GateStep c s .endOfWindow { eowHook c s s.variant with phase := .gap }
  | ungatedEnd (hook : Variant) (hrun : s.phase.running)
      (hv : hook = .ltckpt → s.variant = .ltckpt) :
      GateStep c s (.ungatedEnd hook) { eowHook c s hook with phase := .ended }
  | sigsegv {n : ℕ} (htx : s.phase ≠ .atGate ∧ s.inTx = false)
      (hn : nextRepeat s.prevSiteId s.repeatCount s.currentSiteId = some n) :
      GateStep c s .sigsegv
        (closeGate { s with prevSiteId := s.currentSiteId, repeatCount := n })

theorem gateStep_cases {c : Config} {s s' : GateState} {e : GateEvent}
    (h : gateStep c s e = some s') : GateStep c s e s' := by
  cases e with
  | libcall site info =>
    obtain ⟨hgap, ⟨⟩⟩ := Option.ite_none_right_eq_some.mp h
    exact .libcall site info hgap
  | gate tol =>
    obtain ⟨hgate, ⟨⟩⟩ := Option.ite_none_right_eq_some.mp h
    exact .gate tol hgate
  | check =>
    obtain ⟨hrun, ⟨⟩⟩ := Option.ite_none_right_eq_some.mp h
    exact .check hrun
  | endOfWindow =>
    obtain ⟨hrun, ⟨⟩⟩ := Option.ite_none_right_eq_some.mp h
    exact .endOfWindow hrun
  | ungatedEnd hook =>
    obtain ⟨⟨hrun, hv⟩, ⟨⟩⟩ := Option.ite_none_right_eq_some.mp h
    exact .ungatedEnd hook hrun hv
  | sigsegv =>
    obtain ⟨htx, h⟩ := Option.ite_none_right_eq_some.mp h
    obtain ⟨s₁, hs₁, rfl⟩ := Option.map_eq_some_iff.mp h
    obtain ⟨n, hn, rfl⟩ := Option.map_eq_some_iff.mp hs₁
    exact .sigsegv htx hn

/-- **End of a window.** With a gate behind it or without, the step is that of the hook. -/
theorem gateStep_eow {c : Config} {s s' : GateState} {e : GateEvent} {hook : Variant}
    (he : e.hook s = some hook) (h : gateStep c s e = some s') :
    s.phase.running ∧ ∃ p, (p = .gap ∨ p = .ended) ∧ s' = { eowHook c s hook with phase := p } := by
  cases gateStep_cases h with
  | endOfWindow hrun =>
    obtain rfl := Option.some.inj he
    exact ⟨hrun, .gap, .inl rfl, rfl⟩
  | ungatedEnd k hrun =>
    obtain rfl := Option.some.inj he
    exact ⟨hrun, .ended, .inr rfl, rfl⟩
  | libcall | gate | check | sigsegv => cases he

end Firestarter.Hybrid
