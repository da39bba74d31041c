import Firestarter.Hybrid.Adaptation
import Firestarter.Hybrid.Machine

namespace Firestarter.Hybrid

open FlatMem Firestarter.Ltckpt Firestarter.Rcvry

/-!
# Crashes between two windows

A fault behind an end-of-window hook and before the next gate still resumes at the registers
saved for the window that has ended.  A transaction of that window has been committed, and the
undo log holds whatever window was logged last.

* `GapRecovered` — what the recovery would have to do;
* `StaysLogged` — a window whose stores are all in the log, with the values that the bytes had
  when the registers were saved;
* `LoggedSince` — **the invariant** from the saved registers on, by phase;
* `gap_crash_restores` — such a window is recovered from a crash;
* `gap_crash_keeps_committed` — a window on the TSX branch is not.
-/

variable {L : Layout}

/-! ### The property -/

/-- An instrumented store since the registers were saved wrote the byte. -/
def Written (s : HState) (x : ℕ) : Prop :=
  ∃ st ∈ s.stores, st.dst ≤ x ∧ x < st.dst + st.bytes.length

/-- **Recovered**: from `s` to `s'` every byte written since the registers were saved gets its
    value from then, and every region put back was logged by one of those stores. -/
def GapRecovered (s s' : HState) : Prop :=
  (∀ x, Written s x → s'.wl.mem x = s.savedMem x) ∧
    ∀ g ∈ s'.replayed, ∃ st ∈ s.stores, granule st.addr = g

/-- The granules of the instrumented stores since the registers were saved. -/
def HState.granules (s : HState) : List ℕ := s.stores.map fun st => granule st.addr

/-- The condition on the steps since the registers were saved: no other recovery; every window
    entered by the undo-log branch, with its top-of-the-loop call; every store made by the ltckpt
    clone, and no write that no hook watches touches its granule before it; such writes stay off
    the log. -/
def StaysLogged (c : HConfig) (s : HState) : HEvent L → Prop
  | .libcall .. | .sigsegv .. => False
  | .gate tol =>
    ∃ xbegin, tol = some xbegin ∧ (s.ctl.gates s.ctl.currentSiteId = .tsx →
      tsxReturnsEarly c.toConfig s.ctl = false ∧ tsxStarts c.toConfig xbegin = false ∧
        c.noRegRestoration = false)
  | .store st =>
    s.ctl.variant = .ltckpt ∧ Restorable L (granule st.addr) ∧
      (granule st.addr ∈ s.granules ∨ Untouched s.libWrites (granule st.addr))
  | .libWrite ws => ∀ w ∈ ws, Apart w.1 w.2.length L.wlData writelogBytes
  | .check | .free _ | .endOfWindow _ | .ungatedEnd _ => True

variable {s s' : HState} {c : HConfig}

/-- The granule of a written byte is that of its store. -/
theorem Written.granule_mem {x : ℕ} (h : Written s x) : granule x ∈ s.granules := by
  obtain ⟨st, hst, hlo, hhi⟩ := h
  have hle := st.granule_le
  have hend := st.le_granule
  have hg : granule x = granule st.addr :=
    granule_eq_of_mem (granule_spec st.addr).2.2 (by omega) (by omega)
  exact hg ▸ List.mem_map_of_mem hst

/-! ### The invariant -/

/-- **The invariant**, by phase.  At the gate nothing has been written and the reload of the
    slot writes what is there; behind it the log is open. -/
def LoggedSince (L : Layout) (s : HState) : Prop :=
  s.wl.ctx.checkpointInterval = 1 ∧
  if s.ctl.phase = .atGate then
    s.stores = [] ∧ s.libWrites = [] ∧ s.wl.mem = s.savedMem ∧
      writeLE s.savedMem s.callSite.retVal s.slotWidth s.rcvryReturnValue = s.savedMem
  else OpenLog L s.savedMem s.wl s.granules s.libWrites

/-- Saving the registers establishes the invariant. -/
theorem loggedSince_of_libcall {site : ℕ} {cs : CallSite} {width ret : ℕ}
    {ws : List (ℕ × List UInt8)} (hk : s.wl.ctx.checkpointInterval = 1)
    (h : hstep c s (.libcall (L := L) site cs width ret ws) = some s') : LoggedSince L s' := by
  obtain ⟨ctl, hctl, rfl⟩ := Option.map_eq_some_iff.mp h
  obtain ⟨-, ⟨⟩⟩ := Option.ite_none_right_eq_some.mp hctl
  exact ⟨hk, by simp [writeLE_writeLE_self]⟩

/-- A TSX attempt that gives up goes back to the gate. -/
theorem tolTsx_gives_up {c : Config} {xbegin : ℕ → Bool} {s : GateState}
    (h : tsxReturnsEarly c s = false ∧ tsxStarts c xbegin = false ∧ c.noRegRestoration = false) :
    (tolTsx c xbegin s).phase = .atGate := by
  obtain ⟨hearly, hstarts, hrestore⟩ := h
  have hearly' : tsxReturnsEarly c { s with phase := .window .tsx, variant := .tsx } = false :=
    hearly
  simp [tolTsx, hearly', hstarts, hrestore, switchToUndolog]

/-- **Step, at the gate.** The undo-log branch starts a window with an empty log; a TSX attempt
    that gives up changes nothing. -/
theorem enterWindow_loggedSince {tol : Option (ℕ → Bool)} (h : LoggedSince L s)
    (hgate : s.ctl.phase = .atGate) (hcond : StaysLogged c s (.gate (L := L) tol)) :
    LoggedSince L (enterWindow s tol.isSome (windowEntryGate c.toConfig tol s.ctl)) := by
  obtain ⟨xbegin, rfl, hgives⟩ := hcond
  obtain ⟨hk, hphase⟩ := h
  rw [if_pos hgate] at hphase
  obtain ⟨hstores, hlib, hmem, hreload⟩ := hphase
  have hreload' :
      writeLE s.wl.mem s.callSite.retVal s.slotWidth s.rcvryReturnValue = s.wl.mem := by
    rw [hmem]
    exact hreload
  unfold enterWindow
  simp only [hreload', Option.isSome_some, and_true]
  -- the reload has no effect, so each branch starts from the saved memory
  by_cases htsx : s.ctl.gates s.ctl.currentSiteId = .tsx
  · have hstays : (windowEntryGate c.toConfig (some xbegin) s.ctl).phase = .atGate := by
      rw [windowEntryGate, if_pos htsx]
      exact tolTsx_gives_up (hgives htsx)
    simp only [htsx, ne_eq, not_true_eq_false, if_false]
    exact ⟨hk, (if_pos hstays).mpr ⟨hstores, hlib, hmem, hreload⟩⟩
  · have hstart := OpenLog.start L (ltckptTopOfTheLoop_of_one s.wl hk)
    rw [ltckptTopOfTheLoop_mem, hmem] at hstart
    simp only [ne_eq, htsx, not_false_eq_true, if_true]
    rw [windowEntryGate_of_ne c.toConfig _ htsx]
    refine ⟨by simpa using hk, ?_⟩
    show OpenLog L s.savedMem _ (s.stores.map fun st => granule st.addr) s.libWrites
    rw [hstores, hlib]
    exact hstart

/-- Where the program's own code runs, the log is open. -/
theorem LoggedSince.openLog (h : LoggedSince L s) (hne : s.ctl.phase ≠ .atGate) :
    OpenLog L s.savedMem s.wl s.granules s.libWrites := by
  have hphase := h.2
  rwa [if_neg hne] at hphase

theorem Phase.ne_atGate_of_running {p : Phase} (h : p.running) : p ≠ .atGate := by
  rintro rfl
  cases h

/-- **Step, a store.** -/
theorem instrumentedStore_loggedSince {st : Store} (h : LoggedSince L s)
    (hcond : StaysLogged c s (.store (L := L) st)) (hstep : instrumentedStore L s st = some s') :
    LoggedSince L s' := by
  obtain ⟨hvariant, hst, hfirst⟩ := hcond
  obtain ⟨hrun, hstep⟩ := Option.ite_none_right_eq_some.mp hstep
  have hne := Phase.ne_atGate_of_running hrun
  rw [hvariant] at hstep
  obtain ⟨hroom, ⟨⟩⟩ := Option.ite_none_right_eq_some.mp hstep
  have hlog := (h.openLog hne).hookedStore hst hfirst hroom
  refine ⟨by simpa using h.1, (if_neg hne).mpr ?_⟩
  simpa [HState.granules] using hlog

/-- **Frame.** Behind the gate the invariant is about the log and its histories. -/
theorem LoggedSince.of_eq (h : LoggedSince L s) (hne : s.ctl.phase ≠ .atGate)
    (hne' : s'.ctl.phase ≠ .atGate) (hwl : s'.wl = s.wl) (hstores : s'.stores = s.stores)
    (hlib : s'.libWrites = s.libWrites) (hsaved : s'.savedMem = s.savedMem) : LoggedSince L s' := by
  refine ⟨hwl ▸ h.1, (if_neg hne').mpr ?_⟩
  rw [HState.granules, hwl, hstores, hlib, hsaved]
  exact h.openLog hne

/-- **Step, the end of a window**, with the list flushed or not. -/
theorem gateStep_eow_loggedSince {e : GateEvent} {hook : Variant} (h : LoggedSince L s)
    (he : e.hook s.ctl = some hook) (hctl : gateStep c.toConfig s.ctl e = some s'.ctl)
    (hwl : s'.wl = s.wl) (hstores : s'.stores = s.stores) (hlib : s'.libWrites = s.libWrites)
    (hsaved : s'.savedMem = s.savedMem) : LoggedSince L s' := by
  obtain ⟨hrun, p, hp, heq⟩ := gateStep_eow he hctl
  refine h.of_eq (Phase.ne_atGate_of_running hrun) ?_ hwl hstores hlib hsaved
  rw [heq]
  rcases hp with rfl | rfl <;> exact nofun

/-- **Step.** Every event that meets the condition keeps the invariant. -/
theorem hstep_loggedSince {e : HEvent L} (h : LoggedSince L s) (hcond : StaysLogged c s e)
    (hstep : hstep c s e = some s') : LoggedSince L s' := by
  cases e with
  | libcall site cs width ret ws => exact hcond.elim
  | sigsegv libc F => exact hcond.elim
  | libWrite ws =>
    obtain ⟨hne, ⟨⟩⟩ := Option.ite_none_right_eq_some.mp hstep
    exact ⟨h.1, (if_neg hne).mpr ((h.openLog hne).unhooked hcond)⟩
  | gate tol =>
    obtain ⟨ctl, hctl, rfl⟩ := Option.map_eq_some_iff.mp hstep
    obtain ⟨hgate, ⟨⟩⟩ := Option.ite_none_right_eq_some.mp hctl
    exact enterWindow_loggedSince h hgate hcond
  | check =>
    obtain ⟨ctl, hctl, rfl⟩ := Option.map_eq_some_iff.mp hstep
    obtain ⟨hrun, ⟨⟩⟩ := Option.ite_none_right_eq_some.mp hctl
    have hne := Phase.ne_atGate_of_running hrun
    exact h.of_eq hne hne rfl rfl rfl rfl
  | store st => exact instrumentedStore_loggedSince h hcond hstep
  | free ptr =>
    have hne := Phase.ne_atGate_of_running (Option.ite_none_right_eq_some.mp hstep).1.1
    rw [hstep_free_eq hstep]
    exact h.of_eq hne hne rfl rfl rfl rfl
  | endOfWindow nextSlot =>
    obtain ⟨ctl, hctl, rfl⟩ := Option.map_eq_some_iff.mp hstep
    cases flushes c s.ctl <;> exact gateStep_eow_loggedSince h rfl hctl rfl rfl rfl rfl
  | ungatedEnd hook =>
    obtain ⟨ctl, hctl, rfl⟩ := Option.map_eq_some_iff.mp hstep
    cases hookFlushes c s.ctl hook <;> exact gateStep_eow_loggedSince h rfl hctl rfl rfl rfl rfl

/-! ### The crash -/

/-- The handler leaves the global word as it finds it. -/
theorem gateStep_sigsegv_txType {c : Config} {s s' : GateState}
    (h : gateStep c s .sigsegv = some s') : s'.currentTxType = s.currentTxType := by
  cases gateStep_cases h
  rfl

/-- With the undo-log type, a handled crash is a dispatch followed by the restart hook. -/
theorem hstep_sigsegv_undolog {libc : Libc} {F : Frame L} (htx : s.ctl.currentTxType = .undolog)
    (h : hstep c s (.sigsegv libc F) = some s') :
    ∃ ra r, rcvryDispatch libc (raStart s) = .ok ra ∧
      ltckptRestartHook F true { s.wl with mem := ra.mem } = .ok r ∧
      s'.wl = r.state ∧ s'.replayed = r.restored := by
  obtain ⟨ctl, hctl, hact⟩ := Option.bind_eq_some_iff.mp h
  have htx' : ctl.currentTxType = .undolog := (gateStep_sigsegv_txType hctl).trans htx
  unfold rcvrySignalAction at hact
  split at hact
  · cases hact
  · rename_i ra hra
    simp only [if_pos htx'] at hact
    split at hact
    · cases hact
    · rename_i r hr
      cases hact
      exact ⟨ra, r, hra, hr, rfl, rfl⟩

/-- **Recovery in the gap.** Let the registers be saved in a state with `CP_INTERVAL` 1, and let
    every step from there to a crash, in the gap or before it, meet `StaysLogged`.  If the global
    word says undo log, the compensation's `int` stays off the log area and the stores off the
    restart hook's frame, the crash is recovered. -/
theorem gap_crash_restores (c : HConfig) (s₀ s₁ s s' : HState) (site : ℕ) (cs : CallSite)
    (width ret : ℕ) (ws : List (ℕ × List UInt8)) (es : List (HEvent L)) (libc : Libc) (F : Frame L)
    (hk : s₀.wl.ctx.checkpointInterval = 1)
    (hcall : hstep c s₀ (.libcall (L := L) site cs width ret ws) = some s₁)
    (hcond : Runs.Meets (StaysLogged c) (hstep c) s₁ es) (hrun : es.foldlM (hstep c) s₁ = some s)
    (htx : s.ctl.currentTxType = .undolog)
    (haddr : Apart s.rcvryReturnAddr 4 L.wlData writelogBytes)
    (hframe : ∀ st ∈ s.stores, Apart (granule st.addr) 8 F.lo F.size)
    (hcrash : hstep c s (.sigsegv libc F) = some s') : GapRecovered s s' := by
  have hinv : LoggedSince L s := Runs.invariant_of_run
    (fun _ _ _ h hc hs => hstep_loggedSince h hc hs) (loggedSince_of_libcall hk hcall) hcond hrun
  obtain ⟨ctl, hctl, -⟩ := Option.bind_eq_some_iff.mp hcrash
  have hlog := hinv.openLog (Option.ite_none_right_eq_some.mp hctl).1.1
  obtain ⟨ra, r, hra, hr, hwl, hreplayed⟩ := hstep_sigsegv_undolog htx hcrash
  obtain ⟨v, hmem⟩ := rcvryDispatch_mem libc hra
  -- the dispatch runs before the rollback; to the log it is one more write that no hook watches
  have hoff : ∀ w ∈ [(s.rcvryReturnAddr, wordLE 4 v)],
      Apart w.1 w.2.length L.wlData writelogBytes := by simpa using haddr
  have hlog' := hlog.unhooked hoff
  rw [show writeAll s.wl.mem [(s.rcvryReturnAddr, wordLE 4 v)] = ra.mem from hmem.symm] at hlog'
  have hF : ∀ g ∈ s.granules, Apart g 8 F.lo F.size := by
    intro g hg
    obtain ⟨st, hst, rfl⟩ := List.mem_map.mp hg
    exact hframe st hst
  obtain ⟨r', hr', -, -, hrestored, hback⟩ := hlog'.restart F hF
  rw [hr, Except.ok.injEq] at hr'
  subst hr'
  refine ⟨fun x hx => ?_, fun g hg => ?_⟩
  · have hlogged := hx.granule_mem
    rw [hwl]
    exact hback x (hlog.restorable hlogged).not_inLog (not_inFrame_of_apart (hF _ hlogged))
      (.inl hlogged)
  · rw [hreplayed, hrestored, List.mem_reverse] at hg
    exact List.mem_map.mp hg

/-! ### Two crashes -/

/-- The auto-adapt build with delayed frees as the shipped configurations ask for them, by the
    option of the pass. -/
def shippedConfig : HConfig := ⟨adaptConfig, false, false, true, []⟩

/-- The process before `main`, with `CP_INTERVAL` 1. -/
def shippedInit : HState := hInit shippedConfig (fun _ => 0) ⟨1, 0, 0, 0⟩

/-- A C library in which every compensation succeeds. -/
def obligingLibc : Libc := fun _ => 0

/-- `p = malloc(n)` with the result in a slot at `0x4100`. -/
def mallocSite : CallSite := ⟨"malloc", fun _ => 0, 0x4100⟩

/-- Startup ends, and `malloc` returns `0x5000` at site 1. -/
def enterMalloc : List (HEvent sampleLayout) :=
  [.endOfWindow 0x4100, .libcall 1 mallocSite 8 0x5000 []]

/-- A window that a transaction carries to its end: one store, then the commit. -/
def committedWindow : List (HEvent sampleLayout) :=
  [.gate (some fun _ => true), .store (sampleStore 7), .endOfWindow 0x4200]

/-- The same window after its transaction failed. -/
def loggedWindow : List (HEvent sampleLayout) :=
  [.gate (some fun _ => false), .gate (some fun _ => false), .store (sampleStore 7),
    .endOfWindow 0x4200]

/-- The state in the gap behind the committed window. -/
def committedGap : HState :=
  ((enterMalloc ++ committedWindow).foldlM (hstep shippedConfig) shippedInit).get
    (by decide +kernel)

/-- A crash inside the library call after a committed window: the global word says TSX, so
    nothing is rolled back, and the program resumes before the window with its store in
    memory. -/
theorem gap_crash_keeps_committed :
    ∃ s s' : HState,
      (enterMalloc ++ committedWindow).foldlM (hstep shippedConfig) shippedInit = some s ∧
      s.ctl.phase = .gap ∧ hstep shippedConfig s (.sigsegv obligingLibc sampleFrame) = some s' ∧
      s'.ctl.phase = .atGate ∧ ¬ GapRecovered s s' := by
  refine ⟨committedGap, (hstep shippedConfig committedGap (.sigsegv obligingLibc sampleFrame)).get
    (by decide +kernel), (Option.some_get _).symm, by decide +kernel, (Option.some_get _).symm,
    by decide +kernel, fun h => ?_⟩
  have hwritten : Written committedGap 0x4001 :=
    ⟨sampleStore 7, by
      have : committedGap.stores = [sampleStore 7] := rfl
      simp [this], by decide, by decide⟩
  exact absurd (h.1 0x4001 hwritten) (by decide +kernel)

/-- The state behind `enterMalloc`. -/
def savedAtMalloc : HState :=
  (enterMalloc.foldlM (hstep shippedConfig) shippedInit).get (by decide +kernel)

/-- The state in the gap behind the logged window. -/
def loggedGap : HState :=
  (loggedWindow.foldlM (hstep shippedConfig) savedAtMalloc).get (by decide +kernel)

theorem loggedWindow_meets : Runs.Meets (StaysLogged shippedConfig) (hstep shippedConfig)
    savedAtMalloc loggedWindow := by
  -- the attempt gives up, the second gate is the undo-log one, and the clone logs the store
  refine Runs.meets_cons ⟨_, rfl, fun _ => ⟨rfl, rfl, rfl⟩⟩
    (Option.some_get (by decide +kernel)).symm ?_
  refine Runs.meets_cons ⟨_, rfl, fun h => absurd h (by decide +kernel)⟩
    (Option.some_get (by decide +kernel)).symm ?_
  refine Runs.meets_cons ⟨by decide +kernel, (sampleStore_ok 7).restorable, .inr nofun⟩
    (Option.some_get (by decide +kernel)).symm ?_
  exact Runs.meets_cons trivial (Option.some_get (by decide +kernel)).symm trivial

/-- The logged window is recovered: its decision for the undo log keeps the global word. -/
theorem gap_crash_restores_logged :
    ∃ s', loggedGap.ctl.phase = .gap ∧ loggedGap.stores = [sampleStore 7] ∧
      hstep shippedConfig loggedGap (.sigsegv obligingLibc sampleFrame) = some s' ∧
      GapRecovered loggedGap s' := by
  have hstores : loggedGap.stores = [sampleStore 7] := rfl
  refine ⟨(hstep shippedConfig loggedGap (.sigsegv obligingLibc sampleFrame)).get
    (by decide +kernel), by decide +kernel, hstores, (Option.some_get _).symm, ?_⟩
  refine gap_crash_restores shippedConfig
    ((hstep (L := sampleLayout) shippedConfig shippedInit (.endOfWindow 0x4100)).get
      (by decide +kernel))
    savedAtMalloc loggedGap _ 1 mallocSite 8 0x5000 [] loggedWindow obligingLibc sampleFrame
    (by decide +kernel) rfl loggedWindow_meets (Option.some_get _).symm (by decide +kernel)
    (by decide +kernel) ?_ (Option.some_get _).symm
  intro st hst
  rw [hstores, List.mem_singleton] at hst
  exact hst ▸ (sampleStore_ok 7).apart_frame

end Firestarter.Hybrid
