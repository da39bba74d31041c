import Firestarter.Hybrid.Gates
import Firestarter.Ltckpt.Rollback
import Firestarter.Rcvry.Actions

namespace Firestarter.Hybrid

open FlatMem Firestarter.Ltckpt Firestarter.Rcvry

/-!
# The hybrid runtime

The gate machine together with what the hooks and the handler do to data: memory and the write
log, the return slot, and the list of delayed frees.

* `HState` — the control part is a `GateState`; the fields behind `freed` are histories that the
  code does not have;
* `hstep` — one event;
* `hstep_ctl` — **refinement**: every step of the runtime is a step of the gate machine, or
  leaves its state alone.
-/

/-! ### State -/

/-- `RCVRY_FREE_LIST_SIZE`. -/
def rcvryFreeListSize : ℕ := 16384

/-- The build flags of the gate machine, those of delayed frees, and the library calls that are
    undo-logged by command line. -/
structure HConfig extends Config where
  /-- `RCVRY_ENABLE_DELAYED_FREES`, a flag of the pass -/
  enableDelayedFrees : Bool
  /-- `RCVRY_DELAYED_FREE`, a flag of the hooks -/
  delayedFree : Bool
  /-- `-hybrcvry-insert-endofwindowhook=rcvry_ra_free_freelist`, an option of the pass -/
  insertEndOfWindowHook : Bool
  stmLibCalls : List String

/-- The state of the runtime. -/
structure HState where
  ctl : GateState
  wl : WlState
  /-- the call site whose registers are saved, and the bytes of its return slot -/
  callSite : CallSite
  slotWidth : ℕ
  rcvryReturnValue : ℕ
  rcvryReturnAddr : ℕ
  errno : Int
  /-- `freeList[0 .. freeListPos]` -/
  freeList : List ℕ
  /-- the pointers freed by flushes so far -/
  freed : List ℕ
  /-- the pointers on the list that were passed since the registers were saved or restored -/
  windowFrees : List ℕ
  /-- the memory when the registers were saved -/
  savedMem : Mem
  /-- the instrumented stores since then -/
  stores : List Store
  /-- the writes since then that no hook watches -/
  libWrites : List (ℕ × List UInt8)
  /-- the regions that the last restart put back -/
  replayed : List ℕ

/-- The runtime before `main` does anything. -/
def hInit (c : HConfig) (m : Mem) (ctx : Ctx) : HState where
  ctl := gateInit c.toConfig
  wl := ⟨m, 0, ctx⟩
  callSite := ⟨"", fun _ => 0, 0⟩
  slotWidth := 0
  rcvryReturnValue := 0
  rcvryReturnAddr := 0
  errno := 0
  freeList := []
  freed := []
  windowFrees := []
  savedMem := m
  stores := []
  libWrites := []
  replayed := []

/-! ### Delayed frees -/

/-- `rcvry_ra_delayed_free`; the assert bounds the list.  The function is in a section that no
    pass instruments, so no store hook sees the list change. -/
def raDelayedFree (s : HState) (ptr : ℕ) : Option HState :=
  if s.freeList.length < rcvryFreeListSize then
    some { s with freeList := s.freeList ++ [ptr], windowFrees := s.windowFrees ++ [ptr] }
  else none

/-- `rcvry_ra_free_freelist`: the loop runs while `i < freeListPos`, and `freeListPos` is the
    index of the last entry. -/
def raFreeFreelist (s : HState) : HState :=
  { s with freed := s.freed ++ s.freeList.dropLast, freeList := [], windowFrees := [] }

/-- The pass replaces the `free`s of instrumented functions. -/
def replacesFrees (c : HConfig) : Bool := c.enableDelayedFrees || c.insertEndOfWindowHook

/-- An end-of-window hook flushes the list, if it gets that far. -/
def hookFlushes (c : HConfig) (s : GateState) (hook : Variant) : Bool :=
  c.delayedFree && (hook == .ltckpt || !tsxReturnsEarly c.toConfig s)

/-- The list is flushed before a library call with a gate: by a call of its own that the pass
    inserts behind the end-of-window hook, or by the hook.  A flush by both is one flush, the
    second finds an empty list. -/
def flushes (c : HConfig) (s : GateState) : Bool :=
  c.insertEndOfWindowHook || hookFlushes c s s.variant

/-! ### Steps -/

/-- Events of the runtime. -/
inductive HEvent (L : Layout)
  /-- a library call with a gate: the memory it writes, its result, and everything the
      instrumentation does up to saving the registers -/
  | libcall (site : ℕ) (cs : CallSite) (width ret : ℕ) (writes : List (ℕ × List UInt8))
  /-- writes that no hook watches: of a library call that has not returned, of one without a gate,
      of a function that the passes exclude -/
  | libWrite (writes : List (ℕ × List UInt8))
  | gate (tol : Option (ℕ → Bool))
  | check
  /-- a store of instrumented code; the hook on the return address behind a top-of-the-loop call is
      one that stores what is there -/
  | store (s : Store)
  /-- a `free` of the program, replaced by `replaceWithDelayedFrees` -/
  | free (ptr : ℕ)
  /-- the end-of-window hook, and the slot of the library call that follows -/
  | endOfWindow (nextSlot : ℕ)
  /-- an end-of-window hook that no gate follows -/
  | ungatedEnd (hook : Variant)
  /-- a `SIGSEGV`: what the C library answers to the recovery action, and where the restart
      hook's frame comes to lie -/
  | sigsegv (libc : Libc) (frame : Frame L)

variable {L : Layout}

/-- The window-entry gate reloads `rcvry_return_value` into the slot and takes its branch; that of
    the undo log calls the top-of-the-loop hook, unless it has lost the call. -/
def enterWindow (s : HState) (hasTol : Bool) (ctl : GateState) : HState :=
  let wl := { s.wl with
    mem := writeLE s.wl.mem s.callSite.retVal s.slotWidth s.rcvryReturnValue }
  if s.ctl.gates s.ctl.currentSiteId ≠ .tsx ∧ hasTol then
    { s with ctl := ctl, wl := ltckptTopOfTheLoop wl }
  else { s with ctl := ctl, wl := wl }

/-- A store of instrumented code: the ltckpt clone calls the store hook first, the hooks of the
    TSX clone are empty. -/
def instrumentedStore (L : Layout) (s : HState) (st : Store) : Option HState :=
  if s.ctl.phase.running then
    match s.ctl.variant with
    | .ltckpt =>
      if s.wl.wlPosition + entrySize ≤ writelogBytes then
        some { s with wl := hookedStore L s.wl st, stores := s.stores ++ [st] }
      else none
    | .tsx =>
      some { s with
        wl := { s.wl with mem := write s.wl.mem st.dst st.bytes }
        stores := s.stores ++ [st] }
  else none

/-- What the recovery action starts from. -/
def raStart (s : HState) : RaState where
  mem := s.wl.mem
  rinfo := s.ctl.currentInfo
  gate := rcvryLibcallGateClose
  rcvryReturnValue := s.rcvryReturnValue
  rcvryReturnAddr := s.rcvryReturnAddr
  errno := s.errno
  calls := []

/-- `rcvry_signal_action(SIGSEGV)` behind the gates: dispatch the action, then roll back if the
    global word says undo log, then restore the registers. -/
def rcvrySignalAction (s : HState) (ctl : GateState) (libc : Libc) (F : Frame L) :
    Option HState :=
  match rcvryDispatch libc (raStart s) with
  | .error _ => none
  | .ok ra =>
    let s := { s with
      ctl := ctl
      wl := { s.wl with mem := ra.mem }
      rcvryReturnValue := ra.rcvryReturnValue
      errno := ra.errno
      windowFrees := []
      replayed := [] }
    if ctl.currentTxType = .undolog then
      match ltckptRestartHook F true s.wl with
      | .error _ => none
      | .ok r => some { s with wl := r.state, replayed := r.restored }
    else some s

/-- One event. -/
def hstep (c : HConfig) (s : HState) : HEvent L → Option HState
  | .libcall site cs width ret ws =>
    let info := setRecoveryAction c.stmLibCalls (s.ctl.info site) cs
    let mem := writeLE (writeAll s.wl.mem ws) cs.retVal width ret
    (gateStep c.toConfig s.ctl (.libcall site info)).map fun ctl =>
      { s with
        ctl := ctl
        wl := { s.wl with mem := mem }
        callSite := cs
        slotWidth := width
        rcvryReturnValue := ret
        windowFrees := []
        savedMem := mem
        stores := []
        libWrites := [] }
  | .libWrite ws =>
    if s.ctl.phase ≠ .atGate then
      some { s with
        wl := { s.wl with mem := writeAll s.wl.mem ws }
        libWrites := s.libWrites ++ ws }
    else none
  | .gate tol => (gateStep c.toConfig s.ctl (.gate tol)).map (enterWindow s tol.isSome)
  | .check => (gateStep c.toConfig s.ctl .check).map fun ctl => { s with ctl := ctl }
  | .store st => instrumentedStore L s st
  | .free ptr =>
    -- a `free` that is not replaced is a library call like any other
    if s.ctl.phase.running ∧ replacesFrees c then raDelayedFree s ptr else none
  | .endOfWindow nextSlot =>
    (gateStep c.toConfig s.ctl .endOfWindow).map fun ctl =>
      { (if flushes c s.ctl then raFreeFreelist s else s) with
        ctl := ctl
        rcvryReturnAddr := nextSlot }
  | .ungatedEnd hook =>
    (gateStep c.toConfig s.ctl (.ungatedEnd hook)).map fun ctl =>
      { (if hookFlushes c s.ctl hook then raFreeFreelist s else s) with ctl := ctl }
  | .sigsegv libc F =>
    (gateStep c.toConfig s.ctl .sigsegv).bind fun ctl => rcvrySignalAction s ctl libc F

/-! ### Refinement -/

/-- The event of the gate machine behind an event of the runtime, if it has one. -/
def HEvent.toGate (c : HConfig) (s : HState) : HEvent L → Option GateEvent
  | .libcall site cs _ _ _ =>
    some (.libcall site (setRecoveryAction c.stmLibCalls (s.ctl.info site) cs))
  | .gate tol => some (.gate tol)
  | .check => some .check
  | .endOfWindow _ => some .endOfWindow
  | .ungatedEnd hook => some (.ungatedEnd hook)
  | .sigsegv _ _ => some .sigsegv
  | .libWrite _ | .store _ | .free _ => none

@[simp] theorem enterWindow_ctl (s : HState) (hasTol : Bool) (ctl : GateState) :
    (enterWindow s hasTol ctl).ctl = ctl := by
  unfold enterWindow
  simp only
  split <;> rfl

variable {s s' : HState} {c : HConfig}

/-- A store changes the write log's state and the history of stores. -/
theorem instrumentedStore_eq {st : Store} (h : instrumentedStore L s st = some s') :
    s' = { s with wl := s'.wl, stores := s'.stores } := by
  obtain ⟨-, h⟩ := Option.ite_none_right_eq_some.mp h
  split at h
  · obtain ⟨-, ⟨⟩⟩ := Option.ite_none_right_eq_some.mp h
    rfl
  · cases h
    rfl

/-- A delayed free only extends the list. -/
theorem hstep_free_eq {ptr : ℕ} (h : hstep c s (.free (L := L) ptr) = some s') :
    s' = { s with freeList := s.freeList ++ [ptr], windowFrees := s.windowFrees ++ [ptr] } := by
  obtain ⟨-, h⟩ := Option.ite_none_right_eq_some.mp h
  obtain ⟨-, ⟨⟩⟩ := Option.ite_none_right_eq_some.mp h
  rfl

/-- The handler changes the control part as the gate machine says, the memory with its log, and
    what the action reports; in particular it leaves the free list alone. -/
theorem rcvrySignalAction_eq {ctl : GateState} {libc : Libc} {F : Frame L}
    (h : rcvrySignalAction s ctl libc F = some s') :
    s' = { s with
      ctl := ctl
      wl := s'.wl
      rcvryReturnValue := s'.rcvryReturnValue
      errno := s'.errno
      windowFrees := []
      replayed := s'.replayed } := by
  unfold rcvrySignalAction at h
  split at h
  · cases h
  · simp only at h
    split at h
    · split at h
      · cases h
      · cases h
        rfl
    · cases h
      rfl

/-- **Refinement.** On the control part, a step of the runtime is a step of the gate machine or
    none at all. -/
theorem hstep_ctl {e : HEvent L} (h : hstep c s e = some s') :
    match e.toGate c s with
    | some g => gateStep c.toConfig s.ctl g = some s'.ctl
    | none => s'.ctl = s.ctl := by
  cases e with
  | libcall site cs width ret ws =>
    obtain ⟨ctl, hctl, rfl⟩ := Option.map_eq_some_iff.mp h
    exact hctl
  | libWrite ws =>
    obtain ⟨-, ⟨⟩⟩ := Option.ite_none_right_eq_some.mp h
    rfl
  | gate tol =>
    obtain ⟨ctl, hctl, rfl⟩ := Option.map_eq_some_iff.mp h
    simpa [HEvent.toGate] using hctl
  | check =>
    obtain ⟨ctl, hctl, rfl⟩ := Option.map_eq_some_iff.mp h
    exact hctl
  | store st =>
    rw [instrumentedStore_eq h]
    rfl
  | free ptr =>
    rw [hstep_free_eq h]
    rfl
  | endOfWindow nextSlot =>
    obtain ⟨ctl, hctl, rfl⟩ := Option.map_eq_some_iff.mp h
    exact hctl
  | ungatedEnd hook =>
    obtain ⟨ctl, hctl, rfl⟩ := Option.map_eq_some_iff.mp h
    exact hctl
  | sigsegv libc F =>
    obtain ⟨ctl, hctl, hact⟩ := Option.bind_eq_some_iff.mp h
    rw [rcvrySignalAction_eq hact]
    exact hctl

/-- **Run.** Every run of the runtime drives its control part through a run of the gate
    machine. -/
theorem hrun_ctl {es : List (HEvent L)} (h : es.foldlM (hstep c) s = some s') :
    ∃ gs : List GateEvent, gs.foldlM (gateStep c.toConfig) s.ctl = some s'.ctl := by
  induction es generalizing s with
  | nil =>
    simp only [List.foldlM_nil, Option.pure_def, Option.some.injEq] at h
    exact ⟨[], by simp [h]⟩
  | cons e es ih =>
    obtain ⟨s₁, hstep, htail⟩ := Runs.run_cons.mp h
    obtain ⟨gs, hgs⟩ := ih htail
    have href := hstep_ctl hstep
    -- an event without a counterpart is a stuttering step of the gate machine
    cases hg : e.toGate c s with
    | none =>
      rw [hg] at href
      exact ⟨gs, href ▸ hgs⟩
    | some g =>
      rw [hg] at href
      exact ⟨g :: gs, Runs.run_cons.mpr ⟨_, href, hgs⟩⟩

end Firestarter.Hybrid
