import Mathlib.Data.Nat.Bitwise
import Firestarter.Lib.Run

namespace Firestarter.Minix

/-!
# Recovery windows on MINIX

A server handles one message at a time.  A window opens when the handling of a message starts
(`ltckpt_detect_start_of_window_hook`), and closes when a policy hook, a boundary call or a full
write log says so.  While it is open the store hooks log; `g_recovery_bitmask` collects the
recovery policies that the window needs, and `ltckpt_recovery_dispatcher` runs the strongest.

* `minixStep_grows`: policy bits only come in within a window.
* `windowInv_step`: what one event keeps.
* `minixRun_fail_stop`: along runs whose stores are logged or stopped, no policy but fail-stop
  runs for a window with an unlogged store.
* `meets_logsOrStops`: inputs for which the stores are.
-/

/-! ### Recovery masks -/

/-- Bit numbers of `LTCKPT_RECOVERY_MASK_IDEMPOTENT`, `..REQUEST_SPECIFIC`,
    `..PROCESS_SPECIFIC`, `..FAIL_STOP` and of `LTCKPT_RECOVERY_REPROCESSING_REQ`. -/
inductive RecoveryBit
  | idempotent | requestSpecific | processSpecific | failStop | reprocessingReq
deriving DecidableEq

def RecoveryBit.toNat : RecoveryBit → ℕ
  | .idempotent => 0
  | .requestSpecific => 1
  | .processSpecific => 2
  | .failStop => 3
  | .reprocessingReq => 4

/-- The mask of a bit. -/
def RecoveryBit.mask (b : RecoveryBit) : ℕ := 2 ^ b.toNat

/-- `mask & b` -/
def hasBit (mask : ℕ) (b : RecoveryBit) : Bool := mask &&& b.mask ≠ 0

/-- `g_recovery_naive_mode` -/
inductive NaiveMode
  | default | neverReply | conditionalReply | alwaysReply
deriving DecidableEq

/-- The recovery actions. -/
inductive Policy
  | idempotent | requestSpecific | processSpecific | failStop
deriving DecidableEq

/-- The policy that `ltckpt_recovery_dispatcher` runs, given what
    `ltckpt_is_message_replyable` answers. -/
def recoveryDispatcher (mode : NaiveMode) (isReplyable : ℤ) (mask : ℕ) : Option Policy :=
  let replyable := match mode with
    | .neverReply => 0
    | .alwaysReply => 1
    | _ => isReplyable
  if replyable = 1 then
    if hasBit mask .failStop then some .failStop
    else if hasBit mask .processSpecific then some .processSpecific
    else if hasBit mask .requestSpecific then some .requestSpecific
    else if hasBit mask .idempotent then some .idempotent
    else none
  else none

/-! ### State -/

/-- What a server is built and started with. -/
structure MinixConfig where
  /-- `CP_INTERVAL`; 0 disables checkpointing -/
  checkpointInterval : ℕ
  /-- `LTCKPT_WRITELOG_ALWAYS_ON` -/
  writelogAlwaysOn : Bool
  /-- `WRITELOG_BYTES` -/
  writelogBytes : ℕ
  /-- `sizeof(void*) + sizeof(region_t)` -/
  entryBytes : ℕ

structure MinixState where
  haveHandledMessage : Bool
  /-- `prior_have_handled_message` of the window hook -/
  priorHaveHandledMessage : Bool
  /-- `last_have_handled_message` of the profiling hook -/
  lastHaveHandledMessage : Bool
  /-- `sa_window__is_open` -/
  windowIsOpen : Bool
  recoveryBitmask : ℕ
  writelogEnabled : Bool
  wlPosition : ℕ
  numTols : ℕ
  /-- history: an instrumented store of this message window went unlogged -/
  unlogged : Bool
deriving DecidableEq

variable (c : MinixConfig)

/-- The globals' initial values. -/
def minixInit : MinixState where
  haveHandledMessage := false
  priorHaveHandledMessage := false
  lastHaveHandledMessage := false
  windowIsOpen := false
  recoveryBitmask := RecoveryBit.idempotent.mask
  writelogEnabled := c.writelogAlwaysOn
  wlPosition := 0
  numTols := 0
  unlogged := false

/-- `g_recovery_bitmask |= b` -/
def MinixState.addBit (s : MinixState) (b : RecoveryBit) : MinixState :=
  { s with recoveryBitmask := s.recoveryBitmask ||| b.mask }

/-- Record that a store of the current window was not logged. -/
def MinixState.noteUnlogged (s : MinixState) : MinixState :=
  { s with unlogged := s.unlogged || s.haveHandledMessage }

/-! ### Hooks -/

/-- `ltckpt_detect_start_of_window_hook` -/
def detectStartOfWindow (s : MinixState) : MinixState :=
  let s' :=
    if !s.priorHaveHandledMessage && s.haveHandledMessage then
      { s with
        windowIsOpen := true
        recoveryBitmask := RecoveryBit.idempotent.mask
        unlogged := false }
    else if s.priorHaveHandledMessage && !s.haveHandledMessage then
      { s with windowIsOpen := false }
    else s
  { s' with priorHaveHandledMessage := s.haveHandledMessage }

/-- The part of the profiling hook of `ltckpt_aop.c` that concerns the window. -/
def aopHook (s : MinixState) : MinixState :=
  { s with
    windowIsOpen := s.windowIsOpen && !(!s.haveHandledMessage && s.lastHaveHandledMessage)
    lastHaveHandledMessage := s.haveHandledMessage }

/-- `ltckpt_close_r_window` -/
def closeRWindow (s : MinixState) : MinixState :=
  -- no recovery policy is set here
  if s.haveHandledMessage && s.windowIsOpen then { s with windowIsOpen := false } else s

/-- `ltckpt_set_idempotent_recovery` -/
def setIdempotentRecovery (s : MinixState) : MinixState := s.addBit .idempotent

/-- `ltckpt_set_request_specific_recovery`, which sets the idempotent bit. -/
def setRequestSpecificRecovery (s : MinixState) : MinixState := s.addBit .idempotent

/-- `ltckpt_set_process_local_recovery` -/
def setProcessLocalRecovery (s : MinixState) : MinixState := s.addBit .processSpecific

/-- `ltckpt_set_fail_stop_recovery` -/
def setFailStopRecovery (s : MinixState) : MinixState := (closeRWindow s).addBit .failStop

/-- `ltckpt_activate_req_rehandling` -/
def activateReqRehandling (s : MinixState) : MinixState := s.addBit .reprocessingReq

/-- `ltckpt_deactivate_req_rehandling` -/
def deactivateReqRehandling (s : MinixState) : MinixState :=
  { s with
    recoveryBitmask := s.recoveryBitmask &&& (2 ^ 32 - 1 - RecoveryBit.reprocessingReq.mask) }

/-- The overflow check behind an appended entry. -/
def checkOverflow (s : MinixState) : MinixState :=
  if s.wlPosition ≥ c.writelogBytes then { s.addBit .failStop with windowIsOpen := false } else s

/-- `ltckpt_write_wl`; `none` where the append runs into the guard page. -/
def writeWl (s : MinixState) : Option MinixState :=
  -- outside of a window nothing is logged
  if !s.windowIsOpen then some s.noteUnlogged
  else if s.wlPosition + c.entryBytes > c.writelogBytes then none
  else some (checkOverflow c { s with wlPosition := s.wlPosition + c.entryBytes })

/-- The store hook. -/
def storeHook (s : MinixState) : Option MinixState :=
  if s.writelogEnabled then writeWl c s else some s.noteUnlogged

/-- The loop of the memcpy hook over `n` regions. -/
def memcpyLoop : ℕ → MinixState → Option MinixState
  | 0, s => some s
  | n + 1, s => (writeWl c s).bind (memcpyLoop n)

/-- The memcpy hook, for a range of `n` regions. -/
def memcpyHook (n : ℕ) (s : MinixState) : Option MinixState :=
  if !s.writelogEnabled then some (if n = 0 then s else s.noteUnlogged) else memcpyLoop c n s

/-- The top-of-the-loop hook of the write log. -/
def topOfTheLoop (s : MinixState) : MinixState :=
  let skips := c.checkpointInterval = 0 ∨ s.numTols % c.checkpointInterval > 0
  let s := { s with numTols := s.numTols + 1 }
  -- `CTX_NEW_TOL_OR_RETURN` leaves the hook before the log is emptied and switched on
  if skips then s else { s with wlPosition := 0, writelogEnabled := true }

/-! ### Steps -/

inductive MinixEvent
  /-- the handling of a message starts or ends, seen by the window hook -/
  | message (starts : Bool)
  | aop
  | store
  | memcpy (regions : ℕ)
  | topOfTheLoop
  | boundaryCall
  | setIdempotent
  | setRequestSpecific
  | setProcessLocal
  | setFailStop
  | activateRehandling
  | deactivateRehandling
deriving DecidableEq

/-- One event; `none` where it ends in a fault. -/
def minixStep (s : MinixState) : MinixEvent → Option MinixState
  | .message starts => some (detectStartOfWindow { s with haveHandledMessage := starts })
  | .aop => some (aopHook s)
  | .store => storeHook c s
  | .memcpy n => memcpyHook c n s
  | .topOfTheLoop => some (topOfTheLoop c s)
  | .boundaryCall => some (closeRWindow s)
  | .setIdempotent => some (setIdempotentRecovery s)
  | .setRequestSpecific => some (setRequestSpecificRecovery s)
  | .setProcessLocal => some (setProcessLocalRecovery s)
  | .setFailStop => some (setFailStopRecovery s)
  | .activateRehandling => some (activateReqRehandling s)
  | .deactivateRehandling => some (deactivateReqRehandling s)

/-! ### Bits -/

variable {m n : ℕ} {b : RecoveryBit} {s s' : MinixState} {e : MinixEvent}

theorem hasBit_iff : hasBit m b = true ↔ m.testBit b.toNat = true := by
  rw [hasBit, decide_eq_true_eq, RecoveryBit.mask, Nat.and_two_pow]
  cases m.testBit b.toNat <;> simp

theorem RecoveryBit.toNat_inj {b' : RecoveryBit} : b.toNat = b'.toNat ↔ b = b' := by
  cases b <;> cases b' <;> decide

theorem hasBit_or {b' : RecoveryBit} :
    hasBit (m ||| b.mask) b' = true ↔ hasBit m b' = true ∨ b = b' := by
  rw [hasBit_iff, hasBit_iff, RecoveryBit.mask, Nat.testBit_or, Bool.or_eq_true,
    Nat.testBit_two_pow, decide_eq_true_eq, RecoveryBit.toNat_inj]

/-- The policy bits of a mask are among those of another. -/
def PolicyGrows (m m' : ℕ) : Prop :=
  ∀ b, b ≠ .reprocessingReq → hasBit m b = true → hasBit m' b = true

theorem PolicyGrows.refl (m : ℕ) : PolicyGrows m m := fun _ _ h => h

theorem PolicyGrows.trans {m₁ m₂ m₃ : ℕ} (h : PolicyGrows m₁ m₂) (h' : PolicyGrows m₂ m₃) :
    PolicyGrows m₁ m₃ := fun b hb hm => h' b hb (h b hb hm)

theorem policyGrows_addBit (s : MinixState) (b : RecoveryBit) :
    PolicyGrows s.recoveryBitmask (s.addBit b).recoveryBitmask :=
  fun _ _ h => hasBit_or.mpr (.inl h)

/-- Taking back the rehandling bit keeps the policy bits. -/
theorem policyGrows_deactivate (s : MinixState) :
    PolicyGrows s.recoveryBitmask (deactivateReqRehandling s).recoveryBitmask := by
  intro b hb h
  have hkept : (2 ^ 32 - 1 - RecoveryBit.reprocessingReq.mask).testBit b.toNat = true := by
    cases b with
    | reprocessingReq => exact absurd rfl hb
    | idempotent => decide
    | requestSpecific => decide
    | processSpecific => decide
    | failStop => decide
  rw [hasBit_iff] at h ⊢
  show (s.recoveryBitmask &&& _).testBit b.toNat = true
  rw [Nat.testBit_and, h, hkept]
  rfl

/-! ### Policies only accumulate -/

variable {c}

theorem checkOverflow_grows (s : MinixState) :
    PolicyGrows s.recoveryBitmask (checkOverflow c s).recoveryBitmask := by
  unfold checkOverflow
  split
  · exact policyGrows_addBit s .failStop
  · exact PolicyGrows.refl _

theorem writeWl_grows (h : writeWl c s = some s') :
    PolicyGrows s.recoveryBitmask s'.recoveryBitmask := by
  unfold writeWl at h
  split at h
  · cases h
    exact PolicyGrows.refl _
  · split at h
    · cases h
    · cases h
      exact checkOverflow_grows { s with wlPosition := s.wlPosition + c.entryBytes }

theorem memcpyLoop_grows (h : memcpyLoop c n s = some s') :
    PolicyGrows s.recoveryBitmask s'.recoveryBitmask := by
  induction n generalizing s with
  | zero =>
    cases h
    exact PolicyGrows.refl _
  | succ n ih =>
    obtain ⟨s₁, h₁, h₂⟩ := Option.bind_eq_some_iff.mp h
    exact (writeWl_grows h₁).trans (ih h₂)

/-- The event starts a message window. -/
def Enters (s : MinixState) (e : MinixEvent) : Prop :=
  e = .message true ∧ s.priorHaveHandledMessage = false

/-- **Policies accumulate.**  No event but the start of a window takes a policy bit away. -/
theorem minixStep_grows (h : minixStep c s e = some s') (henters : ¬ Enters s e) :
    PolicyGrows s.recoveryBitmask s'.recoveryBitmask := by
  cases e with
  | store =>
    simp only [minixStep, storeHook] at h
    split at h
    · exact writeWl_grows h
    · cases h
      exact PolicyGrows.refl _
  | memcpy n =>
    simp only [minixStep, memcpyHook] at h
    split at h
    · cases h
      split <;> exact PolicyGrows.refl _
    · exact memcpyLoop_grows h
  | message starts =>
    simp only [minixStep, Option.some.injEq] at h
    subst h
    cases starts with
    | true =>
      have hprior : s.priorHaveHandledMessage = true := by
        simpa [Enters] using henters
      simp only [detectStartOfWindow, hprior]
      exact PolicyGrows.refl _
    | false =>
      simp only [detectStartOfWindow]
      cases s.priorHaveHandledMessage <;> exact PolicyGrows.refl _
  | topOfTheLoop =>
    simp only [minixStep, Option.some.injEq] at h
    subst h
    unfold topOfTheLoop
    simp only
    split <;> exact PolicyGrows.refl _
  | aop => cases h; exact PolicyGrows.refl _
  | boundaryCall =>
    cases h
    unfold closeRWindow
    split <;> exact PolicyGrows.refl _
  | setIdempotent => cases h; exact policyGrows_addBit s _
  | setRequestSpecific => cases h; exact policyGrows_addBit s _
  | setProcessLocal => cases h; exact policyGrows_addBit s _
  | setFailStop =>
    cases h
    have hclose : (closeRWindow s).recoveryBitmask = s.recoveryBitmask := by
      unfold closeRWindow
      split <;> rfl
    rw [← hclose]
    exact policyGrows_addBit (closeRWindow s) _
  | activateRehandling => cases h; exact policyGrows_addBit s _
  | deactivateRehandling => cases h; exact policyGrows_deactivate s

/-! ### The window invariant -/

/-- The fail-stop bit is set. -/
def FailStop (s : MinixState) : Prop := hasBit s.recoveryBitmask .failStop = true

instance (s : MinixState) : Decidable (FailStop s) := inferInstanceAs (Decidable (_ = _))

/-- What holds between events: the window hook is up to date, a window that is closed in the
    middle of a message is marked fail-stop, and so is one with an unlogged store. -/
structure WindowInv (s : MinixState) : Prop where
  prior : s.priorHaveHandledMessage = s.haveHandledMessage
  closed : s.haveHandledMessage = true → s.windowIsOpen = false → FailStop s
  unlogged : s.unlogged = true → FailStop s

/-- Logging is off, or the window closes without a policy: the steps that have to be excluded
    unless the window is marked fail-stop already. -/
def LogsOrStops (s : MinixState) : MinixEvent → Prop
  | .store =>
    s.haveHandledMessage = true → s.windowIsOpen = true → s.writelogEnabled = true ∨ FailStop s
  | .memcpy n => n ≠ 0 →
    s.haveHandledMessage = true → s.windowIsOpen = true → s.writelogEnabled = true ∨ FailStop s
  | .boundaryCall => s.haveHandledMessage = true → s.windowIsOpen = true → FailStop s
  | _ => True

instance (s : MinixState) (e : MinixEvent) : Decidable (LogsOrStops s e) := by
  unfold LogsOrStops
  cases e <;> exact inferInstance

theorem windowInv_minixInit (c : MinixConfig) : WindowInv (minixInit c) where
  prior := rfl
  closed h := absurd h (by simp [minixInit])
  unlogged h := absurd h (by simp [minixInit])

/-- A step inside or outside of a window keeps the invariant if it closes the window, or misses a
    store, only with the fail-stop bit set. -/
theorem WindowInv.step (h : WindowInv s) (hgrows : PolicyGrows s.recoveryBitmask s'.recoveryBitmask)
    (hprior : s'.priorHaveHandledMessage = s.priorHaveHandledMessage)
    (hhave : s'.haveHandledMessage = s.haveHandledMessage)
    (hopen : s.haveHandledMessage = true → s.windowIsOpen = true → s'.windowIsOpen = false →
      FailStop s') (hunlogged : s'.unlogged = true → s.unlogged = true ∨ FailStop s') :
    WindowInv s' := by
  have hstop : FailStop s → FailStop s' := hgrows .failStop (by decide)
  refine ⟨by rw [hprior, hhave, h.prior], fun hm hclosed => ?_, fun hu => ?_⟩
  -- the window was closed by this step or before it
  · rw [hhave] at hm
    by_cases hs : s.windowIsOpen = true
    · exact hopen hm hs hclosed
    · exact hstop (h.closed hm (Bool.eq_false_iff.mpr hs))
  · exact (hunlogged hu).elim (fun hs => hstop (h.unlogged hs)) id

/-- An event that changes neither the flags nor the history. -/
theorem WindowInv.of_same (h : WindowInv s)
    (hgrows : PolicyGrows s.recoveryBitmask s'.recoveryBitmask)
    (hprior : s'.priorHaveHandledMessage = s.priorHaveHandledMessage)
    (hhave : s'.haveHandledMessage = s.haveHandledMessage)
    (hopen : s'.windowIsOpen = s.windowIsOpen) (hunlogged : s'.unlogged = s.unlogged) :
    WindowInv s' :=
  h.step hgrows hprior hhave (fun _ hs hs' => absurd (hopen ▸ hs') (by simp [hs]))
    (fun hu => .inl (hunlogged ▸ hu))

theorem WindowInv.noteUnlogged (h : WindowInv s)
    (hstop : s.haveHandledMessage = true → FailStop s) : WindowInv s.noteUnlogged := by
  refine h.step (PolicyGrows.refl _) rfl rfl (fun _ hs hs' => absurd hs' (by simp [hs,
    MinixState.noteUnlogged])) fun hu => ?_
  rcases Bool.or_eq_true_iff.mp hu with hu | hm
  · exact .inl hu
  · exact .inr (hstop hm)

/-- A store that finds the window closed, or nothing to log into, is one of a fail-stop window. -/
theorem WindowInv.failStop_of_handled (h : WindowInv s)
    (hopen : s.haveHandledMessage = true → s.windowIsOpen = true → FailStop s)
    (hm : s.haveHandledMessage = true) : FailStop s := by
  by_cases hs : s.windowIsOpen = true
  · exact hopen hm hs
  · exact h.closed hm (Bool.eq_false_iff.mpr hs)

theorem WindowInv.writeWl (h : WindowInv s) (hw : writeWl c s = some s') : WindowInv s' := by
  have hgrows := writeWl_grows hw
  unfold Minix.writeWl at hw
  by_cases hs : s.windowIsOpen = true
  · rw [if_neg (by simp [hs])] at hw
    split at hw
    · cases hw
    · cases hw
      by_cases hfull : s.wlPosition + c.entryBytes ≥ c.writelogBytes
      · -- the entry was the last one: closed, and marked
        have hover : checkOverflow c { s with wlPosition := s.wlPosition + c.entryBytes } =
            { MinixState.addBit { s with wlPosition := s.wlPosition + c.entryBytes } .failStop with
              windowIsOpen := false } := if_pos hfull
        rw [hover] at hgrows ⊢
        exact h.step hgrows rfl rfl (fun _ _ _ => hasBit_or.mpr (.inr rfl)) fun hu => .inl hu
      · have hroom : checkOverflow c { s with wlPosition := s.wlPosition + c.entryBytes } =
            { s with wlPosition := s.wlPosition + c.entryBytes } := if_neg hfull
        rw [hroom] at hgrows ⊢
        exact h.of_same hgrows rfl rfl rfl rfl
  · rw [if_pos (by simp [hs])] at hw
    cases hw
    exact h.noteUnlogged fun hm => h.closed hm (Bool.eq_false_iff.mpr hs)

theorem WindowInv.memcpyLoop (h : WindowInv s) (hl : memcpyLoop c n s = some s') :
    WindowInv s' := by
  induction n generalizing s with
  | zero => cases hl; exact h
  | succ n ih =>
    obtain ⟨s₁, h₁, h₂⟩ := Option.bind_eq_some_iff.mp hl
    exact ih (h.writeWl h₁) h₂

/-- The start or the end of a message brings the window up to date. -/
theorem WindowInv.detectStart (h : WindowInv s) (starts : Bool) :
    WindowInv (detectStartOfWindow { s with haveHandledMessage := starts }) := by
  cases hprior : s.priorHaveHandledMessage with
  | false =>
    cases starts with
    | true =>
      -- a window opens, with a fresh mask and history
      simp only [detectStartOfWindow]
      exact ⟨rfl, fun _ hclosed => absurd hclosed (by simp), fun hu => absurd hu (by simp)⟩
    | false =>
      simp only [detectStartOfWindow]
      exact ⟨rfl, fun hm => absurd hm (by simp), fun hu => h.unlogged hu⟩
  | true =>
    cases starts with
    | true =>
      simp only [detectStartOfWindow]
      exact ⟨rfl, fun _ hclosed => h.closed (h.prior ▸ hprior) hclosed, fun hu => h.unlogged hu⟩
    | false =>
      simp only [detectStartOfWindow]
      exact ⟨rfl, fun hm => absurd hm (by simp), fun hu => h.unlogged hu⟩

/-- **One event** that logs or stops keeps the invariant. -/
theorem windowInv_step (h : WindowInv s) (hcond : LogsOrStops s e)
    (hs : minixStep c s e = some s') : WindowInv s' := by
  cases e with
  | message starts =>
    cases hs
    exact h.detectStart starts
  | aop =>
    cases hs
    refine h.step (PolicyGrows.refl _) rfl rfl (fun hm hopen hclosed => ?_) fun hu => .inl hu
    simp [aopHook, hm, hopen] at hclosed
  | store =>
    simp only [minixStep, storeHook] at hs
    by_cases hen : s.writelogEnabled = true
    · rw [if_pos hen] at hs
      exact h.writeWl hs
    · rw [if_neg hen] at hs
      cases hs
      exact h.noteUnlogged (h.failStop_of_handled fun hm ho => (hcond hm ho).resolve_left hen)
  | memcpy n =>
    simp only [minixStep, memcpyHook] at hs
    by_cases hen : s.writelogEnabled = true
    · rw [if_neg (by simp [hen])] at hs
      exact h.memcpyLoop hs
    · rw [if_pos (by simp [hen])] at hs
      cases hs
      by_cases hn : n = 0
      · rw [if_pos hn]
        exact h
      · rw [if_neg hn]
        exact h.noteUnlogged (h.failStop_of_handled fun hm ho => (hcond hn hm ho).resolve_left hen)
  | topOfTheLoop =>
    cases hs
    unfold topOfTheLoop
    simp only
    split <;> exact h.of_same (PolicyGrows.refl _) rfl rfl rfl rfl
  | boundaryCall =>
    cases hs
    unfold closeRWindow
    split
    · exact h.step (PolicyGrows.refl _) rfl rfl (fun hm ho _ => hcond hm ho) fun hu => .inl hu
    · exact h
  | setIdempotent => cases hs; exact h.of_same (policyGrows_addBit s _) rfl rfl rfl rfl
  | setRequestSpecific => cases hs; exact h.of_same (policyGrows_addBit s _) rfl rfl rfl rfl
  | setProcessLocal => cases hs; exact h.of_same (policyGrows_addBit s _) rfl rfl rfl rfl
  | setFailStop =>
    have hgrows := minixStep_grows hs (fun henters => by simp [Enters] at henters)
    cases hs
    have hclose : closeRWindow s = { s with windowIsOpen := (closeRWindow s).windowIsOpen } := by
      unfold closeRWindow
      split <;> rfl
    simp only [setFailStopRecovery] at hgrows ⊢
    rw [hclose] at hgrows ⊢
    exact h.step hgrows rfl rfl (fun _ _ _ => hasBit_or.mpr (.inr rfl)) fun hu => .inl hu
  | activateRehandling => cases hs; exact h.of_same (policyGrows_addBit s _) rfl rfl rfl rfl
  | deactivateRehandling => cases hs; exact h.of_same (policyGrows_deactivate s) rfl rfl rfl rfl

/-! ### The dispatcher -/

/-- In the default mode a mask with the fail-stop bit leaves no other policy to run. -/
theorem recoveryDispatcher_of_failStop (hm : hasBit m .failStop = true) {r : ℤ} {p : Policy}
    (h : recoveryDispatcher .default r m = some p) : p = .failStop := by
  simp only [recoveryDispatcher, hm, if_true, Option.ite_none_right_eq_some,
    Option.some.injEq] at h
  exact h.2.symm

/-- **No incomplete log is rolled back.**  In every run in which the stores of an open window
    are logged and boundary calls come with the fail-stop bit: policy bits only come in until
    the next window, a window that is closed while a message is handled has the fail-stop bit,
    and for a window with an unlogged store the dispatcher runs no policy but fail-stop. -/
theorem minixRun_fail_stop (c : MinixConfig) (es : List MinixEvent) (t : MinixState)
    (hrun : es.foldlM (minixStep c) (minixInit c) = some t)
    (hcond : Runs.Meets LogsOrStops (minixStep c) (minixInit c) es) :
    (∀ e t', minixStep c t e = some t' → ¬ Enters t e →
      PolicyGrows t.recoveryBitmask t'.recoveryBitmask) ∧
    (t.haveHandledMessage = true → t.windowIsOpen = false → FailStop t) ∧
    (t.unlogged = true → ∀ replyable p,
      recoveryDispatcher .default replyable t.recoveryBitmask = some p → p = .failStop) := by
  -- growth needs no condition, the other two are read off the invariant
  have hinv : WindowInv t := Runs.invariant_of_run
    (fun s e s' hs hP hstep => windowInv_step hs hP hstep) (windowInv_minixInit c) hcond hrun
  exact ⟨fun e t' hstep henters => minixStep_grows hstep henters, hinv.closed,
    fun hu r p hp => recoveryDispatcher_of_failStop (hinv.unlogged hu) hp⟩

/-! ### Runs that log or stop -/

/-- What only messages and top-of-the-loop calls change. -/
def MinixState.logging (s : MinixState) : Bool × ℕ × Bool :=
  (s.writelogEnabled, s.numTols, s.haveHandledMessage)

theorem writeWl_logging (h : writeWl c s = some s') : s'.logging = s.logging := by
  unfold writeWl at h
  split_ifs at h
  · cases h
    rfl
  · cases h
    unfold checkOverflow
    split <;> rfl

theorem memcpyLoop_logging (h : memcpyLoop c n s = some s') : s'.logging = s.logging := by
  induction n generalizing s with
  | zero =>
    cases h
    rfl
  | succ n ih =>
    obtain ⟨s₁, h₁, h₂⟩ := Option.bind_eq_some_iff.mp h
    exact (ih h₂).trans (writeWl_logging h₁)

theorem minixStep_logging (h : minixStep c s e = some s') (hmsg : ∀ starts, e ≠ .message starts)
    (htol : e ≠ .topOfTheLoop) : s'.logging = s.logging := by
  cases e with
  | message starts => exact absurd rfl (hmsg starts)
  | topOfTheLoop => exact absurd rfl htol
  | store =>
    simp only [minixStep, storeHook] at h
    split_ifs at h
    · exact writeWl_logging h
    · cases h
      rfl
  | memcpy n =>
    simp only [minixStep, memcpyHook] at h
    split_ifs at h
    · cases h
      rfl
    · cases h
      rfl
    · exact memcpyLoop_logging h
  | boundaryCall =>
    cases h
    unfold closeRWindow
    split <;> rfl
  | setFailStop =>
    cases h
    unfold setFailStopRecovery closeRWindow
    split <;> rfl
  | _ =>
    cases h
    rfl

/-- Once enabled, the log stays enabled. -/
theorem minixStep_enabled (h : minixStep c s e = some s') (hen : s.writelogEnabled = true) :
    s'.writelogEnabled = true := by
  cases e with
  | message starts =>
    cases h
    simp only [detectStartOfWindow]
    split_ifs <;> exact hen
  | topOfTheLoop =>
    cases h
    simp only [topOfTheLoop]
    split_ifs
    · exact hen
    · rfl
  | _ => exact (congrArg Prod.fst (minixStep_logging h nofun nofun)).trans hen

/-- A top-of-the-loop call comes before the first message. -/
def TolFirst : List MinixEvent → Prop
  | [] => True
  | .topOfTheLoop :: _ => True
  | .message true :: _ => False
  | _ :: es => TolFirst es

/-- With the log enabled only a boundary call on its own does not log or stop. -/
theorem meets_of_enabled {es : List MinixEvent} (hen : s.writelogEnabled = true)
    (hes : .boundaryCall ∉ es) : Runs.Meets LogsOrStops (minixStep c) s es := by
  induction es generalizing s with
  | nil => trivial
  | cons e es ih =>
    obtain ⟨he, hes⟩ := List.ne_and_not_mem_of_not_mem_cons hes
    refine ⟨?_, fun s' hs => ih (minixStep_enabled hs hen) hes⟩
    cases e with
    | store => exact fun _ _ => .inl hen
    | memcpy n => exact fun _ _ _ => .inl hen
    | boundaryCall => exact absurd rfl he
    | _ => trivial

/-- **Inputs that log or stop.**  With checkpoints enabled, a top-of-the-loop call before the first
    message and no boundary call on its own, every step logs its stores or stops. -/
theorem meets_logsOrStops (hk : c.checkpointInterval ≠ 0) {es : List MinixEvent}
    (hidle : s.haveHandledMessage = false) (hfirst : s.numTols = 0) (htol : TolFirst es)
    (hes : .boundaryCall ∉ es) : Runs.Meets LogsOrStops (minixStep c) s es := by
  induction es generalizing s with
  | nil => trivial
  | cons e es ih =>
    have hnot : ¬ s.haveHandledMessage = true := by simp [hidle]
    obtain ⟨-, hes'⟩ := List.ne_and_not_mem_of_not_mem_cons hes
    refine ⟨?_, fun s' hs => ?_⟩
    · cases e with
      | store => exact fun hm => absurd hm hnot
      | memcpy n => exact fun _ hm => absurd hm hnot
      | boundaryCall => exact fun hm => absurd hm hnot
      | _ => trivial
    · cases e with
      | topOfTheLoop =>
        -- the first call switches the log on
        cases hs
        refine meets_of_enabled ?_ hes'
        simp only [topOfTheLoop, hfirst, Nat.zero_mod, hk, Nat.lt_irrefl, or_self, if_false]
      | message starts =>
        cases starts with
        | true => exact absurd htol id
        | false =>
          cases hs
          refine ih ?_ ?_ htol hes'
          · simp only [detectStartOfWindow]
            split_ifs <;> rfl
          · simp only [detectStartOfWindow]
            split_ifs <;> exact hfirst
      | _ =>
        have hsame := minixStep_logging hs nofun nofun
        simp only [MinixState.logging, Prod.mk.injEq] at hsame
        exact ih (hsame.2.2.trans hidle) (hsame.2.1.trans hfirst) htol hes'

/-- A small write log of 12-byte entries, with checkpoints as configured. -/
def minixConfig (checkpointInterval : ℕ) : MinixConfig := ⟨checkpointInterval, false, 24, 12⟩

/-- A window that fills the log, and goes on. -/
def fullLogRun : List MinixEvent := [.topOfTheLoop, .message true, .store, .memcpy 1, .store]

def fullLogState : MinixState :=
  (fullLogRun.foldlM (minixStep (minixConfig 1)) (minixInit (minixConfig 1))).get
    (by decide +kernel)

theorem minixRun_fail_stop_full_log :
    fullLogState.unlogged = true ∧ fullLogState.windowIsOpen = false ∧
      ∀ replyable p,
        recoveryDispatcher .default replyable fullLogState.recoveryBitmask = some p →
          p = .failStop :=
  ⟨by decide +kernel, by decide +kernel,
    (minixRun_fail_stop (minixConfig 1) fullLogRun fullLogState (Option.some_get _).symm
      (meets_logsOrStops (by decide) rfl rfl trivial (by decide))).2.2 (by decide +kernel)⟩

/-- With checkpointing disabled no store is ever logged, and a boundary call closes the window
    without the fail-stop bit.  In both windows a store goes unlogged and the dispatcher runs
    the idempotent policy. -/
theorem unlogged_store_recovered_idempotent :
    (∃ t, ([.topOfTheLoop, .message true, .store] : List MinixEvent).foldlM
        (minixStep (minixConfig 0)) (minixInit (minixConfig 0)) = some t ∧ t.unlogged = true ∧
      recoveryDispatcher .default 1 t.recoveryBitmask = some .idempotent) ∧
    ∃ t, ([.topOfTheLoop, .message true, .boundaryCall, .store] : List MinixEvent).foldlM
        (minixStep (minixConfig 1)) (minixInit (minixConfig 1)) = some t ∧ t.unlogged = true ∧
      t.windowIsOpen = false ∧ ¬ FailStop t ∧
      recoveryDispatcher .default 1 t.recoveryBitmask = some .idempotent := by
  refine ⟨⟨_, rfl, ?_, ?_⟩, ⟨_, rfl, ?_, ?_, ?_, ?_⟩⟩ <;> decide +kernel

end Firestarter.Minix
