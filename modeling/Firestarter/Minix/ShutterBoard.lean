import Mathlib.Logic.Function.Basic
import Firestarter.Minix.Recover

namespace Firestarter.Minix.ShutterBoard

/-!
# The shutter board (`ltckpt_recover.c`)

Every site that may close a recovery window has an entry in `g_shutter_board`, where the policy
hooks count.  The ids of IPC sites are below `g_num_window_shutters`, those of kernel calls come
behind 1024; `CHECK_SHUTTER_BOARD_SIZE` rejects the others.

* `ltckptTransitWindow`, `markSiteIfBoundary` — the accesses to the board;
* `policyHook` — the four hooks, with the window and the policy bits of `Minix.Recover`;
* `policyHook_board` — what a hook does to the board, by the test of the id;
* `staysOnBoard_iff` — the calls that keep to the board.
-/

/-! ### State -/

/-- `LTCKPT_SHUTTER_BOARD_IPC_END`. -/
def shutterBoardIpcEnd : ℕ := 1024

/-- `LTCKPT_MAX_WINDOW_SHUTTERS`. -/
def maxWindowShutters : ℕ := 2560

/-- `RECOVERY_BITMASK_CALLSITE_COUNT`. -/
def recoveryBitmaskCallsiteCount : ℕ := 64

/-- `wshutter_prof_t`. -/
structure WshutterProf where
  numHits : UInt64
  gFirstBbIn : UInt64
  gLastBbIn : UInt64
  minBbIn : UInt64
  maxBbIn : UInt64
  numInWindow : UInt64
  numEnd : UInt64

/-- `window_shutter`. -/
structure WindowShutter where
  doSuicide : ℤ
  prof : WshutterProf

/-- `g_num_window_shutters` and `g_num_kernelcall_shutters`, no larger than the two parts of the
    board. -/
structure BoardSizes where
  numWindowShutters : ℕ
  numKernelcallShutters : ℕ
  window_le : numWindowShutters ≤ 1025
  kernelcall_le : numKernelcallShutters ≤ 1535

/-- What the policy hooks read and write. -/
structure PolicyState where
  /-- the window and `g_recovery_bitmask` -/
  win : MinixState
  /-- `g_shutter_board` and the memory behind it, by index -/
  board : ℕ → WindowShutter
  /-- history: the indices of the accesses, latest first -/
  touched : List ℕ
  /-- `wprof_enable_stats` -/
  enableStats : Bool
  /-- `wprof.glo.rwindow.bb_in` -/
  rwindowBbIn : UInt64
  /-- `wprof.glo.rwindow.end` -/
  rwindowEnd : UInt64
  /-- `wprof_currwindow_bb_in` -/
  currwindowBbIn : UInt64
  /-- `g_recovery_bitmask_reason` -/
  reason : Option String
  /-- `g_recovery_bitmask_callsites`, as far as it is filled -/
  callsites : List UInt64
  /-- `g_recovery_bitmask_total_count` -/
  totalCount : UInt64

/-! ### The hooks -/

/-- The test of `CHECK_SHUTTER_BOARD_SIZE`. -/
def Rejected (b : BoardSizes) (siteId : UInt64) : Prop :=
  (b.numWindowShutters ≤ siteId.toNat ∧ siteId.toNat ≤ shutterBoardIpcEnd) ∨
    (shutterBoardIpcEnd < siteId.toNat ∧
      shutterBoardIpcEnd + b.numKernelcallShutters < siteId.toNat)

instance (b : BoardSizes) (siteId : UInt64) : Decidable (Rejected b siteId) :=
  inferInstanceAs (Decidable (_ ∨ _))

/-- `(unsigned)site_id`. -/
def boardIndex (siteId : UInt64) : ℕ := siteId.toUInt32.toNat

/-- An access to the entry of a site. -/
def PolicyState.updateSite (s : PolicyState) (siteId : UInt64)
    (f : WindowShutter → WindowShutter) : PolicyState :=
  { s with
    board := Function.update s.board (boardIndex siteId) (f (s.board (boardIndex siteId)))
    touched := boardIndex siteId :: s.touched }

/-- The statistics of `ltckpt_transit_window`. -/
def transitStats (s : PolicyState) (w : WindowShutter) : WindowShutter :=
  let p := w.prof
  -- 0 stands for a site that was not reached yet, here and in the minimum
  let p := if p.gFirstBbIn = 0 then { p with gFirstBbIn := s.rwindowBbIn } else p
  let p := { p with gLastBbIn := s.rwindowBbIn }
  let p :=
    if p.minBbIn = 0 ∨ s.currwindowBbIn < p.minBbIn then { p with minBbIn := s.currwindowBbIn }
    else p
  let p := if s.currwindowBbIn > p.maxBbIn then { p with maxBbIn := s.currwindowBbIn } else p
  let p := if s.win.windowIsOpen then { p with numInWindow := p.numInWindow + 1 } else p
  { w with prof := p }

/-- `ltckpt_transit_window`, which returns 0 in any case. -/
def ltckptTransitWindow (b : BoardSizes) (siteId : UInt64) (s : PolicyState) : PolicyState :=
  -- the check prints an error and returns 0, as the end of the function does
  if Rejected b siteId then s
  else
    let s := s.updateSite siteId fun w =>
      { w with prof := { w.prof with numHits := w.prof.numHits + 1 } }
    if s.enableStats then s.updateSite siteId (transitStats s) else s

/-- `MARK_SITE_IF_BOUNDARY`: no test of the id here. -/
def markSiteIfBoundary (siteId : UInt64) (toMask : RecoveryBit) (s : PolicyState) : PolicyState :=
  if s.enableStats ∧ toMask.mask ≠ s.win.recoveryBitmask &&& toMask.mask then
    s.updateSite siteId fun w => { w with prof := { w.prof with numEnd := w.prof.numEnd + 1 } }
  else s

/-- `ltckpt_close_r_window`. -/
def ltckptCloseRWindow (s : PolicyState) : PolicyState :=
  if s.win.haveHandledMessage && s.win.windowIsOpen then
    { s with
      win := closeRWindow s.win
      rwindowEnd := if s.enableStats then s.rwindowEnd + 1 else s.rwindowEnd }
  else s

/-- `ltckpt_add_site_id`. -/
def ltckptAddSiteId (siteId : UInt64) (s : PolicyState) : PolicyState :=
  if siteId ∈ s.callsites then s
  else if s.callsites.length < recoveryBitmaskCallsiteCount then
    { s with callsites := s.callsites ++ [siteId] }
  else s

/-- `g_recovery_bitmask |= b`. -/
def PolicyState.addBit (s : PolicyState) (bit : RecoveryBit) : PolicyState :=
  { s with win := s.win.addBit bit }

/-- `ltckpt_set_idempotent_recovery`. -/
def ltckptSetIdempotentRecovery (b : BoardSizes) (siteId : UInt64) (s : PolicyState) :
    PolicyState :=
  (ltckptTransitWindow b siteId s).addBit .idempotent

/-- `ltckpt_set_request_specific_recovery`, which sets the idempotent bit. -/
def ltckptSetRequestSpecificRecovery (b : BoardSizes) (siteId : UInt64) (s : PolicyState) :
    PolicyState :=
  (ltckptTransitWindow b siteId s).addBit .idempotent

/-- `ltckpt_set_process_local_recovery`. -/
def ltckptSetProcessLocalRecovery (b : BoardSizes) (siteId : UInt64) (s : PolicyState) :
    PolicyState :=
  let s := ltckptTransitWindow b siteId s
  let s := markSiteIfBoundary siteId .processSpecific s
  s.addBit .processSpecific

/-- `ltckpt_set_fail_stop_recovery`. -/
def ltckptSetFailStopRecovery (b : BoardSizes) (siteId : UInt64) (s : PolicyState) :
    PolicyState :=
  let s := ltckptTransitWindow b siteId s
  let s := ltckptCloseRWindow s
  -- nothing was learnt from the transit about a rejected id
  let s := markSiteIfBoundary siteId .failStop s
  let s := s.addBit .failStop
  let s := { s with
    reason := some "ltckpt recovery: window closed: ltckpt_set_fail_stop_recovery" }
  let s := ltckptAddSiteId siteId s
  { s with totalCount := s.totalCount + 1 }

/-- The recovery policy hooks. -/
inductive PolicyHook
  | idempotent | requestSpecific | processLocal | failStop

/-- A call of a hook. -/
def policyHook (b : BoardSizes) : PolicyHook → UInt64 → PolicyState → PolicyState
  | .idempotent => ltckptSetIdempotentRecovery b
  | .requestSpecific => ltckptSetRequestSpecificRecovery b
  | .processLocal => ltckptSetProcessLocalRecovery b
  | .failStop => ltckptSetFailStopRecovery b

/-- The policy for which a hook marks the boundary of the window. -/
def PolicyHook.boundary : PolicyHook → Option RecoveryBit
  | idempotent => none
  | requestSpecific => none
  | processLocal => some .processSpecific
  | failStop => some .failStop

/-- **What the hooks promise**: they index the board below its end, and a rejected id changes no
    entry. -/
structure StaysOnBoard (b : BoardSizes) (siteId : UInt64) (s s' : PolicyState) : Prop where
  inside : ∃ new, s'.touched = new ++ s.touched ∧ ∀ i ∈ new, i < maxWindowShutters
  unchanged : Rejected b siteId → ∀ i, i < maxWindowShutters → s'.board i = s.board i

/-! ### The window behind the hooks -/

variable (b : BoardSizes) (hook : PolicyHook) (siteId : UInt64) (s : PolicyState)

@[simp] theorem ltckptTransitWindow_win : (ltckptTransitWindow b siteId s).win = s.win := by
  unfold ltckptTransitWindow
  split
  · rfl
  · dsimp only
    split <;> rfl

@[simp] theorem ltckptTransitWindow_enableStats :
    (ltckptTransitWindow b siteId s).enableStats = s.enableStats := by
  unfold ltckptTransitWindow
  split
  · rfl
  · dsimp only
    split <;> rfl

@[simp] theorem ltckptCloseRWindow_win : (ltckptCloseRWindow s).win = closeRWindow s.win := by
  unfold ltckptCloseRWindow
  split
  · rfl
  · rename_i h
    rw [closeRWindow, if_neg h]

@[simp] theorem ltckptCloseRWindow_enableStats :
    (ltckptCloseRWindow s).enableStats = s.enableStats := by
  unfold ltckptCloseRWindow
  split <;> rfl

/-! ### The board behind the hooks -/

/-- Two states agree on the board and on its accesses. -/
def SameBoard (s s' : PolicyState) : Prop := s'.board = s.board ∧ s'.touched = s.touched

theorem sameBoard_ltckptCloseRWindow : SameBoard s (ltckptCloseRWindow s) := by
  unfold ltckptCloseRWindow
  split <;> exact ⟨rfl, rfl⟩

theorem sameBoard_ltckptAddSiteId : SameBoard s (ltckptAddSiteId siteId s) := by
  unfold ltckptAddSiteId
  split
  · exact ⟨rfl, rfl⟩
  · split <;> exact ⟨rfl, rfl⟩

/-- The boundary test of the macro asks for a missing policy bit. -/
theorem mask_eq_and_iff {m : ℕ} {bit : RecoveryBit} :
    bit.mask = m &&& bit.mask ↔ hasBit m bit = true := by
  rw [hasBit_iff, RecoveryBit.mask, Nat.and_two_pow]
  cases m.testBit bit.toNat with
  | false => simp
  | true => simp

/-- A call of the hook marks the site as a boundary. -/
def Marks (hook : PolicyHook) (s : PolicyState) : Prop :=
  s.enableStats = true ∧ ∃ bit ∈ hook.boundary, hasBit s.win.recoveryBitmask bit = false

instance (hook : PolicyHook) (s : PolicyState) : Decidable (Marks hook s) :=
  inferInstanceAs (Decidable (_ ∧ _))

theorem not_marks_iff :
    ¬ Marks hook s ↔ s.enableStats = false ∨
      ∀ bit, hook.boundary = some bit → hasBit s.win.recoveryBitmask bit = true := by
  simp only [Marks, Option.mem_def, not_and_or, Bool.not_eq_true, not_exists, Bool.not_eq_false]
  constructor
  · rintro (h | h)
    · exact .inl h
    · exact .inr fun bit hbit => (h bit).resolve_left (not_not_intro hbit)
  · rintro (h | h)
    · exact .inl h
    · exact .inr fun bit => (em (hook.boundary = some bit)).symm.imp_right (h bit)

/-- A hook without a boundary marks nothing. -/
theorem not_marks_of_none {hook : PolicyHook} (h : hook.boundary = none) : ¬ Marks hook s := by
  rintro ⟨_, bit, hbit, _⟩
  rw [h] at hbit
  exact absurd hbit (Option.not_mem_none bit)

/-- The increment of `num_end`. -/
def countEnd (w : WindowShutter) : WindowShutter :=
  { w with prof := { w.prof with numEnd := w.prof.numEnd + 1 } }

theorem countEnd_ne (w : WindowShutter) : countEnd w ≠ w := by
  intro h
  have hend : w.prof.numEnd + 1 = w.prof.numEnd := congrArg (fun w => w.prof.numEnd) h
  simp at hend

theorem markSiteIfBoundary_of_bit {bit : RecoveryBit} (hstats : s.enableStats = true)
    (hbit : hasBit s.win.recoveryBitmask bit = false) :
    markSiteIfBoundary siteId bit s = s.updateSite siteId countEnd := by
  refine if_pos ⟨hstats, fun h => ?_⟩
  rw [mask_eq_and_iff, hbit] at h
  exact absurd h (by decide)

theorem markSiteIfBoundary_of_not {bit : RecoveryBit}
    (h : s.enableStats = false ∨ hasBit s.win.recoveryBitmask bit = true) :
    markSiteIfBoundary siteId bit s = s := by
  refine if_neg fun hmark => ?_
  rcases h with hstats | hbit
  · exact absurd (hstats.symm.trans hmark.1) (by decide)
  · exact hmark.2 (mask_eq_and_iff.mpr hbit)

/-- The bits stay while the window closes. -/
theorem closeRWindow_recoveryBitmask (w : MinixState) :
    (closeRWindow w).recoveryBitmask = w.recoveryBitmask := by
  unfold closeRWindow
  split <;> rfl

/-- A mark depends on the statistics and the bits only, not on the window. -/
theorem sameBoard_mark_close (bit : RecoveryBit) :
    SameBoard (markSiteIfBoundary siteId bit s)
      (markSiteIfBoundary siteId bit (ltckptCloseRWindow s)) := by
  obtain ⟨hboard, htouched⟩ := sameBoard_ltckptCloseRWindow s
  have hstats := ltckptCloseRWindow_enableStats s
  have hmask : (ltckptCloseRWindow s).win.recoveryBitmask = s.win.recoveryBitmask := by
    rw [ltckptCloseRWindow_win, closeRWindow_recoveryBitmask]
  unfold markSiteIfBoundary
  rw [hstats, hmask]
  split
  · constructor
    · simp only [PolicyState.updateSite, hboard]
    · simp only [PolicyState.updateSite, htouched]
  · exact ⟨hboard, htouched⟩

/-- The macro, run on the state behind the transit by a hook with a boundary. -/
theorem mark_transit {hook : PolicyHook} {bit : RecoveryBit} (hbit : hook.boundary = some bit) :
    markSiteIfBoundary siteId bit (ltckptTransitWindow b siteId s) =
      if Marks hook s then (ltckptTransitWindow b siteId s).updateSite siteId countEnd
      else ltckptTransitWindow b siteId s := by
  by_cases hm : Marks hook s
  · obtain ⟨hstats, bit', hbit', hno⟩ := hm
    obtain rfl : bit = bit' := Option.some.inj (hbit.symm.trans hbit')
    rw [if_pos ⟨hstats, bit, hbit', hno⟩]
    apply markSiteIfBoundary_of_bit
    · rw [ltckptTransitWindow_enableStats, hstats]
    · rw [ltckptTransitWindow_win, hno]
  · rw [if_neg hm]
    apply markSiteIfBoundary_of_not
    rw [ltckptTransitWindow_enableStats, ltckptTransitWindow_win]
    exact ((not_marks_iff hook s).mp hm).imp_right fun h => h bit hbit

/-- **The accesses of a hook**: the counted transit, and the mark where the hook makes one. -/
theorem policyHook_board :
    SameBoard
      (if Marks hook s then (ltckptTransitWindow b siteId s).updateSite siteId countEnd
        else ltckptTransitWindow b siteId s)
      (policyHook b hook siteId s) := by
  cases hook with
  | idempotent =>
    rw [if_neg (not_marks_of_none s rfl)]
    exact ⟨rfl, rfl⟩
  | requestSpecific =>
    rw [if_neg (not_marks_of_none s rfl)]
    exact ⟨rfl, rfl⟩
  | processLocal =>
    rw [← mark_transit b siteId s rfl]
    exact ⟨rfl, rfl⟩
  | failStop =>
    rw [← mark_transit b siteId s rfl]
    have hclose := sameBoard_mark_close siteId (ltckptTransitWindow b siteId s) .failStop
    have hadd := fun t => sameBoard_ltckptAddSiteId siteId t
    exact ⟨(hadd _).1.trans hclose.1, (hadd _).2.trans hclose.2⟩

/-! ### Bounds -/

/-- An accepted id is an index of the board, and the cast to `unsigned` keeps it. -/
theorem boardIndex_lt (h : ¬ Rejected b siteId) : boardIndex siteId < maxWindowShutters := by
  have hcast : boardIndex siteId ≤ siteId.toNat := by
    rw [boardIndex, UInt64.toNat_toUInt32]
    exact Nat.mod_le _ _
  have hk := b.kernelcall_le
  simp only [Rejected, shutterBoardIpcEnd] at h
  simp only [maxWindowShutters]
  omega

theorem ltckptTransitWindow_of_rejected (h : Rejected b siteId) :
    ltckptTransitWindow b siteId s = s := if_pos h

/-- The transit touches no entry but the one of the site. -/
theorem ltckptTransitWindow_touched :
    ∃ new, (ltckptTransitWindow b siteId s).touched = new ++ s.touched ∧
      ∀ i ∈ new, i = boardIndex siteId ∧ ¬ Rejected b siteId := by
  unfold ltckptTransitWindow
  split
  · exact ⟨[], rfl, by simp⟩
  · rename_i h
    dsimp only
    split
    · exact ⟨[boardIndex siteId, boardIndex siteId], rfl, by simp [h]⟩
    · exact ⟨[boardIndex siteId], rfl, by simp [h]⟩

/-- Without a mark, or with an accepted id, every access is on the board. -/
theorem policyHook_inside (h : ¬ Rejected b siteId ∨ ¬ Marks hook s) :
    ∃ new, (policyHook b hook siteId s).touched = new ++ s.touched ∧
      ∀ i ∈ new, i < maxWindowShutters := by
  obtain ⟨new, htouched, hnew⟩ := ltckptTransitWindow_touched b siteId s
  have hin : ∀ i ∈ new, i < maxWindowShutters := by
    intro i hi
    obtain ⟨rfl, haccepted⟩ := hnew i hi
    exact boardIndex_lt b siteId haccepted
  rw [(policyHook_board b hook siteId s).2]
  split
  · rename_i hm
    have haccepted : ¬ Rejected b siteId := h.resolve_right (not_not_intro hm)
    refine ⟨boardIndex siteId :: new, ?_, ?_⟩
    · show boardIndex siteId :: (ltckptTransitWindow b siteId s).touched = _
      rw [htouched, List.cons_append]
    · rintro i (_ | ⟨_, hi⟩)
      · exact boardIndex_lt b siteId haccepted
      · exact hin i hi
  · exact ⟨new, htouched, hin⟩

/-- A mark for a rejected id breaks the promise: either its index is behind the board, or the
    entry there changes. -/
theorem not_staysOnBoard_of_mark (hr : Rejected b siteId) (hm : Marks hook s) :
    ¬ StaysOnBoard b siteId s (policyHook b hook siteId s) := by
  rintro ⟨⟨new, htouched, hnew⟩, hunchanged⟩
  obtain ⟨hboard, hacc⟩ := policyHook_board b hook siteId s
  rw [if_pos hm, ltckptTransitWindow_of_rejected b siteId s hr] at hboard hacc
  -- the mark is the only access
  have hone : new ++ s.touched = [boardIndex siteId] ++ s.touched := htouched.symm.trans hacc
  have hnew' : new = [boardIndex siteId] := List.append_cancel_right hone
  have hlt : boardIndex siteId < maxWindowShutters := hnew _ (by rw [hnew']; simp)
  have hentry := hunchanged hr _ hlt
  -- so the index is on the board, and the entry there has another `num_end`
  rw [hboard] at hentry
  simp only [PolicyState.updateSite, Function.update_self] at hentry
  exact countEnd_ne _ hentry

/-- **The policy hooks and the board.** A call keeps to the board exactly if its id passes the
    test, the statistics are off, or the hook has no boundary to mark: only
    `ltckpt_transit_window` tests the id, and its callers go on to the mark. -/
theorem staysOnBoard_iff :
    StaysOnBoard b siteId s (policyHook b hook siteId s) ↔
      ¬ Rejected b siteId ∨ s.enableStats = false ∨
        ∀ bit, hook.boundary = some bit → hasBit s.win.recoveryBitmask bit = true := by
  rw [← not_marks_iff]
  constructor
  · intro hstays
    by_contra hcon
    rw [not_or, not_not, not_not] at hcon
    exact not_staysOnBoard_of_mark b hook siteId s hcon.1 hcon.2 hstays
  · intro h
    refine ⟨policyHook_inside b hook siteId s h, fun hr i _ => ?_⟩
    have hm : ¬ Marks hook s := h.resolve_left (not_not_intro hr)
    rw [(policyHook_board b hook siteId s).1, if_neg hm,
      ltckptTransitWindow_of_rejected b siteId s hr]

/-- A server with 37 IPC sites and 11 kernel call sites. -/
def smallSizes : BoardSizes where
  numWindowShutters := 37
  numKernelcallShutters := 11
  window_le := by decide
  kernelcall_le := by decide

/-- The start of a window with statistics on. -/
def profiledStart : PolicyState where
  win :=
    { haveHandledMessage := true, priorHaveHandledMessage := true, lastHaveHandledMessage := true
      windowIsOpen := true, recoveryBitmask := 1, writelogEnabled := true, wlPosition := 0
      numTols := 1, unlogged := false }
  board := fun _ => ⟨0, ⟨0, 0, 0, 0, 0, 0, 0⟩⟩
  touched := []
  enableStats := true
  rwindowBbIn := 0
  rwindowEnd := 0
  currwindowBbIn := 0
  reason := none
  callsites := []
  totalCount := 0

/-- Site 5000 is counted behind the board, and site 2³² at entry 0: the test rejects both, and
    the mark is made all the same. -/
theorem rejected_site_marked :
    (policyHook smallSizes .processLocal 5000 profiledStart).touched = [5000] ∧
      ¬ StaysOnBoard smallSizes 5000 profiledStart
        (policyHook smallSizes .processLocal 5000 profiledStart) ∧
      (policyHook smallSizes .failStop 4294967296 profiledStart).touched = [0] ∧
      ¬ StaysOnBoard smallSizes 4294967296 profiledStart
        (policyHook smallSizes .failStop 4294967296 profiledStart) :=
  ⟨by decide, not_staysOnBoard_of_mark _ _ _ _ (by decide) (by decide),
    by decide, not_staysOnBoard_of_mark _ _ _ _ (by decide) (by decide)⟩

end Firestarter.Minix.ShutterBoard
