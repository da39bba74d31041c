import Firestarter.Lib.Run
import Firestarter.Edfi.Onfdp

namespace Firestarter.Edfi.Policy

open Onfdp
open Runs (Meets)

/-!
# Fault policies over whole runs (`edfi_df.c`)

A run calls the library in any order under one configuration.  Four limits of the configuration
are about whole runs: the decisions and the time between two faults, the time since the start, and
the number of faults.

* `Event`, `act`, `World`, `step` — the runs;
* `fdpInterval_respected` — the decisions between two faults;
* `faults_apart_iff` — when faults keep the least time between them;
* `period_bounded_iff` — when the time limit bounds the injection period;
* `faults_bounded_iff` — when the number of faults stays within its limit.
-/

/-! ### Runs -/

/-- A call of the library, with what the clock returns in it.  Library functions also store the
    flag (`SwitchFlag`). -/
inductive Event
  | onfdp (bbIndex : Int32) (clock : Clock)
  | onfault (bbIndex : Int32)
  | start (withContext : Bool) (now : UInt64)
  | update
  | stop
  | switchFlag (enabled : ℤ)

/-- What an event does under the configuration `c`. -/
def act (c : Conf) (s : State) : Event → State
  | .onfdp bbIndex clock => (edfiOnfdpDefault bbIndex clock s).1
  | .onfault bbIndex => Onfdp.edfiOnfaultDefault bbIndex s
  | .start withContext now => edfiStart (if withContext then some c else none) now s
  | .update => edfiUpdateContext (some c) s
  | .stop => edfiStop s
  | .switchFlag enabled => { s with flag.enabled := enabled }

/-- The event is a decision that returns 1. -/
def fires (s : State) : Event → Bool
  | .onfdp bbIndex clock => (edfiOnfdpDefault bbIndex clock s).2
  | _ => false

/-- A state with its history: the last value of the clock, the times of the decisions that
    returned 1, the latest first, and the block that such a decision was made for, until its
    faults are logged. -/
structure World where
  state : State
  now : UInt64
  faults : List UInt64
  pending : Option Int32

/-- The world after an event. -/
def next (c : Conf) (w : World) (e : Event) : World where
  state := act c w.state e
  now := match e with
    | .onfdp _ clock => clock.onUpdate
    | .start _ now => now
    | _ => w.now
  faults := match e with
    | .onfdp _ clock => if fires w.state e then callTime w.state clock :: w.faults else w.faults
    | _ => w.faults
  pending := match e with
    | .onfdp bbIndex _ => if fires w.state e then some bbIndex else w.pending
    | .onfault _ => none
    | _ => w.pending

/-- The next world, as a step of a run. -/
def step (c : Conf) (w : World) (e : Event) : Option World := some (next c w e)

/-- The clock does not go back. -/
def Forward (w : World) : Event → Prop
  | .onfdp _ clock =>
    w.now ≤ clock.onInterval ∧ clock.onInterval ≤ clock.onMaxTime ∧
      clock.onMaxTime ≤ clock.onUpdate
  | .start _ now => w.now ≤ now
  | _ => True

instance (w : World) : (e : Event) → Decidable (Forward w e)
  | .onfdp _ _ => inferInstanceAs (Decidable (_ ∧ _ ∧ _))
  | .start _ _ => inferInstanceAs (Decidable (_ ≤ _))
  | .onfault _ | .update | .stop | .switchFlag _ => inferInstanceAs (Decidable True)

/-! ### One event -/

section Step

variable {c : Conf} (s : State) (e : Event)

variable {s e} in
/-- The configuration stays. -/
theorem act_conf (h : s.context.c = c) : (act c s e).context.c = c := by
  cases e with
  | onfdp bbIndex clock =>
    rw [act, (edfiOnfdpDefault_decision bbIndex clock s).context_eq]
    exact h
  | start withContext now => cases withContext <;> first | exact h | rfl
  | update => rfl
  | _ => exact h

/-- Only a decision for a fault changes the time of the last fault. -/
theorem act_faultTime :
    (act c s e).context.faultTime =
      match e with
      | .onfdp _ clock =>
        if fires s e = true ∧ 0 < s.context.c.minFaultTimeInterval then callTime s clock
        else s.context.faultTime
      | _ => s.context.faultTime := by
  cases e with
  | onfdp bbIndex clock => rw [act, (edfiOnfdpDefault_decision bbIndex clock s).context_eq]; rfl
  | start withContext now => cases withContext <;> rfl
  | _ => rfl

/-- Only a start changes the start time. -/
theorem act_startTime :
    (act c s e).context.startTime =
      match e with
      | .start _ now => now
      | _ => s.context.startTime := by
  cases e with
  | onfdp bbIndex clock => rw [act, (edfiOnfdpDefault_decision bbIndex clock s).context_eq]
  | start withContext now => cases withContext <;> rfl
  | _ => rfl

/-- Only the logger changes the number of faults. -/
theorem act_totalFaults :
    (act c s e).context.totalFaults =
      match e with
      | .onfault bbIndex =>
        s.context.totalFaults + (s.context.bbNumFaults (bbIndex - 1)).toInt64.toUInt64
      | _ => s.context.totalFaults := by
  cases e with
  | onfdp bbIndex clock => rw [act, (edfiOnfdpDefault_decision bbIndex clock s).context_eq]
  | start withContext now => cases withContext <;> rfl
  | _ => rfl

/-- The number of faults in each block stays. -/
theorem act_bbNumFaults :
    (act c s e).context.bbNumFaults = s.context.bbNumFaults := by
  cases e with
  | onfdp bbIndex clock => rw [act, (edfiOnfdpDefault_decision bbIndex clock s).context_eq]
  | start withContext now => cases withContext <;> rfl
  | _ => rfl

end Step

/-! ### Decisions between two faults -/

/-- The event is a decision that returns 0 while injection is enabled. -/
def rejects (s : State) : Event → Bool
  | .onfdp bbIndex clock => s.flag.enabled ≠ 0 && !(edfiOnfdpDefault bbIndex clock s).2
  | _ => false

/-- The number of such decisions in a run. -/
def rejections (c : Conf) : State → List Event → ℕ
  | _, [] => 0
  | s, e :: es => (rejects s e).toNat + rejections c (act c s e) es

/-- `edfi_start` is called. -/
def Event.isStart : Event → Bool
  | .start _ _ => true
  | _ => false

/-- The counter is raised without overflow below its limit. -/
theorem toInt_succ {count limit : Int32} (h : count < limit) :
    (count + 1).toInt = count.toInt + 1 := by
  have hlt := Int32.lt_iff_toInt_lt.mp h
  have hmax := Int32.toInt_lt limit
  have hmin := Int32.le_toInt count
  rw [Int32.toInt_add, Int32.toInt_one, Int.bmod_eq_of_le (by omega) (by omega)]

variable {s : State} {e : Event}

/-- One event raises the counter by a rejected decision at most. -/
theorem act_fdpCount_le {c : Conf} {n : ℤ} (hone : 1 ≤ n) (hstart : e.isStart = false)
    (h : s.context.faultFdpCount.toInt ≤ n) :
    (act c s e).context.faultFdpCount.toInt ≤ n + (rejects s e).toNat := by
  cases e with
  | onfdp bbIndex clock =>
    show (edfiOnfdpDefault bbIndex clock s).1.context.faultFdpCount.toInt ≤ _
    rcases (edfiOnfdpDefault_decision bbIndex clock s).fdpCount with
      ⟨-, hcount⟩ | ⟨hzero, hcount | ⟨hlt, hcount⟩⟩
    · rw [hcount, Int32.toInt_one]
      omega
    · rw [hcount]
      omega
    · -- a decision while injection is disabled changes nothing
      have henabled : s.flag.enabled ≠ 0 := by
        intro hoff
        rw [edfiOnfdpDefault, if_pos hoff] at hcount
        have hsucc := toInt_succ hlt
        rw [← hcount] at hsucc
        exact absurd hsucc (by show s.context.faultFdpCount.toInt ≠ _; omega)
      have hrejects : rejects s (.onfdp bbIndex clock) = true := by
        rw [rejects, hzero, Bool.not_false, Bool.and_true, decide_eq_true henabled]
      rw [hcount, toInt_succ hlt, hrejects, Bool.toNat_true]
      omega
  | start _ _ => exact absurd hstart.symm Bool.false_ne_true
  | _ => exact Int.le_trans h (Int.le_add_of_nonneg_right (Int.natCast_nonneg _))

/-- A run raises the counter by its rejected decisions at most. -/
theorem run_fdpCount_le {c : Conf} {es : List Event} {n : ℤ} (hone : 1 ≤ n)
    (hstart : ∀ e ∈ es, e.isStart = false) (h : s.context.faultFdpCount.toInt ≤ n) :
    (es.foldl (act c) s).context.faultFdpCount.toInt ≤ n + rejections c s es := by
  induction es generalizing s n with
  | nil => simpa [rejections] using h
  | cons e es ih =>
    have hact := act_fdpCount_le (c := c) hone (hstart e List.mem_cons_self) h
    have hrun := ih (by omega) (fun f hf => hstart f (List.mem_cons_of_mem e hf)) hact
    rw [List.foldl_cons, rejections]
    push_cast
    omega

theorem run_conf {c : Conf} (h : s.context.c = c) (es : List Event) :
    (es.foldl (act c) s).context.c = c := by
  induction es generalizing s with
  | nil => exact h
  | cons e es ih => exact ih (act_conf h)

/-- A decision for a fault leaves the counter at 1. -/
theorem fdpCount_of_fires {c : Conf} (h : fires s e = true) :
    (act c s e).context.faultFdpCount = 1 := by
  cases e with
  | onfdp bbIndex clock =>
    rcases (edfiOnfdpDefault_decision bbIndex clock s).fdpCount with ⟨-, hcount⟩ | ⟨hzero, -⟩
    · exact hcount
    · exact absurd (hzero.symm.trans h) nofun
  | _ => exact absurd h nofun

/-- A decision for a fault is made with the counter at its limit. -/
theorem fdpOk_of_fires (h : fires s e = true) : FdpOk s := by
  cases e with
  | onfdp bbIndex clock =>
    exact ((edfiOnfdpDefault_decision bbIndex clock s).fires_iff.mp h).1.fdp
  | _ => exact absurd h nofun

/-- **Faults respect `min_fdp_interval`.** Between two decisions that return 1 there are at least
    `min_fdp_interval - 1` decisions that return 0 while injection is enabled. -/
theorem fdpInterval_respected {c : Conf} (hpos : 0 < c.minFdpInterval) {s : State}
    (hconf : s.context.c = c) {first last : Event} {between : List Event}
    (hstart : ∀ e ∈ between, e.isStart = false) (hfirst : fires s first = true)
    (hlast : fires (between.foldl (act c) (act c s first)) last = true) :
    c.minFdpInterval.toInt - 1 ≤ rejections c (act c s first) between := by
  have hcount : (act c s first).context.faultFdpCount.toInt ≤ 1 := by
    apply Int.le_of_eq
    rw [fdpCount_of_fires hfirst, Int32.toInt_one]
  have hrun := run_fdpCount_le (c := c) (Int.le_refl 1) hstart hcount
  -- the second decision has passed the check
  have hok := fdpOk_of_fires hlast
  rw [FdpOk, run_conf (act_conf hconf)] at hok
  have hge : ¬ (between.foldl (act c) (act c s first)).context.faultFdpCount < c.minFdpInterval :=
    fun hlt => hok ⟨hpos, hlt⟩
  rw [Int32.lt_iff_toInt_lt] at hge
  omega

/-- A configuration without limits. -/
def noLimits : Conf := ⟨0, 0, 0, 0, 0, 0, 123⟩

/-- The state of a process that has loaded the library, under the configuration `c`, with
    `numFaults` faults in each block. -/
def initial (c : Conf) (numFaults : Int32) : State where
  context := ⟨0, 0, 0, 0, fun _ => 0, fun _ => numFaults, c⟩
  flag := ⟨1, 0⟩
  onfdpCount := 0
  lastFaultTime := 0
  randNext := 1

/-- A decision for block 1 during which the clock stands still. -/
def decisionAt (now : UInt64) : Event := .onfdp 1 ⟨now, now, now⟩

/-- Every second decision is for a fault. -/
theorem fdpInterval_respected_two :
    (2 : ℤ) - 1 ≤ rejections { noLimits with minFdpInterval := 2 }
      (act { noLimits with minFdpInterval := 2 }
        (edfiStart none 0 (initial { noLimits with minFdpInterval := 2 } 1)) (decisionAt 0))
      [decisionAt 0] :=
  fdpInterval_respected (c := { noLimits with minFdpInterval := 2 }) (by decide) rfl (by decide)
    (by decide) (show fires _ (decisionAt 0) = true by decide)

/-! ### Time between two faults -/

/-- All checks but that of the interval let the decision pass. -/
structure OthersPass (s : State) (bbIndex : Int32) (clock : Clock) : Prop where
  enabled : s.flag.enabled ≠ 0
  fdp : FdpOk s
  prob : ProbOk s
  bb : BbOk s bbIndex
  time : TimeOk s clock
  faults : FaultsOk s
  count : finalCount s.context.c ≠ 0

/-- A decision is for a fault if the check of the interval and the others pass. -/
theorem fires_iff_others {bbIndex : Int32} {clock : Clock} :
    fires s (.onfdp bbIndex clock) = true ↔ IntervalOk s clock ∧ OthersPass s bbIndex clock := by
  rw [fires, (edfiOnfdpDefault_decision bbIndex clock s).fires_iff]
  constructor
  · rintro ⟨⟨henabled, hfdp, hinterval, hprob, hbb⟩, htime, hfaults, hcount⟩
    exact ⟨hinterval, henabled, hfdp, hprob, hbb, htime, hfaults, hcount⟩
  · rintro ⟨hinterval, henabled, hfdp, hprob, hbb, htime, hfaults, hcount⟩
    exact ⟨⟨henabled, hfdp, hinterval, hprob, hbb⟩, htime, hfaults, hcount⟩

/-- Faults are at least `min_fault_time_interval` apart; the latest is the first in the list. -/
def FaultsApart (c : Conf) (faults : List UInt64) : Prop :=
  faults.Pairwise fun later earlier =>
    earlier.toNat + c.minFaultTimeInterval.toNat ≤ later.toNat

/-- **The condition on a decision.** If the other checks let it pass, it comes at least
    `min_fault_time_interval` after the last fault, or the clock can not reach that time. -/
def KeepsInterval (c : Conf) (w : World) : Event → Prop
  | .onfdp bbIndex clock =>
    OthersPass w.state bbIndex clock → ∀ last ∈ w.faults.head?,
      last.toNat + c.minFaultTimeInterval.toNat ≤ (callTime w.state clock).toNat ∨
        2 ^ 64 ≤ last.toNat + c.minFaultTimeInterval.toNat
  | _ => True

/-- What a world of such a run has: the library knows the last fault. -/
structure IntervalInv (c : Conf) (w : World) : Prop where
  conf : w.state.context.c = c
  faultTime : w.state.context.faultTime = w.faults.head?.getD 0
  past : ∀ last ∈ w.faults.head?, last ≤ w.now

section Interval

variable {c : Conf} {w : World}

variable {bbIndex : Int32} {clock : Clock} {e : Event}

/-- The time of a decision lies between the last value of the clock and the next one. -/
theorem callTime_mem (h : Forward w (.onfdp bbIndex clock)) :
    w.now ≤ callTime w.state clock ∧ callTime w.state clock ≤ clock.onUpdate := by
  obtain ⟨hinterval, hmax, hupdate⟩ := h
  have hle := UInt64.le_trans hmax hupdate
  have htime : callTime w.state clock = clock.onInterval ∨
      callTime w.state clock = clock.onUpdate := by
    rw [callTime]
    by_cases hzero : lastOf w.state clock ≠ 0
    · rw [if_pos hzero]
      rw [lastOf] at hzero ⊢
      exact .inl (if_pos (by_contra fun hnot => hzero (if_neg hnot)))
    · exact .inr (if_neg hzero)
  rcases htime with htime | htime
  · rw [htime]
    exact ⟨hinterval, hle⟩
  · rw [htime]
    exact ⟨UInt64.le_trans hinterval hle, UInt64.le_refl _⟩

/-- After a fault the time of a decision is the value compared with it. -/
theorem callTime_eq (hpos : 0 < w.state.context.c.minFaultTimeInterval)
    (hfault : w.state.context.faultTime ≠ 0) (hpast : w.state.context.faultTime ≤ w.now)
    (h : Forward w (.onfdp bbIndex clock)) : callTime w.state clock = clock.onInterval := by
  have hne : clock.onInterval ≠ 0 := by
    intro hzero
    have hle := UInt64.le_iff_toNat_le.mp (UInt64.le_trans hpast h.1)
    rw [hzero, UInt64.toNat_zero] at hle
    exact hfault (UInt64.toNat_inj.mp (Nat.le_zero.mp hle))
  have hlast : lastOf w.state clock = clock.onInterval := if_pos ⟨hpos, hfault⟩
  rw [callTime, hlast, if_pos hne]

/-- The time before which the next fault is too early, as the library computes it. -/
theorem toNat_add_interval (t : UInt64) :
    (t + c.minFaultTimeInterval.toUInt64).toNat =
      (t.toNat + c.minFaultTimeInterval.toNat) % 2 ^ 64 := by
  rw [UInt64.toNat_add, UInt32.toNat_toUInt64]

/-- A decision that the other checks let pass is for a fault, if it is too early for one. -/
theorem intervalOk_of_early (hinv : IntervalInv c w) (hforward : Forward w (.onfdp bbIndex clock))
    {last : UInt64} (hlast : last ∈ w.faults.head?)
    (hearly : (callTime w.state clock).toNat < last.toNat + c.minFaultTimeInterval.toNat)
    (hfits : last.toNat + c.minFaultTimeInterval.toNat < 2 ^ 64) : IntervalOk w.state clock := by
  intro hpos hfault
  have htime : w.state.context.faultTime = last := by rw [hinv.faultTime, hlast]; rfl
  rw [callTime_eq hpos hfault (htime ▸ hinv.past last hlast) hforward] at hearly
  rw [hinv.conf, htime, UInt64.lt_iff_toNat_lt, toNat_add_interval, Nat.mod_eq_of_lt hfits]
  omega

/-- A decision for a fault comes while the time for the next fault can still be reached. -/
theorem fits_of_intervalOk (hinv : IntervalInv c w) (hpos : 0 < c.minFaultTimeInterval)
    (hforward : Forward w (.onfdp bbIndex clock)) {last : UInt64} (hlast : last ∈ w.faults.head?)
    (hok : IntervalOk w.state clock) : last.toNat + c.minFaultTimeInterval.toNat < 2 ^ 64 := by
  by_contra hover
  have htime : w.state.context.faultTime = last := by rw [hinv.faultTime, hlast]; rfl
  have hbound := c.minFaultTimeInterval.toNat_lt
  have hmax := last.toNat_lt
  have hne : w.state.context.faultTime ≠ 0 := by
    intro hzero
    rw [← htime, hzero, UInt64.toNat_zero] at hover
    omega
  refine hok (hinv.conf.symm ▸ hpos) hne ?_
  -- the sum wraps around and is below every later value of the clock
  have hle := UInt64.le_iff_toNat_le.mp (UInt64.le_trans (hinv.past last hlast) hforward.1)
  rw [hinv.conf, htime, UInt64.lt_iff_toNat_lt, toNat_add_interval]
  omega

/-- The invariant is kept. -/
theorem IntervalInv.next (hinv : IntervalInv c w) (hpos : 0 < c.minFaultTimeInterval)
    (hforward : Forward w e) : IntervalInv c (next c w e) := by
  refine ⟨act_conf hinv.conf, ?_, ?_⟩
  · show (act c w.state e).context.faultTime = _
    rw [act_faultTime]
    cases e with
    | onfdp bbIndex clock =>
      have hpos' : 0 < w.state.context.c.minFaultTimeInterval := hinv.conf.symm ▸ hpos
      simp only [Policy.next, hpos', and_true]
      split_ifs
      · rfl
      · exact hinv.faultTime
    | _ => exact hinv.faultTime
  · intro last hlast
    cases e with
    | onfdp bbIndex clock =>
      have hmem := callTime_mem hforward
      simp only [Policy.next] at hlast ⊢
      split_ifs at hlast
      · obtain rfl := Option.some.inj hlast
        exact hmem.2
      · exact UInt64.le_trans (hinv.past last hlast) (UInt64.le_trans hmem.1 hmem.2)
    | start withContext now => exact UInt64.le_trans (hinv.past last hlast) hforward
    | _ => exact hinv.past last hlast

/-- **One event**: faults stay apart exactly if the event meets the condition. -/
theorem faultsApart_next_iff (hinv : IntervalInv c w) (hpos : 0 < c.minFaultTimeInterval)
    (hforward : Forward w e) (h : FaultsApart c w.faults) :
    FaultsApart c (next c w e).faults ↔ KeepsInterval c w e := by
  cases e with
  | onfdp bbIndex clock =>
    cases hfaults : w.faults with
    | nil =>
      simp only [next, KeepsInterval, hfaults, List.head?_nil]
      refine ⟨fun _ _ last hlast => absurd hlast nofun, fun _ => ?_⟩
      split_ifs <;> simp [FaultsApart]
    | cons last rest =>
      have hlast : last ∈ w.faults.head? := by rw [hfaults]; rfl
      have hrest : ∀ earlier ∈ rest, earlier.toNat + c.minFaultTimeInterval.toNat ≤ last.toNat :=
        (List.pairwise_cons.mp (hfaults ▸ h)).1
      constructor
      · intro hnext hothers last' hlast'
        obtain rfl := Option.some.inj (hlast'.symm.trans hlast)
        by_contra hearly
        obtain ⟨hearly, hfits⟩ := not_or.mp hearly
        -- the check is the wrong way round: a decision that comes too early passes it
        have hok := intervalOk_of_early hinv hforward hlast (by omega) (by omega)
        have hfires := fires_iff_others.mpr ⟨hok, hothers⟩
        simp only [next, hfires, if_true, hfaults] at hnext
        have := (List.pairwise_cons.mp hnext).1 last' List.mem_cons_self
        omega
      · intro hkeeps
        simp only [next]
        split_ifs with hfires
        · obtain ⟨hok, hothers⟩ := fires_iff_others.mp hfires
          have hfits := fits_of_intervalOk hinv hpos hforward hlast hok
          have hle := (hkeeps hothers last hlast).resolve_right (by omega)
          refine List.pairwise_cons.mpr ⟨fun earlier hmem => ?_, h⟩
          rw [hfaults] at hmem
          rcases List.mem_cons.mp hmem with rfl | hmem
          · exact hle
          · have := hrest earlier hmem
            omega
        · exact h
  | _ => exact ⟨fun _ => trivial, fun _ => h⟩

/-- Faults that are apart were apart before the event. -/
theorem faultsApart_of_next (h : FaultsApart c (next c w e).faults) : FaultsApart c w.faults := by
  cases e with
  | onfdp bbIndex clock =>
    simp only [next] at h
    split_ifs at h
    · exact h.of_cons
    · exact h
  | _ => exact h

/-- **The interval check over a run.** Any two decisions for a fault are at least
    `min_fault_time_interval` apart exactly if each decision that the other checks let pass comes
    that long after the fault before it. -/
theorem faults_apart_iff (hpos : 0 < c.minFaultTimeInterval) (hconf : w.state.context.c = c)
    (hfresh : w.faults = [] ∧ w.state.context.faultTime = 0) {es : List Event} {t : World}
    (hclock : Meets Forward (step c) w es) (hrun : es.foldlM (step c) w = some t) :
    FaultsApart c t.faults ↔ Meets (KeepsInterval c) (step c) w es := by
  have hstart : IntervalInv c w ∧ FaultsApart c w.faults := by
    rw [hfresh.1]
    exact ⟨⟨hconf, by rw [hfresh.2, hfresh.1]; rfl, by rw [hfresh.1]; nofun⟩, List.Pairwise.nil⟩
  constructor
  · intro hapart
    obtain ⟨-, hsteps⟩ := Runs.meets_of_final (R := fun w => FaultsApart c w.faults)
      (fun w e w' hstep h => faultsApart_of_next (Option.some.inj hstep ▸ h)) hrun hapart
    refine Runs.meets_of_invariant (I := fun w => IntervalInv c w ∧ FaultsApart c w.faults)
      (fun w e w' hI hP hstep => ?_) (fun w e hI hP => ?_) hstart (Runs.meets_and hclock hsteps)
    · exact ⟨Option.some.inj hstep ▸ hI.1.next hpos hP.1, hP.2 w' hstep⟩
    · exact (faultsApart_next_iff hI.1 hpos hP.1 hI.2).mp (hP.2 _ rfl)
  · intro hkeeps
    refine (Runs.invariant_of_run (I := fun w => IntervalInv c w ∧ FaultsApart c w.faults)
      (fun w e w' hI hP hstep => ?_) hstart (Runs.meets_and hclock hkeeps) hrun).2
    obtain rfl := Option.some.inj hstep
    exact ⟨hI.1.next hpos hP.1, (faultsApart_next_iff hI.1 hpos hP.1 hI.2).mpr hP.2⟩

end Interval

/-- A world in which the clock has not been read yet. -/
def fresh (c : Conf) (numFaults : Int32) : World := ⟨initial c numFaults, 0, [], none⟩

/-- A least time of 100 between faults. -/
def apart100 : Conf := { noLimits with minFaultTimeInterval := 100 }

/-- Decisions at 10 and 110, as far apart as faults must be. -/
theorem faults_apart_iff_late :
    ∃ t, [decisionAt 10, decisionAt 110].foldlM (step apart100) (fresh apart100 1) = some t ∧
      t.faults = [110, 10] ∧ FaultsApart apart100 t.faults := by
  have hclock : Meets Forward (step apart100) (fresh apart100 1)
      [decisionAt 10, decisionAt 110] := by decide
  refine ⟨_, rfl, by decide,
    (faults_apart_iff (c := apart100) (by decide) rfl ⟨rfl, rfl⟩ hclock rfl).mpr ?_⟩
  -- there is no fault before the first decision; the second comes late enough
  refine Runs.meets_cons (fun _ last hlast => absurd hlast nofun) rfl ⟨fun _ last hlast => ?_, ?_⟩
  · obtain rfl : 10 = last := Option.some.inj hlast
    decide
  · exact fun _ _ => trivial

/-- **Two faults too close to each other.** The decisions at 10 and 20 both return 1; one at 200
    would return 0. -/
theorem early_fault :
    ∃ t, [decisionAt 10, decisionAt 20].foldlM (step apart100) (fresh apart100 1) = some t ∧
      ¬ FaultsApart apart100 t.faults ∧ fires t.state (decisionAt 200) = false :=
  ⟨_, rfl, by rw [FaultsApart]; decide, by decide⟩

/-! ### Time since the start -/

/-- **The time limit bounds the injection period and nothing else**: a decision does not return 1
    later than `max_time` after the start, and does not stop injection before that time. -/
def BoundsPeriod (c : Conf) (w : World) : Event → Prop
  | .onfdp bbIndex clock =>
    (fires w.state (.onfdp bbIndex clock) = true →
      clock.onUpdate.toNat ≤ w.state.context.startTime.toNat + c.maxTime.toNat) ∧
    (w.state.flag.enabled ≠ 0 → (act c w.state (.onfdp bbIndex clock)).flag.enabled = 0 →
      w.state.context.startTime.toNat + c.maxTime.toNat ≤ clock.onMaxTime.toNat)
  | _ => True

/-- **The condition on a decision.** If it reaches the time limit, then exactly at the limit, or
    after it and there is no fault for other reasons, or the clock can not reach the limit. -/
def MeetsDeadline (c : Conf) (w : World) : Event → Prop
  | .onfdp bbIndex clock =>
    let deadline := w.state.context.startTime.toNat + c.maxTime.toNat
    Reaches w.state bbIndex clock →
      clock.onMaxTime.toNat = deadline ∨
      (deadline < clock.onMaxTime.toNat ∧
        ¬ (FaultsOk w.state ∧ finalCount w.state.context.c ≠ 0)) ∨
      2 ^ 64 ≤ deadline
  | _ => True

/-- What a world of such a run has: the start is in the past. -/
structure PeriodInv (c : Conf) (w : World) : Prop where
  conf : w.state.context.c = c
  past : w.state.context.startTime ≤ w.now

section Period

variable {c : Conf} {w : World}

theorem PeriodInv.next (hinv : PeriodInv c w) {e : Event} (hforward : Forward w e) :
    PeriodInv c (next c w e) := by
  refine ⟨act_conf hinv.conf, ?_⟩
  show (act c w.state e).context.startTime ≤ _
  rw [act_startTime]
  cases e with
  | onfdp bbIndex clock =>
    obtain ⟨hinterval, hmax, hupdate⟩ := hforward
    exact UInt64.le_trans hinv.past (UInt64.le_trans hinterval (UInt64.le_trans hmax hupdate))
  | start withContext now => exact UInt64.le_refl now
  | _ => exact hinv.past

/-- The time limit rejects exactly up to the deadline, if the clock can reach that. -/
theorem timeOk_iff {bbIndex : Int32} {clock : Clock} (hpos : 0 < c.maxTime)
    (hinv : PeriodInv c w) (hforward : Forward w (.onfdp bbIndex clock)) :
    TimeOk w.state clock ↔
      w.state.context.startTime.toNat + c.maxTime.toNat < clock.onMaxTime.toNat ∨
        2 ^ 64 ≤ w.state.context.startTime.toNat + c.maxTime.toNat := by
  have hbound := c.maxTime.toNat_lt
  have hlt := w.state.context.startTime.toNat_lt
  have hnow := clock.onMaxTime.toNat_lt
  have hpast := UInt64.le_iff_toNat_le.mp
    (UInt64.le_trans hinv.past (UInt64.le_trans hforward.1 hforward.2.1))
  rw [TimeOk, hinv.conf, UInt64.le_iff_toNat_le, UInt64.toNat_add, UInt32.toNat_toUInt64]
  constructor
  · intro hok
    by_contra hnot
    refine hok ⟨hpos, ?_⟩
    omega
  · rintro hor ⟨-, hle⟩
    omega

/-- **One event**: the time limit does what it is for exactly if the event meets the condition. -/
theorem boundsPeriod_iff (hpos : 0 < c.maxTime) (hinv : PeriodInv c w) {e : Event}
    (hforward : Forward w e) : BoundsPeriod c w e ↔ MeetsDeadline c w e := by
  cases e with
  | onfdp bbIndex clock =>
    have hdecision := edfiOnfdpDefault_decision bbIndex clock w.state
    have htime := timeOk_iff hpos hinv hforward
    have hmono := UInt64.le_iff_toNat_le.mp hforward.2.2
    have hupdate := clock.onUpdate.toNat_lt
    simp only [BoundsPeriod, MeetsDeadline, fires, act, hdecision.fires_iff]
    constructor
    · rintro ⟨hfires, hstops⟩ hreaches
      by_cases hok : TimeOk w.state clock
      · by_cases hrest : FaultsOk w.state ∧ finalCount w.state.context.c ≠ 0
        · have := hfires ⟨hreaches, hok, hrest⟩
          have := htime.mp hok
          omega
        · exact .inr ((htime.mp hok).imp (fun hlt => ⟨hlt, hrest⟩) id)
      · have := hstops hreaches.enabled
          ((hdecision.stops_iff hreaches.enabled).mpr ⟨hreaches, hok⟩)
        have := mt htime.mpr hok
        omega
    · intro hmeets
      constructor
      · rintro ⟨hreaches, hok, hrest⟩
        have hlate := htime.mp hok
        rcases hmeets hreaches with heq | ⟨-, hnot⟩ | hover
        · omega
        · exact absurd hrest hnot
        · omega
      · intro henabled hoff
        obtain ⟨hreaches, hnot⟩ := (hdecision.stops_iff henabled).mp hoff
        have hearly := mt htime.mpr hnot
        rcases hmeets hreaches with heq | ⟨hlt, -⟩ | hover
        · omega
        · omega
        · omega
  | _ => exact Iff.rfl

/-- **The time limit over a run.** After `edfi_start` no decision returns 1 later than `max_time`
    after the start, and none stops injection before, exactly if each decision that reaches the
    check meets the condition. -/
theorem period_bounded_iff (hpos : 0 < c.maxTime) {w₀ : World} (hconf : w₀.state.context.c = c)
    {withContext : Bool} {now : UInt64} (hstart : step c w₀ (.start withContext now) = some w)
    {es : List Event} (hclock : Meets Forward (step c) w es) :
    Meets (BoundsPeriod c) (step c) w es ↔ Meets (MeetsDeadline c) (step c) w es := by
  have hinv : PeriodInv c w := by
    obtain rfl := Option.some.inj hstart
    refine ⟨act_conf hconf, ?_⟩
    show (act c w₀.state (.start withContext now)).context.startTime ≤ now
    rw [act_startTime]
    exact UInt64.le_refl now
  constructor
  · intro hbounds
    exact Runs.meets_of_invariant (I := PeriodInv c)
      (fun w e w' hI hP hstep => Option.some.inj hstep ▸ hI.next hP.1)
      (fun w e hI hP => (boundsPeriod_iff hpos hI hP.1).mp hP.2) hinv
      (Runs.meets_and hclock hbounds)
  · intro hmeets
    exact Runs.meets_of_invariant (I := PeriodInv c)
      (fun w e w' hI hP hstep => Option.some.inj hstep ▸ hI.next hP.1)
      (fun w e hI hP => (boundsPeriod_iff hpos hI hP.1).mpr hP.2) hinv
      (Runs.meets_and hclock hmeets)

end Period

/-- Injection for a time of 100. -/
def period100 : Conf := { noLimits with maxTime := 100 }

/-- The world after a start at 1000. -/
def started : World := next period100 (fresh period100 1) (.start false 1000)

/-- A decision exactly at the deadline. -/
theorem period_bounded_iff_deadline :
    Meets (BoundsPeriod period100) (step period100) started [decisionAt 1100] := by
  have hclock : Meets Forward (step period100) started [decisionAt 1100] := by decide
  have hstart : step period100 (fresh period100 1) (.start false 1000) = some started := rfl
  have hpos : 0 < period100.maxTime := by decide
  have hconf : (fresh period100 1).state.context.c = period100 := rfl
  refine (period_bounded_iff hpos hconf hstart hclock).mpr ⟨fun _ => .inl ?_, fun _ _ => trivial⟩
  decide

/-- **Injection after the deadline, and a stop before it.** The decision at 2000 returns 1; the one
    at 1050 stops injection. -/
theorem late_fault :
    ¬ Meets (BoundsPeriod period100) (step period100) started [decisionAt 2000] ∧
      ¬ Meets (BoundsPeriod period100) (step period100) started [decisionAt 1050] := by
  constructor
  · intro h
    exact absurd (h.1.1 (by decide)) (by decide)
  · intro h
    exact absurd (h.1.2 (by decide) (by decide)) (by decide)

/-! ### Number of faults -/

/-- A block's faults are logged exactly after a decision for them. -/
def Logs (w : World) : Event → Prop
  | .onfault bbIndex => w.pending = some bbIndex
  | _ => w.pending = none

instance (w : World) : (e : Event) → Decidable (Logs w e)
  | .onfault bbIndex => inferInstanceAs (Decidable (w.pending = some bbIndex))
  | .onfdp _ _ | .start _ _ | .update | .stop | .switchFlag _ =>
    inferInstanceAs (Decidable (w.pending = none))

/-- The number of faults after those of a block are logged. -/
def loggedFaults (w : World) (bbIndex : Int32) : UInt64 :=
  w.state.context.totalFaults + (w.state.context.bbNumFaults (bbIndex - 1)).toInt64.toUInt64

/-- **The condition on a decision.** If the checks other than that of the number of faults let it
    pass, the faults of the block do not exceed the limit. -/
def FitsLimit (c : Conf) (w : World) : Event → Prop
  | .onfdp bbIndex clock =>
    Reaches w.state bbIndex clock → TimeOk w.state clock → finalCount w.state.context.c ≠ 0 →
      loggedFaults w bbIndex ≤ c.maxFaults
  | _ => True

/-- What a world of such a run has: the limit is kept, also by the faults still to be logged. -/
structure LimitInv (c : Conf) (w : World) : Prop where
  conf : w.state.context.c = c
  total : w.state.context.totalFaults ≤ c.maxFaults
  pending : ∀ bbIndex ∈ w.pending, loggedFaults w bbIndex ≤ c.maxFaults

section Limit

variable {c : Conf} {w : World}

/-- Below the limit its check lets a decision pass. -/
theorem fires_iff_of_le (hconf : w.state.context.c = c)
    (htotal : w.state.context.totalFaults ≤ c.maxFaults) {bbIndex : Int32} {clock : Clock} :
    fires w.state (.onfdp bbIndex clock) = true ↔
      Reaches w.state bbIndex clock ∧ TimeOk w.state clock ∧
        finalCount w.state.context.c ≠ 0 := by
  have hfaults : FaultsOk w.state := by
    rintro ⟨-, hlt⟩
    rw [hconf] at hlt
    rw [UInt64.lt_iff_toNat_lt] at hlt
    rw [UInt64.le_iff_toNat_le] at htotal
    omega
  rw [fires, (edfiOnfdpDefault_decision bbIndex clock w.state).fires_iff]
  exact ⟨fun h => ⟨h.1, h.2.1, h.2.2.2⟩, fun h => ⟨h.1, h.2.1, hfaults, h.2.2⟩⟩

/-- The counts that the logger reads change only by the logger. -/
theorem loggedFaults_next {e : Event} (he : ∀ bbIndex, e ≠ .onfault bbIndex) (bbIndex : Int32) :
    loggedFaults (next c w e) bbIndex = loggedFaults w bbIndex := by
  show (act c w.state e).context.totalFaults +
    ((act c w.state e).context.bbNumFaults (bbIndex - 1)).toInt64.toUInt64 = _
  rw [act_bbNumFaults, act_totalFaults]
  cases e with
  | onfault bbIndex => exact absurd rfl (he bbIndex)
  | _ => rfl

theorem LimitInv.next (hinv : LimitInv c w) {e : Event} (hlogs : Logs w e)
    (hfits : FitsLimit c w e) : LimitInv c (next c w e) := by
  refine ⟨act_conf hinv.conf, ?_, ?_⟩
  · show (act c w.state e).context.totalFaults ≤ _
    rw [act_totalFaults]
    cases e with
    | onfault bbIndex => exact hinv.pending bbIndex hlogs
    | _ => exact hinv.total
  · intro bbIndex hpending
    cases e with
    | onfdp bbIndex' clock =>
      rw [loggedFaults_next fun _ => Event.noConfusion]
      simp only [Policy.next] at hpending
      split_ifs at hpending with hfires
      · obtain rfl := Option.some.inj hpending
        obtain ⟨hreaches, htime, hcount⟩ := (fires_iff_of_le hinv.conf hinv.total).mp hfires
        exact hfits hreaches htime hcount
      · exact hinv.pending bbIndex hpending
    | onfault bbIndex' => exact absurd hpending nofun
    | _ =>
      rw [loggedFaults_next fun _ => Event.noConfusion]
      exact hinv.pending bbIndex hpending

/-- If the limit is kept in every world of a run, each decision meets the condition. -/
theorem fitsLimit_of_bounded {es : List Event} {t : World} (hconf : w.state.context.c = c)
    (hbounded : w.state.context.totalFaults ≤ c.maxFaults) (hlogs : Meets Logs (step c) w es)
    (hrun : es.foldlM (step c) w = some t) (hdone : t.pending = none)
    (hsteps : Meets (fun w e => ∀ w', step c w e = some w' →
      w'.state.context.totalFaults ≤ c.maxFaults) (step c) w es) :
    Meets (FitsLimit c) (step c) w es := by
  induction es generalizing w with
  | nil => trivial
  | cons e es ih =>
    obtain ⟨w', hw', hrun⟩ := Runs.run_cons.mp hrun
    obtain rfl := Option.some.inj hw'
    refine Runs.meets_cons ?_ rfl (ih (act_conf hconf) (hsteps.1 _ rfl) (hlogs.2 _ rfl) hrun
      (hsteps.2 _ rfl))
    cases e with
    | onfdp bbIndex clock =>
      intro hreaches htime hcount
      have hfires := (fires_iff_of_le hconf hbounded).mpr ⟨hreaches, htime, hcount⟩
      have hpending : (next c w (.onfdp bbIndex clock)).pending = some bbIndex := if_pos hfires
      -- the next event logs the faults of the block
      cases es with
      | nil =>
        obtain rfl : next c w (.onfdp bbIndex clock) = t := Option.some.inj hrun
        exact absurd (hpending.symm.trans hdone) nofun
      | cons e' es =>
        have hlog := (hlogs.2 _ rfl).1
        cases e' with
        | onfault bbIndex' =>
          obtain rfl := Option.some.inj (hpending.symm.trans hlog)
          have hle := (hsteps.2 _ rfl).1 _ rfl
          rw [← loggedFaults_next (c := c) (e := .onfdp bbIndex clock) fun _ => Event.noConfusion]
          exact hle
        | _ => exact absurd (hpending.symm.trans hlog) nofun
    | _ => trivial

/-- **The limit on the faults over a run.** In a run in which the faults of a block are logged
    exactly when a decision for them returned 1, the number of faults never exceeds `max_faults`
    exactly if each decision that the other checks let pass is for a block whose faults still
    fit. -/
theorem faults_bounded_iff (hconf : w.state.context.c = c)
    (hbounded : w.state.context.totalFaults ≤ c.maxFaults) (hnone : w.pending = none)
    {es : List Event} {t : World} (hlogs : Meets Logs (step c) w es)
    (hrun : es.foldlM (step c) w = some t) (hdone : t.pending = none) :
    (∀ pre, pre <+: es → ∀ u, pre.foldlM (step c) w = some u →
      u.state.context.totalFaults ≤ c.maxFaults) ↔ Meets (FitsLimit c) (step c) w es := by
  constructor
  · intro h
    exact fitsLimit_of_bounded hconf hbounded hlogs hrun hdone (Runs.meets_of_prefixes h)
  · intro hfits pre hpre u hu
    have hstart : LimitInv c w := ⟨hconf, hbounded, by rw [hnone]; nofun⟩
    have hboth := Runs.meets_prefix hpre (Runs.meets_and hlogs hfits)
    exact (Runs.invariant_of_run (I := LimitInv c)
      (fun w e w' hI hP hstep => Option.some.inj hstep ▸ hI.next hP.1 hP.2) hstart hboth hu).total

end Limit

/-- At most one fault. -/
def oneFault : Conf := { noLimits with maxFaults := 1 }

/-- One decision for a block with one fault. -/
theorem faults_bounded_iff_once :
    Meets Logs (step oneFault) (fresh oneFault 1) [decisionAt 10, .onfault 1] ∧
      ∀ pre, pre <+: [decisionAt 10, .onfault 1] → ∀ u,
        pre.foldlM (step oneFault) (fresh oneFault 1) = some u →
        u.state.context.totalFaults ≤ oneFault.maxFaults := by
  have hlogs : Meets Logs (step oneFault) (fresh oneFault 1) [decisionAt 10, .onfault 1] := by
    decide
  have hfits : Meets (FitsLimit oneFault) (step oneFault) (fresh oneFault 1)
      [decisionAt 10, .onfault 1] :=
    ⟨fun _ _ _ => by decide, fun _ _ => ⟨trivial, fun _ _ => trivial⟩⟩
  exact ⟨hlogs, (faults_bounded_iff (c := oneFault) rfl (by decide) rfl hlogs rfl rfl).mpr hfits⟩

/-- **One fault too many.** With the limit reached the next decision still returns 1, and the
    faults of its block are counted over the limit. -/
theorem second_fault :
    ∃ u, [decisionAt 10, .onfault 1, decisionAt 20, .onfault 1].foldlM (step oneFault)
        (fresh oneFault 1) = some u ∧
      Meets Logs (step oneFault) (fresh oneFault 1)
        [decisionAt 10, .onfault 1, decisionAt 20, .onfault 1] ∧
      oneFault.maxFaults < u.state.context.totalFaults :=
  ⟨_, rfl, by decide, by decide⟩

end Firestarter.Edfi.Policy
