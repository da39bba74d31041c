import Firestarter.Edfi.SwitchFlag

namespace Firestarter.Edfi.Onfdp

open SwitchFlag (Flag)

/-!
# Deciding on a fault (`edfi_df.c`)

Each instrumented block calls `edfi_onfdp_default`, which decides by a chain of checks whether the
block runs with its faults.  If it does, `edfi_onfault_default` counts them.  `unsigned long` has
64 bits, and the callbacks are the default ones.

* `edfiOnfdpDefault`, `edfiOnfaultDefault`, `edfiStart`, `edfiStop`, `edfiUpdateContext` — the code;
* `Decision`, `edfiOnfdpDefault_decision` — what a decision is and does, by the state before.
-/

/-! ### State -/

/-- `edfi_context_conf_t`. -/
structure Conf where
  faultProbRandmax : UInt64
  minFdpInterval : Int32
  faultyBbIndex : Int32
  minFaultTimeInterval : UInt32
  maxTime : UInt32
  maxFaults : UInt64
  randSeed : UInt32

/-- `edfi_context_t`. -/
structure Context where
  faultFdpCount : Int32
  faultTime : UInt64
  startTime : UInt64
  totalFaults : UInt64
  bbNumExecutions : Int32 → UInt64
  bbNumFaults : Int32 → Int32
  c : Conf

/-- The variables of the library. -/
structure State where
  context : Context
  flag : Flag
  onfdpCount : UInt64
  lastFaultTime : UInt64
  randNext : UInt64

/-- What `edfi_getcurrtime_ns` returns at the three places a decision may call it, in the order of
    the code. -/
structure Clock where
  onInterval : UInt64
  onMaxTime : UInt64
  onUpdate : UInt64

/-! ### Random numbers -/

/-- `edfi_rand`: the next state of the generator. -/
def nextRand (next : UInt64) : UInt64 := next * 1103515245 + 12345

/-- `edfi_rand`: the number returned from the new state. -/
def randOf (next : UInt64) : UInt32 := (next / 65536).toUInt32 % 32768

/-! ### Starting and stopping -/

/-- `edfi_srand`. -/
def edfiSrand (seed : UInt32) (s : State) : State := { s with randNext := seed.toUInt64 }

/-- The copy at the end of `edfi_update_context`. -/
def copyConf (c : Conf) (s : State) : State := { s with context.c := c }

/-- `edfi_update_context` for a context that names no library. -/
def edfiUpdateContext (new : Option Conf) (s : State) : State :=
  match new with
  | none => s
  | some c => copyConf c (edfiSrand c.randSeed s)

/-- `edfi_onstart_default`. -/
def edfiOnstartDefault (now : UInt64) (s : State) : State :=
  { s with
    context.faultFdpCount := s.context.c.minFdpInterval
    context.startTime := now }

/-- `edfi_start`. -/
def edfiStart (new : Option Conf) (now : UInt64) (s : State) : State :=
  let s := edfiUpdateContext new s
  edfiOnstartDefault now { s with flag := s.flag.startStop true }

/-- `edfi_stop`; the default callback only prints. -/
def edfiStop (s : State) : State := { s with flag := s.flag.startStop false }

/-! ### The checks -/

/-- `edfi_onfdp_min_fdp_interval`. -/
def edfiOnfdpMinFdpInterval (s : State) : State × Bool :=
  if 0 < s.context.c.minFdpInterval ∧ s.context.faultFdpCount < s.context.c.minFdpInterval then
    ({ s with context.faultFdpCount := s.context.faultFdpCount + 1 }, false)
  else
    ({ s with onfdpCount := s.onfdpCount + s.context.c.minFdpInterval.toInt64.toUInt64 }, true)

/-- `edfi_onfdp_min_fault_time_interval`. -/
def edfiOnfdpMinFaultTimeInterval (now : UInt64) (s : State) : State × Bool :=
  let count := s.onfdpCount + s.context.c.minFaultTimeInterval.toUInt64
  if 0 < s.context.c.minFaultTimeInterval ∧ s.context.faultTime ≠ 0 then
    if s.context.faultTime + s.context.c.minFaultTimeInterval.toUInt64 < now then
      ({ s with lastFaultTime := now }, false)
    else
      ({ s with lastFaultTime := now, onfdpCount := count }, true)
  else
    ({ s with lastFaultTime := 0, onfdpCount := count }, true)

/-- `edfi_onfdp_fault_prob`. -/
def edfiOnfdpFaultProb (s : State) : State × Bool :=
  if s.context.c.faultProbRandmax = 0 then (s, true)
  else
    let next := nextRand s.randNext
    if s.context.c.faultProbRandmax ≤ (randOf next).toUInt64 then
      ({ s with randNext := next }, false)
    else
      ({ s with randNext := next, onfdpCount := s.onfdpCount + 1 }, true)

/-- `edfi_onfdp_bb_index`. -/
def edfiOnfdpBbIndex (bbIndex : Int32) (s : State) : State × Bool :=
  if s.flag.enabled = 0 then (s, false)
  else if bbIndex ≠ s.context.c.faultyBbIndex ∧ 0 < s.context.c.faultyBbIndex then (s, false)
  else if 0 < s.context.c.faultyBbIndex then ({ s with onfdpCount := 1 }, true)
  else (s, true)

/-- `edfi_onfdp_max_time`. -/
def edfiOnfdpMaxTime (now : UInt64) (s : State) : State × Bool :=
  if 0 < s.context.c.maxTime ∧ now ≤ s.context.startTime + s.context.c.maxTime.toUInt64 then
    (edfiStop s, false)
  else
    ({ s with onfdpCount := s.onfdpCount + s.context.c.maxTime.toUInt64 }, true)

/-- `edfi_onfdp_max_faults`. -/
def edfiOnfdpMaxFaults (s : State) : State × Bool :=
  if 0 < s.context.c.maxFaults ∧ s.context.c.maxFaults < s.context.totalFaults then (s, false)
  else ({ s with onfdpCount := s.onfdpCount + s.context.c.maxFaults }, true)

/-- `edfi_onfdp_min_fdp_interval_update`. -/
def edfiOnfdpMinFdpIntervalUpdate (s : State) : State := { s with context.faultFdpCount := 1 }

/-- `edfi_onfdp_min_fault_time_interval_update`. -/
def edfiOnfdpMinFaultTimeIntervalUpdate (now : UInt64) (s : State) : State :=
  if 0 < s.context.c.minFaultTimeInterval then
    { s with context.faultTime := if s.lastFaultTime ≠ 0 then s.lastFaultTime else now }
  else s

/-- `if (check() == 0) return 0;`, and the rest of the function. -/
def andThen (check rest : State → State × Bool) (s : State) : State × Bool :=
  if (check s).2 then rest (check s).1 else ((check s).1, false)

/-- `edfi_onfdp_default`. -/
def edfiOnfdpDefault (bbIndex : Int32) (clock : Clock) (s : State) : State × Bool :=
  if s.flag.enabled = 0 then (s, false)
  else
    (andThen edfiOnfdpMinFdpInterval <|
      andThen (edfiOnfdpMinFaultTimeInterval clock.onInterval) <|
      andThen edfiOnfdpFaultProb <|
      andThen (edfiOnfdpBbIndex bbIndex) <|
      andThen (edfiOnfdpMaxTime clock.onMaxTime) <|
      andThen edfiOnfdpMaxFaults fun s =>
        if s.onfdpCount = 0 then (s, false)
        else
          (edfiOnfdpMinFaultTimeIntervalUpdate clock.onUpdate (edfiOnfdpMinFdpIntervalUpdate s),
            true))
      { s with onfdpCount := 0 }

/-- The entry of `bb_num_faults` for the counter `bb_index`. -/
def faultsEntry {α : Type} [Sub α] [One α] (bbIndex : α) : α := bbIndex - 1

/-- `edfi_onfault_default`: the block is counted, and its faults are. -/
def edfiOnfaultDefault (bbIndex : Int32) (s : State) : State :=
  { s with
    context.bbNumExecutions := fun i =>
      if i = bbIndex then s.context.bbNumExecutions i + 1 else s.context.bbNumExecutions i
    context.totalFaults :=
      s.context.totalFaults + (s.context.bbNumFaults (faultsEntry bbIndex)).toInt64.toUInt64 }

/-! ### What a decision depends on -/

section Checks

variable (s : State) (bbIndex : Int32) (clock : Clock)

/-- The check of the decisions since the last fault. -/
def FdpOk : Prop :=
  ¬ (0 < s.context.c.minFdpInterval ∧ s.context.faultFdpCount < s.context.c.minFdpInterval)

/-- The check of the time since the last fault. -/
def IntervalOk : Prop :=
  0 < s.context.c.minFaultTimeInterval → s.context.faultTime ≠ 0 →
    ¬ s.context.faultTime + s.context.c.minFaultTimeInterval.toUInt64 < clock.onInterval

/-- The check of the fault probability. -/
def ProbOk : Prop :=
  s.context.c.faultProbRandmax ≠ 0 →
    ¬ s.context.c.faultProbRandmax ≤ (randOf (nextRand s.randNext)).toUInt64

/-- The check of the block. -/
def BbOk : Prop := ¬ (bbIndex ≠ s.context.c.faultyBbIndex ∧ 0 < s.context.c.faultyBbIndex)

/-- The check of the time since the start. -/
def TimeOk : Prop :=
  ¬ (0 < s.context.c.maxTime ∧
    clock.onMaxTime ≤ s.context.startTime + s.context.c.maxTime.toUInt64)

/-- The check of the number of faults. -/
def FaultsOk : Prop :=
  ¬ (0 < s.context.c.maxFaults ∧ s.context.c.maxFaults < s.context.totalFaults)

/-- The value of `edfi_onfdp_count` after all checks. -/
def finalCount (c : Conf) : UInt64 :=
  (if 0 < c.faultyBbIndex then 1
    else
      let count := 0 + c.minFdpInterval.toInt64.toUInt64 + c.minFaultTimeInterval.toUInt64
      if c.faultProbRandmax = 0 then count else count + 1) +
    c.maxTime.toUInt64 + c.maxFaults

/-- The checks before the time limit let the decision pass. -/
structure Reaches : Prop where
  enabled : s.flag.enabled ≠ 0
  fdp : FdpOk s
  interval : IntervalOk s clock
  prob : ProbOk s
  bb : BbOk s bbIndex

/-- The value of `edfi_last_fault_time` after the check of the interval. -/
def lastOf : UInt64 :=
  if 0 < s.context.c.minFaultTimeInterval ∧ s.context.faultTime ≠ 0 then clock.onInterval else 0

/-- The clock value that a decision takes for the time of its fault. -/
def callTime : UInt64 := if lastOf s clock ≠ 0 then lastOf s clock else clock.onUpdate

/-- Two states that differ in counters only; the decisions since the last fault are counted up to
    their limit. -/
structure SameBut (s s' : State) : Prop where
  context : s'.context = { s.context with faultFdpCount := s'.context.faultFdpCount }
  flag : s'.flag = s.flag
  fdpCount : s'.context.faultFdpCount = s.context.faultFdpCount ∨
    s.context.faultFdpCount < s.context.c.minFdpInterval ∧
      s'.context.faultFdpCount = s.context.faultFdpCount + 1

/-- **What a decision does.** -/
inductive Decision : State × Bool → Prop
  /-- A check before the time limit rejects. -/
  | early (s' : State) (hreaches : ¬ Reaches s bbIndex clock) (hsame : SameBut s s') :
      Decision (s', false)
  /-- The time limit rejects, and injection stops. -/
  | stopped (s' : State) (hreaches : Reaches s bbIndex clock) (htime : ¬ TimeOk s clock)
      (hcontext : s'.context = s.context) (hflag : s'.flag = s.flag.startStop false) :
      Decision (s', false)
  /-- The limit on the faults rejects, or no check is configured. -/
  | late (s' : State) (hreaches : Reaches s bbIndex clock) (htime : TimeOk s clock)
      (hlate : ¬ (FaultsOk s ∧ finalCount s.context.c ≠ 0)) (hsame : SameBut s s') :
      Decision (s', false)
  | fault (s' : State) (hreaches : Reaches s bbIndex clock) (htime : TimeOk s clock)
      (hfaults : FaultsOk s) (hcount : finalCount s.context.c ≠ 0)
      (hcontext : s'.context = { s.context with
        faultFdpCount := 1
        faultTime := if 0 < s.context.c.minFaultTimeInterval then callTime s clock
          else s.context.faultTime })
      (hflag : s'.flag = s.flag) : Decision (s', true)

end Checks

/-! ### The chain of checks -/

section Chain

variable {check rest : State → State × Bool} {s s' : State}

theorem andThen_pass (h : check s = (s', true)) : andThen check rest s = rest s' := by
  rw [andThen, h, if_pos rfl]

theorem andThen_fail (h : check s = (s', false)) : andThen check rest s = (s', false) := by
  rw [andThen, h, if_neg Bool.false_ne_true]

theorem edfiOnfdpMinFaultTimeInterval_pass {clock : Clock} (h : IntervalOk s clock) :
    edfiOnfdpMinFaultTimeInterval clock.onInterval s =
      ({ s with
        lastFaultTime := lastOf s clock
        onfdpCount := s.onfdpCount + s.context.c.minFaultTimeInterval.toUInt64 }, true) := by
  rw [edfiOnfdpMinFaultTimeInterval, lastOf]
  by_cases hused : 0 < s.context.c.minFaultTimeInterval ∧ s.context.faultTime ≠ 0
  · rw [if_pos hused, if_pos hused, if_neg (h hused.1 hused.2)]
  · rw [if_neg hused, if_neg hused]

theorem edfiOnfdpMinFaultTimeInterval_fail {clock : Clock} (h : ¬ IntervalOk s clock) :
    edfiOnfdpMinFaultTimeInterval clock.onInterval s =
      ({ s with lastFaultTime := clock.onInterval }, false) := by
  simp only [IntervalOk, Classical.not_imp, not_not] at h
  rw [edfiOnfdpMinFaultTimeInterval, if_pos ⟨h.1, h.2.1⟩, if_pos h.2.2]

theorem edfiOnfdpFaultProb_pass (h : ProbOk s) :
    edfiOnfdpFaultProb s =
      ({ s with
        randNext :=
          if s.context.c.faultProbRandmax = 0 then s.randNext else nextRand s.randNext
        onfdpCount :=
          if s.context.c.faultProbRandmax = 0 then s.onfdpCount else s.onfdpCount + 1 }, true) := by
  rw [edfiOnfdpFaultProb]
  by_cases hzero : s.context.c.faultProbRandmax = 0
  · rw [if_pos hzero, if_pos hzero, if_pos hzero]
  · rw [if_neg hzero, if_neg hzero, if_neg hzero, if_neg (h hzero)]

theorem edfiOnfdpFaultProb_fail (h : ¬ ProbOk s) :
    edfiOnfdpFaultProb s = ({ s with randNext := nextRand s.randNext }, false) := by
  simp only [ProbOk, Classical.not_imp, not_not] at h
  rw [edfiOnfdpFaultProb, if_neg h.1, if_pos h.2]

theorem edfiOnfdpBbIndex_pass {bbIndex : Int32} (henabled : s.flag.enabled ≠ 0)
    (h : BbOk s bbIndex) :
    edfiOnfdpBbIndex bbIndex s =
      ({ s with onfdpCount := if 0 < s.context.c.faultyBbIndex then 1 else s.onfdpCount },
        true) := by
  rw [edfiOnfdpBbIndex, if_neg henabled, if_neg h]
  split_ifs <;> rfl

end Chain

/-- The state in which a decision reaches the time limit. -/
def reached (clock : Clock) (s : State) : State :=
  { s with
    lastFaultTime := lastOf s clock
    randNext :=
      if s.context.c.faultProbRandmax = 0 then s.randNext else nextRand s.randNext
    onfdpCount :=
      if 0 < s.context.c.faultyBbIndex then 1
      else
        let count := 0 + s.context.c.minFdpInterval.toInt64.toUInt64 +
          s.context.c.minFaultTimeInterval.toUInt64
        if s.context.c.faultProbRandmax = 0 then count else count + 1 }

/-- The decision from the time limit on. -/
def fromMaxTime (clock : Clock) : State → State × Bool :=
  andThen (edfiOnfdpMaxTime clock.onMaxTime) <|
    andThen edfiOnfdpMaxFaults fun s =>
      if s.onfdpCount = 0 then (s, false)
      else
        (edfiOnfdpMinFaultTimeIntervalUpdate clock.onUpdate (edfiOnfdpMinFdpIntervalUpdate s), true)

/-- The checks before the time limit: all pass, or one of them rejects. -/
theorem edfiOnfdpDefault_early (bbIndex : Int32) (clock : Clock) (s : State) :
    (Reaches s bbIndex clock ∧
      edfiOnfdpDefault bbIndex clock s = fromMaxTime clock (reached clock s)) ∨
    (¬ Reaches s bbIndex clock ∧
      ∃ s', edfiOnfdpDefault bbIndex clock s = (s', false) ∧ SameBut s s') := by
  rw [edfiOnfdpDefault]
  by_cases henabled : s.flag.enabled = 0
  · exact .inr ⟨fun h => h.enabled henabled, s, if_pos henabled, ⟨rfl, rfl, .inl rfl⟩⟩
  rw [if_neg henabled]
  by_cases hfdp : FdpOk s
  swap
  · exact .inr ⟨fun h => hfdp h.fdp, _, andThen_fail (if_pos (not_not.mp hfdp)),
      ⟨rfl, rfl, .inr ⟨(not_not.mp hfdp).2, rfl⟩⟩⟩
  rw [andThen_pass (if_neg hfdp)]
  by_cases hinterval : IntervalOk s clock
  swap
  · exact .inr ⟨fun h => hinterval h.interval, _,
      andThen_fail (edfiOnfdpMinFaultTimeInterval_fail hinterval), ⟨rfl, rfl, .inl rfl⟩⟩
  rw [andThen_pass (edfiOnfdpMinFaultTimeInterval_pass (by exact hinterval))]
  by_cases hprob : ProbOk s
  swap
  · exact .inr ⟨fun h => hprob h.prob, _, andThen_fail (edfiOnfdpFaultProb_fail hprob),
      ⟨rfl, rfl, .inl rfl⟩⟩
  rw [andThen_pass (edfiOnfdpFaultProb_pass (by exact hprob))]
  by_cases hbb : BbOk s bbIndex
  swap
  · exact .inr ⟨fun h => hbb h.bb, _,
      andThen_fail ((if_neg henabled).trans (if_pos (not_not.mp hbb))), ⟨rfl, rfl, .inl rfl⟩⟩
  rw [andThen_pass (edfiOnfdpBbIndex_pass (by exact henabled) (by exact hbb))]
  exact .inl ⟨⟨henabled, hfdp, hinterval, hprob, hbb⟩, rfl⟩

/-- **A decision** is made by the chain of checks on the state before. -/
theorem edfiOnfdpDefault_decision (bbIndex : Int32) (clock : Clock) (s : State) :
    Decision s bbIndex clock (edfiOnfdpDefault bbIndex clock s) := by
  rcases edfiOnfdpDefault_early bbIndex clock s with ⟨hreaches, heq⟩ | ⟨hreaches, s', heq, hsame⟩
  swap
  · exact heq ▸ .early s' hreaches hsame
  rw [heq, fromMaxTime]
  by_cases htime : TimeOk s clock
  swap
  · rw [andThen_fail (if_pos (not_not.mp htime))]
    exact .stopped _ hreaches htime rfl rfl
  rw [andThen_pass (if_neg htime)]
  by_cases hfaults : FaultsOk s
  swap
  · rw [andThen_fail (if_pos (not_not.mp hfaults))]
    exact .late _ hreaches htime (fun h => hfaults h.1) ⟨rfl, rfl, .inl rfl⟩
  rw [andThen_pass (if_neg hfaults)]
  by_cases hcount : finalCount s.context.c = 0
  · rw [if_pos (by exact hcount)]
    exact .late _ hreaches htime (fun h => h.2 hcount) ⟨rfl, rfl, .inl rfl⟩
  rw [if_neg (by exact hcount)]
  refine .fault _ hreaches htime hfaults hcount ?_ ?_
  · rw [edfiOnfdpMinFaultTimeIntervalUpdate]
    by_cases hpos : 0 < s.context.c.minFaultTimeInterval
    · rw [if_pos (by exact hpos), if_pos hpos]
      rfl
    · rw [if_neg (by exact hpos), if_neg hpos]
      rfl
  · rw [edfiOnfdpMinFaultTimeIntervalUpdate]
    split_ifs <;> rfl

/-! ### What follows for the fields -/

section Fields

variable {s : State} {bbIndex : Int32} {clock : Clock} {r : State × Bool}

/-- A decision is for a fault exactly if all checks pass. -/
theorem Decision.fires_iff (h : Decision s bbIndex clock r) :
    r.2 = true ↔ Reaches s bbIndex clock ∧ TimeOk s clock ∧ FaultsOk s ∧
      finalCount s.context.c ≠ 0 := by
  cases h with
  | early s' hreaches _ => exact ⟨nofun, fun h => absurd h.1 hreaches⟩
  | stopped s' _ htime _ _ => exact ⟨nofun, fun h => absurd h.2.1 htime⟩
  | late s' _ _ hlate _ => exact ⟨nofun, fun h => absurd h.2.2 hlate⟩
  | fault s' hreaches htime hfaults hcount _ _ =>
    exact ⟨fun _ => ⟨hreaches, htime, hfaults, hcount⟩, fun _ => rfl⟩

/-- A decision changes two fields of the context. -/
theorem Decision.context_eq (h : Decision s bbIndex clock r) :
    r.1.context = { s.context with
      faultFdpCount := r.1.context.faultFdpCount
      faultTime :=
        if r.2 = true ∧ 0 < s.context.c.minFaultTimeInterval then callTime s clock
        else s.context.faultTime } := by
  cases h with
  | early s' _ hsame => exact hsame.context
  | stopped s' _ _ hcontext _ => rw [hcontext]; rfl
  | late s' _ _ _ hsame => exact hsame.context
  | fault s' _ _ _ _ hcontext _ =>
    rw [hcontext]
    simp only [true_and]

/-- A decision stops injection exactly if it reaches the time limit and is rejected there. -/
theorem Decision.stops_iff (h : Decision s bbIndex clock r) (henabled : s.flag.enabled ≠ 0) :
    r.1.flag.enabled = 0 ↔ Reaches s bbIndex clock ∧ ¬ TimeOk s clock := by
  cases h with
  | early s' hreaches hsame =>
    exact ⟨fun h => absurd (hsame.flag ▸ h) henabled, fun h => absurd h.1 hreaches⟩
  | stopped s' hreaches htime _ hflag =>
    exact ⟨fun _ => ⟨hreaches, htime⟩, fun _ => congrArg Flag.enabled hflag⟩
  | late s' _ htime _ hsame =>
    exact ⟨fun h => absurd (hsame.flag ▸ h) henabled, fun h => absurd htime h.2⟩
  | fault s' _ htime _ _ _ hflag =>
    exact ⟨fun h => absurd (hflag ▸ h) henabled, fun h => absurd htime h.2⟩

/-- The decisions since the last fault: one more, or as many as before if there is no fault. -/
theorem Decision.fdpCount (h : Decision s bbIndex clock r) :
    (r.2 = true ∧ r.1.context.faultFdpCount = 1) ∨
    (r.2 = false ∧ (r.1.context.faultFdpCount = s.context.faultFdpCount ∨
      s.context.faultFdpCount < s.context.c.minFdpInterval ∧
        r.1.context.faultFdpCount = s.context.faultFdpCount + 1)) := by
  cases h with
  | early s' _ hsame => exact .inr ⟨rfl, hsame.fdpCount⟩
  | stopped s' _ _ hcontext _ => exact .inr ⟨rfl, .inl (by rw [hcontext])⟩
  | late s' _ _ _ hsame => exact .inr ⟨rfl, hsame.fdpCount⟩
  | fault s' _ _ _ _ hcontext _ => exact .inl ⟨rfl, by rw [hcontext]⟩

end Fields

end Firestarter.Edfi.Onfdp
