import Firestarter.Hybrid.Gates
import Firestarter.Rcvry.Actions

namespace Firestarter.Rcvry.Signal

/-!
# The signal handler (`rcvry_signal.c`)

The handler recovers from a `SIGSEGV` by closing the gate of the current site, running its recovery
action and jumping back to the gate.  Two static variables are meant to stop it from doing so for
ever: they count the deliveries in a row that come from one site.

* `rcvrySignalAction` — the handler, with the counter that the gate machine has;
* `handled_streak`, `le_repeatCount` — what the count says about the deliveries so far;
* `exits_iff_stuck` — the endless sequences of faults that the handler ends;
* `deliveries_le` — in the gate machine, where another site is reached through the end of a window
  only, a run in which no window ends is one of them.
-/

/-! ### The handler -/

/-- The signals the handler tells apart. -/
inductive Signo
  | sigsegv | sigusr1 | other
  deriving DecidableEq

/-- What the handler keeps between two deliveries. -/
structure State where
  prevSiteId : ℕ
  repeatCount : ℕ
  gates : ℕ → LtckptType
  currentTxType : LtckptType

/-- What a delivery finds: the current site, and the state its recovery action works on. -/
structure Delivery where
  currentSiteId : ℕ
  ra : RaState

/-- How the handler ends the process. -/
inductive Halt
  | exit (code : Int)
  | invalidSiteId
  | action (halt : RaHalt)

/-- The state in which the process starts. -/
def start (gates : ℕ → LtckptType) (currentTxType : LtckptType) : State :=
  ⟨0, 0, gates, currentTxType⟩

/-- The counter of repeated recoveries; `none` for `exit(2)`. -/
def countSite (s : State) (site : ℕ) : Option State :=
  (Hybrid.nextRepeat s.prevSiteId s.repeatCount site).map fun n =>
    { s with repeatCount := n, prevSiteId := site }

section Handler

variable (libc : Libc) (maxSiteId : ℕ)

/-- `rcvry_dispatch`, with the assertion it starts with. -/
def dispatch (d : Delivery) : Except Halt RaState :=
  if d.currentSiteId ≤ maxSiteId then
    match rcvryDispatch libc d.ra with
    | .ok ra => .ok ra
    | .error halt => .error (.action halt)
  else .error .invalidSiteId

/-- `rcvry_signal_action`, up to the jump back to the gate.  The result of the rollback is printed
    and not looked at. -/
def rcvrySignalAction (signo : Signo) (s : State) (d : Delivery) : Except Halt State :=
  match signo with
  | .other => .error (.exit 1)
  | .sigusr1 => .ok { s with
      currentTxType := .undolog
      gates := Function.update s.gates d.currentSiteId .undolog }
  | .sigsegv =>
    match countSite s d.currentSiteId with
    | none => .error (.exit 2)
    | some s =>
      match dispatch libc maxSiteId d with
      | .error halt => .error halt
      | .ok _ => .ok { s with
          gates := Function.update s.gates d.currentSiteId rcvryLibcallGateClose }

/-- The state after the first `k` of a sequence of faults, or how the process ended. -/
def handled (s : State) (faults : ℕ → Delivery) : ℕ → Except Halt State
  | 0 => .ok s
  | k + 1 => (handled s faults k).bind fun s =>
      rcvrySignalAction libc maxSiteId .sigsegv s (faults k)

/-- The recovery action of a delivery succeeds. -/
def Recovers (d : Delivery) : Prop :=
  d.currentSiteId ≤ maxSiteId ∧ ∃ ra, rcvryDispatch libc d.ra = .ok ra

/-- The handler ends the process at one of the faults. -/
def Exits (s : State) (faults : ℕ → Delivery) : Prop :=
  ∃ k halt, handled libc maxSiteId s faults k = .error halt

end Handler

/-! ### One delivery -/

/-- What the counter does, in numbers. -/
theorem nextRepeat_eq_some {prev count site n : ℕ} (hle : count ≤ 64) :
    Hybrid.nextRepeat prev count site = some n ↔
      (prev = site ∧ count < 64 ∧ n = count + 1) ∨ (prev ≠ site ∧ n = 0) := by
  have hadd : Hybrid.uint32 (count + 1) = count + 1 := Nat.mod_eq_of_lt (by omega)
  unfold Hybrid.nextRepeat
  rw [hadd]
  by_cases hprev : prev = site
  · by_cases hcount : count < 64
    · simp [hprev, hcount, Nat.not_lt.mpr (Nat.succ_le_of_lt hcount), eq_comm]
    · simp [hprev, hcount, show 64 < count + 1 by omega]
  · simp [hprev, eq_comm]

section Deliveries

variable {libc : Libc} {maxSiteId : ℕ}

theorem countSite_eq_some {s s' : State} {site : ℕ} (hle : s.repeatCount ≤ 64) :
    countSite s site = some s' ↔
      (s.prevSiteId = site ∧ s.repeatCount < 64 ∧
        s' = { s with repeatCount := s.repeatCount + 1, prevSiteId := site }) ∨
      (s.prevSiteId ≠ site ∧ s' = { s with repeatCount := 0, prevSiteId := site }) := by
  simp only [countSite, Option.map_eq_some_iff, nextRepeat_eq_some hle]
  constructor
  · rintro ⟨n, ⟨hprev, hlt, rfl⟩ | ⟨hne, rfl⟩, rfl⟩
    · exact .inl ⟨hprev, hlt, rfl⟩
    · exact .inr ⟨hne, rfl⟩
  · rintro (⟨hprev, hlt, rfl⟩ | ⟨hne, rfl⟩)
    · exact ⟨_, .inl ⟨hprev, hlt, rfl⟩, rfl⟩
    · exact ⟨_, .inr ⟨hne, rfl⟩, rfl⟩

theorem countSite_eq_none {s : State} {site : ℕ} (hle : s.repeatCount ≤ 64) :
    countSite s site = none ↔ s.prevSiteId = site ∧ s.repeatCount = 64 := by
  have hsome : ∀ s', countSite s site = some s' ↔ _ := fun _ => countSite_eq_some hle
  constructor
  · intro hnone
    simp only [hnone, reduceCtorEq, false_iff, not_or, not_and] at hsome
    have hsite : s.prevSiteId = site := by
      by_contra hne
      exact (hsome _).2 hne rfl
    refine ⟨hsite, ?_⟩
    by_contra hne
    exact (hsome _).1 hsite (by omega) rfl
  · rintro ⟨hsite, hcount⟩
    refine Option.eq_none_iff_forall_ne_some.mpr fun s' hs' => ?_
    rcases (hsome s').mp hs' with ⟨-, hlt, -⟩ | ⟨hne, -⟩
    · omega
    · exact hne hsite

theorem dispatch_ok_iff {d : Delivery} :
    (∃ ra, dispatch libc maxSiteId d = .ok ra) ↔ Recovers libc maxSiteId d := by
  unfold dispatch Recovers
  by_cases hsite : d.currentSiteId ≤ maxSiteId
  · cases rcvryDispatch libc d.ra <;> simp [hsite]
  · simp [hsite]

/-- **A delivery that the process survives**: the counter lets it pass and the action succeeds. -/
theorem sigsegv_ok_iff {s s' : State} {d : Delivery} :
    rcvrySignalAction libc maxSiteId .sigsegv s d = .ok s' ↔
      Recovers libc maxSiteId d ∧ ∃ t, countSite s d.currentSiteId = some t ∧
        s' = { t with gates := Function.update t.gates d.currentSiteId rcvryLibcallGateClose } := by
  rw [← dispatch_ok_iff, rcvrySignalAction]
  cases countSite s d.currentSiteId with
  | none => simp
  | some t => cases dispatch libc maxSiteId d <;> simp [eq_comm]

/-! ### Sequences of deliveries -/

variable {gates : ℕ → LtckptType} {txType : LtckptType} {faults : ℕ → Delivery}

/-- `prev_site_id` after the first `k` faults. -/
def recent (faults : ℕ → Delivery) : ℕ → ℕ
  | 0 => 0
  | k + 1 => (faults k).currentSiteId

/-- The last `repeat_count` faults, and the one before them, came from the same site. -/
structure Streak (faults : ℕ → Delivery) (k : ℕ) (s : State) : Prop where
  prev : s.prevSiteId = recent faults k
  le_limit : s.repeatCount ≤ 64
  le_length : s.repeatCount ≤ k
  same : ∀ j ≤ s.repeatCount, recent faults (k - j) = recent faults k

/-- What one delivery does to the streak. -/
theorem Streak.step {k : ℕ} {s s' : State} (hs : Streak faults k s)
    (hstep : rcvrySignalAction libc maxSiteId .sigsegv s (faults k) = .ok s') :
    Streak faults (k + 1) s' := by
  obtain ⟨-, t, ht, rfl⟩ := sigsegv_ok_iff.mp hstep
  rcases (countSite_eq_some hs.le_limit).mp ht with ⟨hprev, hlt, rfl⟩ | ⟨-, rfl⟩
  · have hlen := hs.le_length
    refine ⟨rfl, ?_, ?_, fun j hj => ?_⟩
    · show s.repeatCount + 1 ≤ 64
      omega
    · show s.repeatCount + 1 ≤ k + 1
      omega
    · -- the new fault comes from the site of the streak
      change j ≤ s.repeatCount + 1 at hj
      cases j with
      | zero => rfl
      | succ j =>
        rw [Nat.add_sub_add_right, hs.same j (by omega), ← hs.prev, hprev]
        rfl
  · refine ⟨rfl, Nat.zero_le _, Nat.zero_le _, fun j hj => ?_⟩
    obtain rfl : j = 0 := Nat.le_zero.mp hj
    rfl

theorem handled_succ {s s' : State} {k : ℕ} (h : handled libc maxSiteId s faults (k + 1) = .ok s') :
    ∃ t, handled libc maxSiteId s faults k = .ok t ∧
      rcvrySignalAction libc maxSiteId .sigsegv t (faults k) = .ok s' := by
  rw [handled] at h
  cases hk : handled libc maxSiteId s faults k with
  | error halt => exact absurd (hk ▸ h) nofun
  | ok t =>
    rw [hk] at h
    exact ⟨t, rfl, h⟩

/-- **The count is a streak**, after every run of deliveries. -/
theorem handled_streak {s : State} {k : ℕ}
    (h : handled libc maxSiteId (start gates txType) faults k = .ok s) : Streak faults k s := by
  induction k generalizing s with
  | zero =>
    obtain rfl := Except.ok.inj h
    exact ⟨rfl, Nat.zero_le _, Nat.zero_le _, fun j hj => by rw [Nat.le_zero.mp hj]⟩
  | succ k ih =>
    obtain ⟨t, ht, hstep⟩ := handled_succ h
    exact (ih ht).step hstep

/-- **A streak is counted.** -/
theorem le_repeatCount {s : State} {i m : ℕ}
    (hsame : ∀ j ≤ m, recent faults (i + j) = recent faults i)
    (h : handled libc maxSiteId (start gates txType) faults (i + m) = .ok s) :
    m ≤ s.repeatCount := by
  induction m generalizing s with
  | zero => exact Nat.zero_le _
  | succ m ih =>
    obtain ⟨t, ht, hstep⟩ := handled_succ (k := i + m) h
    have hstreak := handled_streak ht
    have hle := ih (fun j hj => hsame j (Nat.le_succ_of_le hj)) ht
    obtain ⟨-, u, hu, rfl⟩ := sigsegv_ok_iff.mp hstep
    have hprev : t.prevSiteId = (faults (i + m)).currentSiteId := by
      rw [hstreak.prev, hsame m (Nat.le_succ m), ← hsame (m + 1) (Nat.le_refl _)]
      rfl
    rcases (countSite_eq_some hstreak.le_limit).mp hu with ⟨-, hlt, rfl⟩ | ⟨hne, -⟩
    · exact Nat.succ_le_succ hle
    · exact absurd hprev hne

/-- A fault that the counter does not let pass is the last of a streak. -/
theorem Streak.full {k : ℕ} {s : State} (hs : Streak faults k s)
    (hnone : countSite s (faults k).currentSiteId = none) :
    ∃ i, ∀ j ≤ 65, recent faults (i + j) = recent faults i := by
  have hlen := hs.le_length
  obtain ⟨hsite, hcount⟩ := (countSite_eq_none hs.le_limit).mp hnone
  have hall : ∀ m, k - 64 ≤ m → m ≤ k + 1 → recent faults m = recent faults k := by
    intro m hlo hhi
    rcases Nat.lt_or_eq_of_le hhi with hlt | rfl
    · have hsame := hs.same (k - m) (by omega)
      rwa [show k - (k - m) = m by omega] at hsame
    · rw [← hs.prev, hsite]
      rfl
  refine ⟨k - 64, fun j hj => ?_⟩
  rw [hall (k - 64 + j) (by omega) (by omega), hall (k - 64) (by omega) (by omega)]

/-- The handler ends a sequence of faults if an action fails or the counter passes its limit. -/
theorem exits_iff_streak :
    Exits libc maxSiteId (start gates txType) faults ↔
      (∃ k, ¬ Recovers libc maxSiteId (faults k)) ∨
      ∃ i, ∀ j ≤ 65, recent faults (i + j) = recent faults i := by
  constructor
  · rintro ⟨k, halt, hk⟩
    -- the first fault that is not handled is not recoverable, or finds the counter at its limit
    induction k generalizing halt with
    | zero => exact absurd hk nofun
    | succ k ih =>
      cases hprev : handled libc maxSiteId (start gates txType) faults k with
      | error halt' => exact ih halt' hprev
      | ok s =>
        rw [handled, hprev] at hk
        by_cases hrecovers : Recovers libc maxSiteId (faults k)
        · refine .inr ((handled_streak hprev).full ?_)
          cases hcount : countSite s (faults k).currentSiteId with
          | none => rfl
          | some t =>
            have hok := sigsegv_ok_iff.mpr ⟨hrecovers, t, hcount, rfl⟩
            exact absurd (hok.symm.trans hk) nofun
        · exact .inl ⟨k, hrecovers⟩
  · intro h
    by_contra hexits
    have hok : ∀ k, ∃ s, handled libc maxSiteId (start gates txType) faults k = .ok s := by
      intro k
      cases hk : handled libc maxSiteId (start gates txType) faults k with
      | error halt => exact absurd ⟨k, halt, hk⟩ hexits
      | ok s => exact ⟨s, rfl⟩
    rcases h with ⟨k, hfails⟩ | ⟨i, hsame⟩
    · obtain ⟨s, hs⟩ := hok (k + 1)
      obtain ⟨t, -, hstep⟩ := handled_succ hs
      exact hfails (sigsegv_ok_iff.mp hstep).1
    · -- 65 repetitions are counted, one more than the handler allows
      obtain ⟨s, hs⟩ := hok (i + 65)
      have hge := le_repeatCount hsame hs
      have hle := (handled_streak hs).le_limit
      omega

/-- **What the handler can end**: an action fails; or 66 faults in a row come from one site, or the
    first 65 from site 0, which the counter starts with. -/
def Stuck (libc : Libc) (maxSiteId : ℕ) (faults : ℕ → Delivery) : Prop :=
  (∃ k, ¬ Recovers libc maxSiteId (faults k)) ∨
  (∃ i, ∀ j < 66, (faults (i + j)).currentSiteId = (faults i).currentSiteId) ∨
  ∀ j < 65, (faults j).currentSiteId = 0

end Deliveries

/-- **Endless recovery**: the handler ends exactly the sequences of faults that are stuck. -/
theorem exits_iff_stuck (libc : Libc) (maxSiteId : ℕ) (gates : ℕ → LtckptType)
    (txType : LtckptType) (faults : ℕ → Delivery) :
    Exits libc maxSiteId (start gates txType) faults ↔ Stuck libc maxSiteId faults := by
  rw [exits_iff_streak, Stuck]
  refine or_congr_right ⟨?_, ?_⟩
  · rintro ⟨i, hsame⟩
    cases i with
    | zero =>
      refine .inr fun j hj => ?_
      have hj' := hsame (j + 1) (by omega)
      rwa [Nat.zero_add] at hj'
    | succ i =>
      refine .inl ⟨i, fun j hj => ?_⟩
      have hj' := hsame j (by omega)
      rwa [Nat.add_right_comm] at hj'
  · rintro (⟨i, hsame⟩ | hzero)
    · refine ⟨i + 1, fun j hj => ?_⟩
      rw [Nat.add_right_comm]
      exact hsame j (by omega)
    · refine ⟨0, fun j hj => ?_⟩
      rw [Nat.zero_add]
      cases j with
      | zero => rfl
      | succ j => exact hzero j (by omega)

/-- Faults by turns at the sites 1 and 2, whose recovery action always succeeds. -/
def alternating (k : ℕ) : Delivery where
  currentSiteId := if k % 2 = 0 then 1 else 2
  ra := ⟨fun _ => 0, ⟨.invalid, .noop, 0, 0, 0, 0⟩, .undolog, 0, 0, 0, []⟩

/-- The handler recovers from them for ever. -/
theorem alternating_never_exits :
    ¬ Exits (fun _ => 0) 2 (start (fun _ => .tsx) .tsx) alternating := by
  -- every fault resets the count
  have hrun : ∀ k, ∃ s, handled (fun _ => 0) 2 (start (fun _ => .tsx) .tsx) alternating k = .ok s ∧
      s.prevSiteId ≠ (alternating k).currentSiteId := by
    intro k
    induction k with
    | zero => exact ⟨_, rfl, by decide⟩
    | succ k ih =>
      obtain ⟨s, hs, hne⟩ := ih
      have hcount : countSite s (alternating k).currentSiteId =
          some { s with repeatCount := 0, prevSiteId := (alternating k).currentSiteId } :=
        Option.map_eq_some_iff.mpr ⟨0, if_neg hne, rfl⟩
      have hrecovers : Recovers (fun _ => 0) 2 (alternating k) := by
        refine ⟨?_, _, rfl⟩
        unfold alternating
        split_ifs <;> decide
      have hok := sigsegv_ok_iff.mpr ⟨hrecovers, _, hcount, rfl⟩
      refine ⟨_, (congrArg (Except.bind · _) hs).trans hok, ?_⟩
      show (alternating k).currentSiteId ≠ (alternating (k + 1)).currentSiteId
      unfold alternating
      rcases Nat.mod_two_eq_zero_or_one k with hk | hk <;> simp [hk, Nat.add_mod]
  rintro ⟨k, halt, hk⟩
  obtain ⟨s, hs, -⟩ := hrun k
  exact absurd (hs.symm.trans hk) nofun

/-! ### Deliveries in the gate machine -/

open Hybrid in
/-- The events that are deliveries. -/
def isDelivery : GateEvent → Bool
  | .sigsegv => true
  | _ => false

section Machine

open Hybrid

variable {c : Config} {s s' : GateState} {e : GateEvent}

/-- What an event does to the current site and to the counter: only a library call reaches another
    site, and only a delivery counts. -/
theorem gateStep_counter (h : gateStep c s e = some s') :
    (isDelivery e = true ∧ s'.currentSiteId = s.currentSiteId ∧
      s'.prevSiteId = s.currentSiteId ∧
      nextRepeat s.prevSiteId s.repeatCount s.currentSiteId = some s'.repeatCount) ∨
    (isDelivery e = false ∧ s'.prevSiteId = s.prevSiteId ∧ s'.repeatCount = s.repeatCount ∧
      (s.phase = .gap ∨ s'.currentSiteId = s.currentSiteId)) := by
  have hframe : s'.frame = s.frame → s'.prevSiteId = s.prevSiteId ∧
      s'.repeatCount = s.repeatCount ∧
      (s.phase = .gap ∨ s'.currentSiteId = s.currentSiteId) := fun hf =>
    ⟨congrArg (·.2.2.1) hf, congrArg (·.2.2.2) hf, .inr (congrArg (·.2.1) hf)⟩
  cases gateStep_cases h with
  | libcall _ _ hgap => exact .inr ⟨rfl, rfl, rfl, .inl hgap⟩
  | gate tol => exact .inr ⟨rfl, hframe (windowEntryGate_frame c tol s)⟩
  | check => exact .inr ⟨rfl, hframe rfl⟩
  | endOfWindow | ungatedEnd => exact .inr ⟨rfl, hframe (eowHook_frame c s _)⟩
  | sigsegv _ hn => exact .inl ⟨rfl, rfl, rfl, hn⟩

/-- Only the end of a window leads into the gap. -/
theorem gateStep_phase_ne_gap (h : gateStep c s e = some s') (he : e ≠ .endOfWindow)
    (hp : s.phase ≠ .gap) : s'.phase ≠ .gap := by
  cases gateStep_cases h with
  | libcall _ _ hgap => exact absurd hgap hp
  | gate tol =>
    rcases windowEntryGate_words c tol s with ⟨-, hp, -⟩ | ⟨-, hp, -⟩ | ⟨-, heq⟩
    · rw [hp]
      exact nofun
    · rw [hp]
      exact nofun
    · rw [heq]
      exact nofun
  | check => exact hp
  | endOfWindow => exact absurd rfl he
  | ungatedEnd | sigsegv => exact nofun

/-- **Run.** The count stays within its limit. -/
theorem repeatCount_le_of_run {es : List GateEvent}
    (hrun : es.foldlM (gateStep c) (gateInit c) = some s) : s.repeatCount ≤ 64 := by
  refine Runs.invariant_of_run (P := fun _ _ => True) (I := fun s => s.repeatCount ≤ 64)
    (fun s e s' hs _ h => ?_) (Nat.zero_le 64) (Runs.meets_of_forall fun _ _ _ => trivial) hrun
  rcases gateStep_counter h with ⟨-, -, -, hn⟩ | ⟨-, -, hn, -⟩
  · rcases (nextRepeat_eq_some hs).mp hn with ⟨-, hlt, hn⟩ | ⟨-, hn⟩ <;> omega
  · exact hn ▸ hs

/-- The deliveries that the counter still lets pass while the site stays. -/
def room (s : GateState) : ℕ :=
  if s.prevSiteId = s.currentSiteId then 64 - s.repeatCount else 65

/-- **Run without the end of a window.** Every delivery takes from the room. -/
theorem deliveries_le_room {es : List GateEvent} (hle : s.repeatCount ≤ 64)
    (hphase : s.phase ≠ .gap) (hend : .endOfWindow ∉ es)
    (hrun : es.foldlM (gateStep c) s = some s') : es.countP isDelivery ≤ room s := by
  induction es generalizing s with
  | nil => exact Nat.zero_le _
  | cons e es ih =>
    obtain ⟨s₁, hs₁, hrun⟩ := Runs.run_cons.mp hrun
    rw [List.mem_cons, not_or] at hend
    have hphase₁ := gateStep_phase_ne_gap hs₁ (fun h => hend.1 h.symm) hphase
    rw [List.countP_cons]
    rcases gateStep_counter hs₁ with ⟨hyes, hsite, hprev, hn⟩ | ⟨hno, hprev, hcount, hsite⟩
    · rw [if_pos hyes]
      have hroom : s₁.repeatCount ≤ 64 ∧ room s₁ + 1 ≤ room s := by
        rw [room, if_pos (hprev.trans hsite.symm), room]
        rcases (nextRepeat_eq_some hle).mp hn with ⟨heq, hlt, hn⟩ | ⟨hne, hn⟩
        · rw [if_pos heq]
          omega
        · rw [if_neg hne]
          omega
      have := ih hroom.1 hphase₁ hend.2 hrun
      omega
    · rw [if_neg (by simp [hno])]
      have hroom : room s₁ = room s := by
        rw [room, hprev, hcount, hsite.resolve_left hphase, room]
      exact hroom ▸ ih (hcount ▸ hle) hphase₁ hend.2 hrun

end Machine

open Hybrid in
/-- **Endless recovery without the end of a window**: whatever happened before, the process
    survives at most 65 deliveries. -/
theorem deliveries_le (c : Config) (es₀ es : List GateEvent) (s s' : GateState)
    (hreach : es₀.foldlM (gateStep c) (gateInit c) = some s) (hphase : s.phase ≠ .gap)
    (hend : .endOfWindow ∉ es) (hrun : es.foldlM (gateStep c) s = some s') :
    es.countP isDelivery ≤ 65 := by
  have hroom : room s ≤ 65 := by
    unfold room
    split <;> omega
  exact (deliveries_le_room (repeatCount_le_of_run hreach) hphase hend hrun).trans hroom

end Firestarter.Rcvry.Signal
