import Mathlib.Algebra.Group.Nat.Defs
import Mathlib.Data.Int.Basic
import Mathlib.Data.List.Basic

namespace Firestarter.Edfi.SwitchFlag

/-!
# Switching the flag in library functions (`switchFlag` in `FaultInjector.cpp`, `edfi_df.c`)

The pass lets chosen library functions run with fault injection switched on or off.  At its entry
such a function saves `edfi_faultinjection_enabled` and its version and stores a constant to it;
the last block of the function, `F->back()`, stores the saved value again unless the version has
changed.  `edfi_start` and `edfi_stop` set the flag and raise the version.

* `switchFlag`, `flagAtEntry` — which functions are instrumented, and with which constant;
* `Trace`, `run` — an activation of a function with the calls it makes, and what it does to flag
  and version;
* `run_eq` — the flag afterwards, by the stores of the trace;
* `flag_survives_iff` — when the flag survives the call.
-/

/-! ### The code -/

/-- A function, as `switchFlag` looks at it. -/
structure Fn where
  sect : String
  name : String
  isEmpty : Bool

/-- An entry of `-fault-switch-flag-map`: what the two regular expressions match, and the value. -/
structure Rule where
  sectionRegex : String → Bool
  functionRegex : String → Bool
  value : ℤ

/-- `switchFlag`: the constant stored at the entry, by the first entry that matches; `none` if the
    function is not instrumented. -/
def switchFlag (regexList : List Rule) (F : Fn) : Option ℤ :=
  match regexList.find? fun r => r.sectionRegex F.sect && r.functionRegex F.name with
  | none => none
  | some r => if F.isEmpty || r.value = -1 then none else some r.value

/-- `runOnModule` hands `switchFlag` the functions of the static library only. -/
def flagAtEntry (regexList : List Rule) (F : Fn) : Option ℤ :=
  if F.sect = "edfi_functions" then switchFlag regexList F else none

/-- What a function does from some point on until it returns: `edfi_start` and `edfi_stop` set the
    flag, its last block is passed, or it calls a function. -/
inductive Trace
  | done
  | event (isStart : Bool) (rest : Trace)
  | back (rest : Trace)
  | call (F : Fn) (body rest : Trace)

/-- `edfi_faultinjection_enabled` and `edfi_faultinjection_enabled_version`. -/
structure Flag where
  enabled : ℤ
  version : ℕ

/-- The value and version that the instrumentation has saved; `none` without instrumentation. -/
abbrev Frame := Option Flag

/-- The flag that `edfi_start` or `edfi_stop` stores. -/
def flagOf (isStart : Bool) : ℤ := if isStart then 1 else 0

/-- `edfi_start`, once the context is updated, and `edfi_stop`. -/
def Flag.startStop (s : Flag) (isStart : Bool) : Flag := ⟨flagOf isStart, (s.version + 1) % 2 ^ 32⟩

/-- The instrumentation of the last block. -/
def Frame.restore : Frame → Flag → Flag
  | none, s => s
  | some saved, s => if saved.version = s.version then { s with enabled := saved.enabled } else s

/-- The run of a trace inside an activation with the saved values `frame`. -/
def run (regexList : List Rule) (frame : Frame) : Trace → Flag → Flag
  | .done, s => s
  | .event isStart rest, s => run regexList frame rest (s.startStop isStart)
  | .back rest, s => run regexList frame rest (frame.restore s)
  | .call F body rest, s =>
    let s := match flagAtEntry regexList F with
      | none => run regexList none body s
      | some value => run regexList (some s) body { s with enabled := value }
    run regexList frame rest s

/-! ### What the flag should be -/

/-- The values set by `edfi_start` and `edfi_stop`, in order, at any depth. -/
def Trace.events : Trace → List ℤ
  | .done => []
  | .event isStart rest => flagOf isStart :: rest.events
  | .back rest => rest.events
  | .call _ body rest => body.events ++ rest.events

/-- **The flag survives a call** of `F`: afterwards it is what the last `edfi_start` or `edfi_stop`
    inside has set, or what it was before. -/
def Survives (regexList : List Rule) (F : Fn) (body : Trace) : Prop :=
  ∀ s : Flag, s.version < 2 ^ 32 →
    (run regexList none (.call F body .done) s).enabled = body.events.getLast?.getD s.enabled

/-! ### The last store -/

/-- What the stores of a part of an activation amount to. -/
inductive Effect
  /-- No store to the flag. -/
  | keep
  /-- The value saved at the entry of the function. -/
  | restore
  | value (enabled : ℤ)
  deriving DecidableEq

/-- The effect of a part before a part with the effect `later`. -/
def Effect.before (first later : Effect) : Effect :=
  match later with
  | .keep => first
  | _ => later

/-- The effect of a call, given the constant at the entry and the effect of the body. -/
def Effect.ofCall : Option ℤ → Effect → Effect
  | none, e => e
  | some v, .keep => .value v
  | some _, .restore => .keep
  | some _, .value enabled => .value enabled

/-- After `k` events the version is again what it was. -/
def wraps (k : ℕ) : Bool := k % 2 ^ 32 = 0

/-- The effect of a trace after `k` events in an activation. -/
def Trace.effect (regexList : List Rule) (instrumented : Bool) : ℕ → Trace → Effect
  | _, .done => .keep
  | k, .event isStart rest =>
    Effect.before (.value (flagOf isStart)) (rest.effect regexList instrumented (k + 1))
  | k, .back rest =>
    Effect.before (if instrumented && wraps k then .restore else .keep)
      (rest.effect regexList instrumented k)
  | k, .call F body rest =>
    Effect.before
      (Effect.ofCall (flagAtEntry regexList F)
        (body.effect regexList (flagAtEntry regexList F).isSome 0))
      (rest.effect regexList instrumented (k + body.events.length))

/-- The flag after an effect. -/
def Effect.apply (e : Effect) (saved current : ℤ) : ℤ :=
  match e with
  | .keep => current
  | .restore => saved
  | .value enabled => enabled

theorem Effect.before_apply (first later : Effect) (saved current : ℤ) :
    (Effect.before first later).apply saved current =
      later.apply saved (first.apply saved current) := by
  cases later <;> rfl

/-- The effect of a call on the flag of the caller. -/
theorem Effect.ofCall_apply (v : ℤ) (e : Effect) (saved current : ℤ) :
    (Effect.ofCall (some v) e).apply saved current = e.apply current v := by
  cases e <;> rfl

/-- The frame belongs to an activation with `k` events so far. -/
def Frame.Entered (frame : Frame) (saved : ℤ) (k : ℕ) (s : Flag) : Prop :=
  ∀ f, frame = some f →
    f.enabled = saved ∧ f.version < 2 ^ 32 ∧ s.version = (f.version + k) % 2 ^ 32

variable {k : ℕ} {s : Flag} {regexList : List Rule} {F : Fn}

/-- The last block restores the saved value if the number of events is a multiple of 2^32. -/
theorem Frame.restore_eq {frame : Frame} {saved : ℤ} (h : frame.Entered saved k s) :
    frame.restore s = ⟨(if frame.isSome && wraps k then Effect.restore else .keep).apply
      saved s.enabled, s.version⟩ := by
  cases frame with
  | none => rfl
  | some f =>
    obtain ⟨hsaved, hlt, hversion⟩ := h f rfl
    rw [Frame.restore, Option.isSome_some, Bool.true_and, wraps]
    by_cases hwraps : k % 2 ^ 32 = 0
    · rw [if_pos (by omega), if_pos (decide_eq_true hwraps), hsaved]
      rfl
    · rw [if_neg (by omega), if_neg (by simpa using hwraps)]
      rfl

theorem Frame.Entered.setEnabled {frame : Frame} {saved : ℤ} (h : frame.Entered saved k s) (n : ℕ)
    (enabled : ℤ) : frame.Entered saved (k + n) ⟨enabled, (s.version + n) % 2 ^ 32⟩ := by
  intro f hf
  obtain ⟨hsaved, hlt, hversion⟩ := h f hf
  refine ⟨hsaved, hlt, ?_⟩
  show (s.version + n) % 2 ^ 32 = _
  omega

/-- **The run of a trace**: the flag by its effect, and one version for each event. -/
theorem run_eq (regexList : List Rule) (t : Trace) {frame : Frame} {saved : ℤ}
    (hs : s.version < 2 ^ 32) (h : frame.Entered saved k s) :
    run regexList frame t s =
      ⟨(t.effect regexList frame.isSome k).apply saved s.enabled,
        (s.version + t.events.length) % 2 ^ 32⟩ := by
  induction t generalizing frame saved k s with
  | done =>
    rw [run, Trace.effect, Trace.events, List.length_nil, Nat.add_zero, Nat.mod_eq_of_lt hs]
    rfl
  | event isStart rest ih =>
    rw [run, Flag.startStop, ih (Nat.mod_lt _ (by decide)) (h.setEnabled 1 (flagOf isStart)),
      Trace.effect, Effect.before_apply, Trace.events, List.length_cons]
    congr 1
    show ((s.version + 1) % 2 ^ 32 + _) % 2 ^ 32 = _
    omega
  | back rest ih =>
    rw [run, Frame.restore_eq h, Trace.effect, Effect.before_apply, Trace.events]
    exact ih hs fun f hf => h f hf
  | call F body rest ihBody ihRest =>
    -- the call, whether `F` is instrumented or not
    have hcall : (match flagAtEntry regexList F with
        | none => run regexList none body s
        | some value => run regexList (some s) body { s with enabled := value }) =
        ⟨(Effect.ofCall (flagAtEntry regexList F)
            (body.effect regexList (flagAtEntry regexList F).isSome 0)).apply saved s.enabled,
          (s.version + body.events.length) % 2 ^ 32⟩ := by
      cases flagAtEntry regexList F with
      | none => exact ihBody hs (fun f hf => absurd hf nofun)
      | some v =>
        rw [Effect.ofCall_apply]
        refine ihBody hs fun f hf => ?_
        obtain rfl := Option.some.inj hf
        exact ⟨rfl, hs, (Nat.mod_eq_of_lt hs).symm⟩
    rw [run, hcall, ihRest (Nat.mod_lt _ (by decide)) (h.setEnabled _ _), Trace.effect,
      Effect.before_apply, Trace.events, List.length_append]
    congr 1
    show ((s.version + _) % 2 ^ 32 + _) % 2 ^ 32 = _
    omega

/-! ### The last store that counts -/

/-- The store of the last `edfi_start` or `edfi_stop`, if there is one. -/
def Trace.lastStore (t : Trace) : Effect := (t.events.getLast?.map Effect.value).getD .keep

/-- The last store of a call of `F` that takes effect is that of the last `edfi_start` or
    `edfi_stop`; without one the call stores nothing in the end. -/
def EndsWithLastStore (regexList : List Rule) (F : Fn) (body : Trace) : Prop :=
  Effect.ofCall (flagAtEntry regexList F)
    (body.effect regexList (flagAtEntry regexList F).isSome 0) = body.lastStore

/-- An effect is known from the flags it leaves. -/
theorem Effect.apply_eq_iff {e : Effect} {last : Option ℤ} :
    (∀ saved current, e.apply saved current = last.getD current) ↔
      e = (last.map Effect.value).getD .keep := by
  constructor
  · intro h
    cases e with
    | keep =>
      cases last with
      | none => rfl
      | some y =>
        have : y + 1 = y := h 0 (y + 1)
        omega
    | restore =>
      have hzero := h 0 0
      have : (1 : ℤ) = last.getD 0 := h 1 0
      rw [← hzero] at this
      exact absurd this (by decide)
    | value x =>
      cases last with
      | none =>
        have : x = x + 1 := h 0 (x + 1)
        omega
      | some y => exact congrArg Effect.value (h 0 0)
  · rintro rfl saved current
    cases last <;> rfl

/-- The flag survives a call exactly if the last store that counts is the right one. -/
theorem survives_iff {body : Trace} :
    Survives regexList F body ↔ EndsWithLastStore regexList F body := by
  have hrun : ∀ (saved : ℤ) (s : Flag), s.version < 2 ^ 32 →
      (run regexList none (.call F body .done) s).enabled =
        (Effect.ofCall (flagAtEntry regexList F)
          (body.effect regexList (flagAtEntry regexList F).isSome 0)).apply saved s.enabled := by
    intro saved s hs
    have hentered : Frame.Entered none saved 0 s := fun f hf => absurd hf nofun
    rw [run_eq regexList (.call F body .done) hs hentered]
    rfl
  rw [EndsWithLastStore, Trace.lastStore, ← Effect.apply_eq_iff]
  constructor
  · intro h saved current
    rw [← hrun saved ⟨current, 0⟩ (Nat.two_pow_pos 32)]
    exact h ⟨current, 0⟩ (Nat.two_pow_pos 32)
  · intro h s hs
    rw [hrun 0 s hs]
    exact h 0 s.enabled

/-! ### Calls that keep to the last block -/

/-- The last block is passed after the last `edfi_start` or `edfi_stop`. -/
def Trace.endsWithBack : Trace → Bool
  | .done => false
  | .event _ rest => rest.endsWithBack
  | .back rest => rest.endsWithBack || rest.events = []
  | .call _ _ rest => rest.endsWithBack

/-- **The condition on a call.** If neither `edfi_start` nor `edfi_stop` runs inside, the function
    passes its last block; if they run a multiple of 2^32 times, it does not pass it afterwards. -/
def Good (regexList : List Rule) (F : Fn) (body : Trace) : Prop :=
  (flagAtEntry regexList F).isSome → wraps body.events.length →
    (body.events = [] ↔ body.endsWithBack = true)

/-- A property of all calls of a trace. -/
def Trace.AllCalls (P : Fn → Trace → Prop) : Trace → Prop
  | .done => True
  | .event _ rest | .back rest => rest.AllCalls P
  | .call F body rest => P F body ∧ body.AllCalls P ∧ rest.AllCalls P

theorem Trace.lastStore_call (F : Fn) (body rest : Trace) :
    (Trace.call F body rest).lastStore = Effect.before body.lastStore rest.lastStore := by
  rw [Trace.lastStore, Trace.events, List.getLast?_append, Trace.lastStore, Trace.lastStore]
  cases rest.events.getLast? <;> rfl

/-- A call has the effect of its last `edfi_start` or `edfi_stop` exactly if it is good. -/
theorem ofCall_eq_iff_good {body : Trace} :
    Effect.ofCall (flagAtEntry regexList F)
        (if (flagAtEntry regexList F).isSome && body.endsWithBack && wraps body.events.length then
          .restore else body.lastStore) = body.lastStore ↔ Good regexList F body := by
  rw [Good]
  cases flagAtEntry regexList F with
  | none => exact ⟨fun _ hsome => absurd hsome nofun, fun _ => rfl⟩
  | some v =>
    rw [Option.isSome_some, Bool.true_and, Trace.lastStore]
    by_cases hnone : body.events = []
    · -- only the last block gives back what the entry found
      have hwraps : wraps body.events.length = true := by rw [hnone]; rfl
      rw [hwraps, hnone]
      cases body.endsWithBack <;> simp [Effect.ofCall]
    · obtain ⟨x, hx⟩ := Option.ne_none_iff_exists'.mp (mt List.getLast?_eq_none_iff.mp hnone)
      rw [hx]
      cases body.endsWithBack <;> cases wraps body.events.length <;> simp [Effect.ofCall, hnone]

/-- The effect of a trace whose calls are all good. -/
theorem effect_of_good (regexList : List Rule) (t : Trace) (h : t.AllCalls (Good regexList))
    (instrumented : Bool) (k : ℕ) :
    t.effect regexList instrumented k =
      if instrumented && t.endsWithBack && wraps (k + t.events.length) then .restore
      else t.lastStore := by
  induction t generalizing instrumented k with
  | done => simp [Trace.effect, Trace.endsWithBack, Trace.events, Trace.lastStore]
  | event isStart rest ih =>
    rw [Trace.effect, ih h, Trace.endsWithBack, Trace.events, List.length_cons,
      show k + 1 + rest.events.length = k + (rest.events.length + 1) by omega]
    split_ifs with hcond
    · rfl
    · rw [Trace.lastStore, Trace.lastStore, Trace.events]
      cases hlast : rest.events.getLast? <;> simp [List.getLast?_cons, hlast, Effect.before]
  | back rest ih =>
    rw [Trace.effect, ih h, Trace.endsWithBack, Trace.events, Trace.lastStore, Trace.lastStore,
      Trace.events]
    by_cases hnone : rest.events = []
    · rw [hnone, List.length_nil, Nat.add_zero]
      cases instrumented <;> cases wraps k <;> cases rest.endsWithBack <;> rfl
    · obtain ⟨x, hx⟩ := Option.ne_none_iff_exists'.mp (mt List.getLast?_eq_none_iff.mp hnone)
      simp only [hnone, decide_false, Bool.or_false, hx]
      split_ifs <;> rfl
  | call F body rest ihBody ihRest =>
    obtain ⟨hgood, hbody, hrest⟩ := h
    rw [Trace.effect, ihRest hrest, ihBody hbody, Nat.zero_add, ofCall_eq_iff_good.mpr hgood,
      Trace.endsWithBack, Trace.events, List.length_append, Nat.add_assoc, Trace.lastStore_call]
    split_ifs <;> rfl

/-- A call whose own calls are all good is survived exactly if it is good itself. -/
theorem survives_iff_good {body : Trace} (h : body.AllCalls (Good regexList)) :
    Survives regexList F body ↔ Good regexList F body := by
  rw [survives_iff, EndsWithLastStore, effect_of_good regexList body h, Nat.zero_add,
    ofCall_eq_iff_good]

/-- **Nested calls.** The flag survives every call of a trace exactly if every call is good. -/
theorem allCalls_survives_iff (regexList : List Rule) (t : Trace) :
    t.AllCalls (Survives regexList) ↔ t.AllCalls (Good regexList) := by
  induction t with
  | done => exact Iff.rfl
  | event _ rest ih => exact ih
  | back rest ih => exact ih
  | call F body rest ihBody ihRest =>
    rw [Trace.AllCalls, Trace.AllCalls, ihBody, ihRest]
    exact and_congr_left fun h => survives_iff_good h.1

/-! ### Main theorem -/

/-- **The flag across instrumented calls.** It survives a call exactly if the last store of the
    call that takes effect is the right one. It survives all calls of a trace exactly if each
    instrumented one without an `edfi_start` or `edfi_stop` inside passes the last block of its
    function, and no other one passes it with the version back at its old value. -/
theorem flag_survives_iff (regexList : List Rule) (F : Fn) (body : Trace) :
    (Survives regexList F body ↔ EndsWithLastStore regexList F body) ∧
    (body.AllCalls (Good regexList) → (Survives regexList F body ↔ Good regexList F body)) ∧
    ((Trace.call F body .done).AllCalls (Survives regexList) ↔
      (Trace.call F body .done).AllCalls (Good regexList)) :=
  ⟨survives_iff, survives_iff_good, allCalls_survives_iff regexList _⟩

/-- A map that switches injection off in every function. -/
def offEverywhere : List Rule := [⟨fun _ => true, fun _ => true, 0⟩]

/-- A library function with a body. -/
def libFn : Fn := ⟨"edfi_functions", "edfi_print_stats", false⟩

/-- A call of a function that switches injection on; afterwards the last block is passed. -/
def nested : Trace := .call libFn (.event true (.back .done)) (.back .done)

theorem flag_survives_iff_nested : Survives offEverywhere libFn nested := by
  refine ((flag_survives_iff offEverywhere libFn nested).2.1 ?_).mpr fun _ hwraps => ?_
  · exact ⟨fun _ hwraps => absurd hwraps (by decide), trivial, trivial⟩
  · exact absurd hwraps (by decide)

/-- **A return block before the last one.** A function that injection is switched off in returns
    without passing its last block: injection stays off for its caller. -/
theorem early_return_switches_off : ¬ Survives offEverywhere libFn .done := by
  intro h
  exact absurd (h ⟨1, 0⟩ (by decide)) (by decide)

end Firestarter.Edfi.SwitchFlag
