import Firestarter.Edfi.Onfdp

namespace Firestarter.Edfi.Commands

open Onfdp (Conf State)

/-!
# Control commands and fault libraries (`edfi_df.c`, `edfi_ctl_server.c`)

A control command may bring a new context, and the context may name a shared library that replaces
the four callbacks.  The library is loaded between the two other parts of the update.

* `edfiLoadDflib`, `edfiUpdateContext`, `edfiProcessCmd` — the code;
* `rejected_cmd_eq`, `rejected_cmd_iff` — what a rejected command changes, and when nothing.
-/

/-! ### State -/

/-- A callback or a symbol, by its address. -/
abbrev Addr := UInt64

/-- `edfi_onstart_p`, `edfi_onfdp_p`, `edfi_onfault_p` and `edfi_onstop_p`. -/
structure Callbacks where
  onstart : Addr
  onfdp : Addr
  onfault : Addr
  onstop : Addr

/-- A library that `dlopen` has loaded, by what `dlsym` finds in it. -/
abbrev Library := String → Option Addr

/-- The part of `edfi_context_conf_t` that only the commands handle; `fault_prob` by its bits. -/
structure Names where
  faultProb : UInt32
  dflibPath : String

/-- The context that a command brings. -/
structure NewContext where
  conf : Conf
  names : Names

/-- The variables of the library and of the control server. -/
structure Runtime where
  state : State
  names : Names
  callbacks : Callbacks
  dflib : Option Library

/-- What the process takes from outside: the libraries that `dlopen` loads, by their path, and
    what callbacks do. -/
structure Env where
  dlopen : String → Option Library
  callOnstart : Addr → State → State
  callOnstop : Addr → State → State

/-! ### The code -/

section Code

variable (env : Env)

/-- `edfi_load_dflib`. -/
def edfiLoadDflib (path : String) (rt : Runtime) : Runtime × ℤ :=
  match env.dlopen path with
  | none => (rt, -1)
  | some dflib =>
    match dflib "edfi_onstart" with
    | none => (rt, -2)
    | some onstart =>
      match dflib "edfi_onfdp" with
      | none => (rt, -3)
      | some onfdp =>
        match dflib "edfi_onfault" with
        | none => (rt, -4)
        | some onfault =>
          match dflib "edfi_onstop" with
          | none => (rt, -5)
          | some onstop =>
            ({ rt with callbacks := ⟨onstart, onfdp, onfault, onstop⟩, dflib := some dflib }, 0)

/-- `edfi_srand`. -/
def edfiSrand (seed : UInt32) (rt : Runtime) : Runtime :=
  { rt with state := Onfdp.edfiSrand seed rt.state }

/-- `edfi_update_context`. -/
def edfiUpdateContext (new : Option NewContext) (rt : Runtime) : Runtime × ℤ :=
  match new with
  | none => (rt, 0)
  | some new =>
    let rt := edfiSrand new.conf.randSeed rt
    let loaded :=
      if 0 < new.names.dflibPath.length then edfiLoadDflib env new.names.dflibPath rt else (rt, 0)
    if loaded.2 < 0 then loaded
    else ({ loaded.1 with
      state := Onfdp.copyConf new.conf loaded.1.state, names := new.names }, 0)

/-- `edfi_start`. -/
def edfiStart (new : Option NewContext) (rt : Runtime) : Runtime × ℤ :=
  let updated := edfiUpdateContext env new rt
  if updated.2 < 0 then updated
  else
    let rt := { updated.1 with state.flag := updated.1.state.flag.startStop true }
    ({ rt with state := env.callOnstart rt.callbacks.onstart rt.state }, 0)

/-- `edfi_stop`. -/
def edfiStop (rt : Runtime) : Runtime :=
  let rt := { rt with state.flag := rt.state.flag.startStop false }
  { rt with state := env.callOnstop rt.callbacks.onstop rt.state }

/-- `edfi_stat`; the statistics are only printed. -/
def edfiStat (new : Option NewContext) (rt : Runtime) : Runtime × ℤ := edfiUpdateContext env new rt

/-- The commands of `edfi_ctl_cmd`. -/
inductive Cmd
  | stop
  | start (context : Option NewContext)
  | test
  | stat (context : Option NewContext)
  | update (context : Option NewContext)
  | other

/-- `edfi_process_cmd`; the result of `edfi_stat` is dropped. -/
def edfiProcessCmd (rt : Runtime) : Cmd → Runtime × ℤ
  | .stop => (edfiStop env rt, 0)
  | .start context => edfiStart env context rt
  | .test => (rt, 0)
  | .stat context => ((edfiStat env context rt).1, 0)
  | .update context => edfiUpdateContext env context rt
  | .other => (rt, -1)

end Code

/-! ### Rejected commands -/

/-- The context that a command brings, if it brings one. -/
def Cmd.context : Cmd → Option NewContext
  | .start context | .stat context | .update context => context
  | _ => none

/-- The symbols of a fault library. -/
def symbols : List String := ["edfi_onstart", "edfi_onfdp", "edfi_onfault", "edfi_onstop"]

/-- The library of a context cannot be loaded, or lacks one of the four symbols. -/
def LibraryFails (env : Env) (new : NewContext) : Prop :=
  0 < new.names.dflibPath.length ∧
    ∀ dflib ∈ env.dlopen new.names.dflibPath, ∃ name ∈ symbols, dflib name = none

/-- Loading fails without any change. -/
theorem edfiLoadDflib_fails {env : Env} {new : NewContext} (h : LibraryFails env new)
    (rt : Runtime) :
    (edfiLoadDflib env new.names.dflibPath rt).1 = rt ∧
      (edfiLoadDflib env new.names.dflibPath rt).2 < 0 := by
  cases hopen : env.dlopen new.names.dflibPath with
  | none => simp [edfiLoadDflib, hopen]
  | some dflib =>
    obtain ⟨name, hname, hnone⟩ := h.2 dflib hopen
    -- the first symbol that is missing ends the search
    cases honstart : dflib "edfi_onstart" with
    | none => simp [edfiLoadDflib, hopen, honstart]
    | some onstart =>
      cases honfdp : dflib "edfi_onfdp" with
      | none => simp [edfiLoadDflib, hopen, honstart, honfdp]
      | some onfdp =>
        cases honfault : dflib "edfi_onfault" with
        | none => simp [edfiLoadDflib, hopen, honstart, honfdp, honfault]
        | some onfault =>
          cases honstop : dflib "edfi_onstop" with
          | none => simp [edfiLoadDflib, hopen, honstart, honfdp, honfault, honstop]
          | some onstop =>
            simp only [symbols, List.mem_cons, List.not_mem_nil, or_false] at hname
            rcases hname with rfl | rfl | rfl | rfl
            · exact absurd (honstart.symm.trans hnone) nofun
            · exact absurd (honfdp.symm.trans hnone) nofun
            · exact absurd (honfault.symm.trans hnone) nofun
            · exact absurd (honstop.symm.trans hnone) nofun

/-- A rejected update has seeded the random generator. -/
theorem edfiUpdateContext_fails {env : Env} {new : NewContext} (h : LibraryFails env new)
    (rt : Runtime) :
    (edfiUpdateContext env (some new) rt).1 = edfiSrand new.conf.randSeed rt ∧
      (edfiUpdateContext env (some new) rt).2 < 0 := by
  obtain ⟨hsame, hneg⟩ := edfiLoadDflib_fails h (edfiSrand new.conf.randSeed rt)
  simp only [edfiUpdateContext, h.1, if_true, hneg]
  exact ⟨hsame, trivial⟩

/-- **A rejected command** seeds the random generator and changes nothing else. -/
theorem rejected_cmd_eq {env : Env} {cmd : Cmd} {new : NewContext} (hcmd : cmd.context = some new)
    (h : LibraryFails env new) (rt : Runtime) :
    (edfiProcessCmd env rt cmd).1 = edfiSrand new.conf.randSeed rt := by
  obtain ⟨hsame, hneg⟩ := edfiUpdateContext_fails h rt
  cases cmd with
  | start context =>
    obtain rfl : context = some new := hcmd
    rw [edfiProcessCmd, edfiStart, if_pos hneg, hsame]
  | stat context =>
    obtain rfl : context = some new := hcmd
    exact hsame
  | update context =>
    obtain rfl : context = some new := hcmd
    exact hsame
  | _ => exact absurd hcmd nofun

/-- **A rejected command has no effect** exactly if the random generator is already in the state
    that the seed of the rejected context gives. -/
theorem rejected_cmd_iff {env : Env} {cmd : Cmd} {new : NewContext} (hcmd : cmd.context = some new)
    (h : LibraryFails env new) (rt : Runtime) :
    (edfiProcessCmd env rt cmd).1 = rt ↔ rt.state.randNext = new.conf.randSeed.toUInt64 := by
  rw [rejected_cmd_eq hcmd h]
  constructor
  · intro heq
    exact (congrArg (fun rt => rt.state.randNext) heq).symm
  · intro hseed
    rw [edfiSrand, Onfdp.edfiSrand, ← hseed]

/-- A process without libraries. -/
def noLibraries : Env := ⟨fun _ => none, fun _ s => s, fun _ s => s⟩

/-- A context that names a library and has the seed 1. -/
def unknownLibrary : NewContext := ⟨⟨0, 0, 0, 0, 0, 0, 1⟩, 0, "libdf.so"⟩

/-- A process whose random generator is in the state `randNext`. -/
def runtimeWith (randNext : UInt64) : Runtime where
  state := ⟨⟨0, 0, 0, 0, fun _ => 0, fun _ => 0, ⟨0, 0, 0, 0, 0, 0, 123⟩⟩, ⟨1, 0⟩, 0, 0, randNext⟩
  names := ⟨0, ""⟩
  callbacks := ⟨1, 2, 3, 4⟩
  dflib := none

theorem unknownLibrary_fails : LibraryFails noLibraries unknownLibrary :=
  ⟨by decide, fun _ h => absurd h nofun⟩

theorem rejected_cmd_iff_seeded :
    (edfiProcessCmd noLibraries (runtimeWith 1) (.start (some unknownLibrary))).1 =
      runtimeWith 1 :=
  (rejected_cmd_iff rfl unknownLibrary_fails _).mpr (by decide)

/-- **A rejected update changes the random numbers.** -/
theorem rejected_update_seeds :
    (edfiProcessCmd noLibraries (runtimeWith 7) (.update (some unknownLibrary))).1 ≠
      runtimeWith 7 := by
  intro h
  exact absurd (congrArg (fun rt => rt.state.randNext) h) (by decide)

end Firestarter.Edfi.Commands
