import Mathlib.Data.List.Infix

namespace Firestarter.HybRcvry

/-!
# Modules, as the recovery passes see them (`HybRcvryPass.h`, `RcvryHelper.h`)

What `HybRcvryPass` reads of a module before it looks into a function: the functions' names and
kinds, which of them its options make it visit, and what `init` asserts to be there.  A function's
body is a parameter; each part of the pass has its own view of it.

* `Options.visits` — the functions that `runOnModule` transforms;
* `Options.inits`, `Options.accepts` — no assertion fails in front of the transformations.

The options for profiling and for fault injection are off.
-/

/-! ### Functions -/

/-- A called function, as far as the passes look at it: `isDeclaration` also for one without
    blocks. -/
structure Callee where
  name : String
  isIntrinsic : Bool
  isDeclaration : Bool
  deriving DecidableEq, Repr

/-- `PassUtil::isLibCallInst`; the callee of an indirect call is `none`. -/
def isLibCallInst : Option Callee → Bool
  | none => false
  | some F => !F.isIntrinsic && F.isDeclaration

/-- What the exclusion rules read of a function. -/
structure Header where
  name : String
  sect : String
  isIntrinsic : Bool
  isDeclaration : Bool
  isVarArg : Bool
  deriving DecidableEq, Repr

structure Function (β : Type) where
  header : Header
  body : β
  deriving DecidableEq, Repr

structure Module (β : Type) where
  functions : List (Function β)
  globals : List String

def Module.headers {β : Type} (M : Module β) : List Header := M.functions.map Function.header

/-! ### Options -/

structure Options where
  clonePrefix : String
  skipSections : List String
  excludeVariadicFuncs : Bool
  skipFuncs : List String
  endOfWindowHook : String
  bbTracing : Bool

variable (opts : Options)

/-- `F->getName().find(clonePrefixStr) != npos` -/
def Options.isClone (H : Header) : Bool :=
  H.name.toList.tails.any opts.clonePrefix.toList.isPrefixOf

/-- `isInSkipSection` -/
def Options.isInSkipSection (H : Header) : Bool := opts.skipSections.any fun sect => H.sect = sect

/-- The tests in front of the transformations.  The loop over `skipFuncsOpt` only continues
    itself. -/
def Options.visits (H : Header) : Bool :=
  if H.isIntrinsic || H.isDeclaration then false
  else if opts.isClone H then false
  else if opts.isInSkipSection H then false
  else if H.isVarArg && opts.excludeVariadicFuncs then false
  else true

/-! ### What has to be there -/

/-- The global variables that `init` and `runOnModule` ask for. -/
def neededGlobals : List String :=
  ["rcvry_return_value", "rcvry_return_addr", "rcvry_libcall_gates", "rcvry_current_site_id",
   "rcvry_current_tx_type", "rcvry_info", "ltckpt_registers", "rcvry_libcall_max_site_id"]

/-- The functions that `init` asks for, in part through the constructor of `RcvryHelper`. -/
def Options.neededFunctions : List String :=
  ["ltckpt_asm_save_registers_type", "ltckpt_top_of_the_loop_undolog",
   "ltckpt_memcpy_hook_undolog"] ++
    (if opts.bbTracing then ["rcvry_prof_bbtrace_flush"] else []) ++
    (if opts.endOfWindowHook ≠ "" then [opts.endOfWindowHook] else [])

/-- No assertion of `init` fails. -/
def Options.inits (headers : List Header) (globals : List String) : Bool :=
  neededGlobals.all (· ∈ globals) && opts.neededFunctions.all (· ∈ headers.map Header.name)

/-- The module has the hook for delayed frees. -/
def hasDelayedFree (headers : List Header) : Bool :=
  headers.any fun H => H.name = "rcvry_ra_delayed_free"

/-- Nor does the assertion of `replaceWithDelayedFrees`, at the first function that is visited. -/
def Options.accepts (headers : List Header) (globals : List String) : Bool :=
  opts.inits headers globals &&
    (opts.endOfWindowHook = "" || hasDelayedFree headers || !headers.any opts.visits)

end Firestarter.HybRcvry
