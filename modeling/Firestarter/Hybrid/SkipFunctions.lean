import Firestarter.Hybrid.PassModule

namespace Firestarter.HybRcvry

/-!
# The functions that `HybRcvryPass` leaves alone (`HybRcvryPass.cpp`, `HybRcvryPass.h`)

`runOnModule` passes over intrinsics and declarations, clones, functions in skipped sections and
variadic functions, and transforms the others one by one.  The loop over `hybrcvry-skip-functions`
continues itself and not the loop over the functions, so that option has no effect.

* `replaceWithDelayedFrees`, `insertWindowEntryGates`, `unifyFunctionExitNodes`, `runOnModule`: the
  code;
* `runOnModule_frame`: functions that the loop passes over stay as they are;
* `excluded_untouched_iff`: when the functions that the options exclude stay as they are.

What the gates do to a function with the marks of its two inlined clones is a parameter here.
-/

/-! ### Functions -/

inductive Op
  | call (callee : Option Callee) (args : List ℕ)
  | icmp
  | phi (incoming : List (Option ℕ))
  | alloca (constantSize : Bool)
  | other (n : ℕ)
  deriving DecidableEq, Repr

/-- An instruction; `marked` if it has an id in the namespaces of the two clones. -/
structure Inst where
  op : Op
  marked : Bool
  deriving DecidableEq, Repr

/-- The end of a block.  Blocks are named by their positions; of a conditional branch it matters
    whether its condition is an instruction. -/
inductive Term
  | ret (value : Option ℕ)
  | unreachable
  | condBr (condIsInst : Bool) (ifTrue ifFalse : ℕ)
  | br (dest : ℕ)
  | other (n : ℕ)
  deriving DecidableEq, Repr

structure Block where
  insts : List Inst
  term : Term
  deriving DecidableEq, Repr

/-- **A module**; functions that are only declared have no blocks. -/
structure BlockModule extends Module (List Block) where
  declared : ∀ F ∈ functions, F.header.isDeclaration = true ↔ F.body = []

/-! ### The transformations of a function -/

/-- The hook for delayed frees. -/
def delayedFree : Callee := ⟨"rcvry_ra_delayed_free", false, false⟩

/-- A call of `free` is replaced; `none` when it has no argument. -/
def replaceFree (I : Inst) : Option Inst :=
  match I.op with
  | .call (some F) args =>
    if isLibCallInst (some F) && F.name = "free" then
      args.head?.map fun arg => ⟨.call (some delayedFree) [arg], false⟩
    else some I
  | _ => some I

/-- `replaceWithDelayedFrees`; `hook` says whether the module has the hook. -/
def replaceWithDelayedFrees (hook : Bool) (body : List Block) : Option (List Block) :=
  if hook then body.mapM fun B => (B.insts.mapM replaceFree).map fun insts => { B with insts }
  else none

/-- What the pass does to functions with marks.  `newAllocas` are the functions with an entry in
    `clone1NewAllocasMap`. -/
structure MarkedPasses (σ : Type) where
  init : σ
  newAllocas : σ → List String
  init_newAllocas : newAllocas init = []
  gates : σ → Header → List Block → Option (σ × List Block)
  fixup : σ → Header → List Block → Option (List Block)

section Transform

variable {σ : Type}

/-- `insertWindowEntryGates`.  `getCloneArtifacts` asserts that the entry block has a comparison;
    without marks it finds nothing, and what is left are the assertions of
    `useFlexAllocasByRef`. -/
def insertWindowEntryGates (T : MarkedPasses σ) (s : σ) (H : Header) (body : List Block) :
    Option (σ × List Block) :=
  match body with
  | [] => none
  | entry :: _ =>
    if entry.insts.all fun I => I.op ≠ .icmp then none
    else if body.any fun B => B.insts.any Inst.marked then T.gates s H body
    else
      match entry.term with
      | .condBr true _ ifFalse =>
        match body[ifFalse]? with
        | none => none
        | some FB =>
          if ifFalse ≠ 0 ∧ FB.insts.any fun I => I.op = .alloca false then none else some (s, body)
      | _ => none

/-- `fixupNewAllocaUsages` -/
def fixupNewAllocaUsages (T : MarkedPasses σ) (s : σ) (H : Header) (body : List Block) :
    Option (List Block) :=
  if H.name ∈ T.newAllocas s then T.fixup s H body else some body

end Transform

/-- The blocks that end as `p` says lead to a new block. -/
def leadTo (p : Term → Bool) (unified : Block) (body : List Block) : List Block :=
  if 2 ≤ body.countP fun B => p B.term then
    body.map (fun B => if p B.term then { B with term := .br body.length } else B) ++ [unified]
  else body

def Term.isRet : Term → Bool
  | .ret _ => true
  | _ => false

def Term.retValue : Term → Option ℕ
  | .ret value => value
  | _ => none

/-- LLVM's `UnifyFunctionExitNodes`: one block is left that ends with `unreachable`, and one that
    returns. -/
def unifyFunctionExitNodes (body : List Block) : List Block :=
  let body := leadTo (· = .unreachable) ⟨[], .unreachable⟩ body
  let values := (body.filter fun B => B.term.isRet).map fun B => B.term.retValue
  let result : Block :=
    if values.all Option.isNone then ⟨[], .ret none⟩
    else ⟨[⟨.phi values, false⟩], .ret (some 0)⟩
  leadTo Term.isRet result body

section Pass

variable {σ : Type}

/-- The call of `replaceWithDelayedFrees`. -/
def delayFrees (opts : Options) (hook : Bool) (body : List Block) : Option (List Block) :=
  if opts.endOfWindowHook ≠ "" then replaceWithDelayedFrees hook body else some body

/-- The transformations of one function. -/
def transform (T : MarkedPasses σ) (opts : Options) (hook : Bool) (s : σ) (H : Header)
    (body : List Block) : Option (σ × List Block) := do
  let body ← delayFrees opts hook body
  let (s, body) ← insertWindowEntryGates T s H body
  let body ← fixupNewAllocaUsages T s H body
  pure (s, unifyFunctionExitNodes body)

/-- The loop over the functions. -/
def visitAll (T : MarkedPasses σ) (opts : Options) (hook : Bool) :
    σ → List (Function (List Block)) → Option (List (Function (List Block)))
  | _, [] => some []
  | s, F :: Fs =>
    if opts.visits F.header then do
      let (s, body) ← transform T opts hook s F.header F.body
      let Fs ← visitAll T opts hook s Fs
      pure ({ F with body } :: Fs)
    else (visitAll T opts hook s Fs).map (F :: ·)

/-- `getOrInsertFunction` for the hook that saves the registers. -/
def insertSaveRegs (Fs : List (Function (List Block))) : List (Function (List Block)) :=
  if Fs.any fun F => F.header.name = "ltckpt_asm_save_registers" then Fs
  else Fs ++ [⟨⟨"ltckpt_asm_save_registers", "", false, true, false⟩, []⟩]

/-- `runOnModule`: the functions behind it; `none` when an assertion fails. -/
def runOnModule (T : MarkedPasses σ) (passRunCount : ℕ) (opts : Options) (M : BlockModule) :
    Option (List (Function (List Block))) :=
  if passRunCount ≠ 0 then some M.functions
  else if opts.inits M.headers M.globals then
    visitAll T opts (hasDelayedFree M.headers) T.init (insertSaveRegs M.functions)
  else none

/-! ### What the loop passes over -/

variable {T : MarkedPasses σ} {opts : Options} {Fs : List (Function (List Block))}
  {i passRunCount : ℕ} {F : Function (List Block)} {M : BlockModule} {H : Header}

/-- **The frame of the loop**: a function that it passes over stays as it is. -/
theorem visitAll_getElem? {hook : Bool} {s : σ} {Fs' : List (Function (List Block))}
    (h : visitAll T opts hook s Fs = some Fs') {i : ℕ} (hi : Fs[i]? = some F)
    (hskip : opts.visits F.header = false) : Fs'[i]? = some F := by
  induction Fs generalizing s Fs' i with
  | nil => cases hi
  | cons G Gs ih =>
    unfold visitAll at h
    by_cases hvisit : opts.visits G.header = true
    · rw [if_pos hvisit] at h
      obtain ⟨⟨s', body⟩, -, h⟩ := Option.bind_eq_some_iff.mp h
      obtain ⟨Gs', hGs', h⟩ := Option.bind_eq_some_iff.mp h
      obtain rfl := Option.some.inj h
      cases i with
      | zero =>
        obtain rfl := Option.some.inj hi
        exact absurd (hvisit.symm.trans hskip) (by decide)
      | succ i => exact ih hGs' hi
    · rw [if_neg hvisit] at h
      obtain ⟨Gs', hGs', rfl⟩ := Option.map_eq_some_iff.mp h
      cases i with
      | zero => exact hi
      | succ i => exact ih hGs' hi

/-- The function that `init` may add stands behind the others. -/
theorem insertSaveRegs_getElem? (hi : Fs[i]? = some F) : (insertSaveRegs Fs)[i]? = some F := by
  unfold insertSaveRegs
  split
  · exact hi
  · rw [List.getElem?_append_left (List.getElem?_eq_some_iff.mp hi).1, hi]

/-- A run: the module is left alone, or the loop is run. -/
theorem runOnModule_cases (h : runOnModule T passRunCount opts M = some Fs) :
    Fs = M.functions ∨ (passRunCount = 0 ∧ opts.inits M.headers M.globals = true ∧
      visitAll T opts (hasDelayedFree M.headers) T.init (insertSaveRegs M.functions) =
        some Fs) := by
  unfold runOnModule at h
  split at h
  · exact .inl (Option.some.inj h).symm
  · next hcount =>
    split at h
    · next hinits => exact .inr ⟨not_not.mp hcount, hinits, h⟩
    · cases h

theorem runOnModule_frame (h : runOnModule T passRunCount opts M = some Fs)
    (hi : M.functions[i]? = some F) (hskip : opts.visits F.header = false) : Fs[i]? = some F := by
  rcases runOnModule_cases h with rfl | ⟨-, -, h⟩
  · exact hi
  · exact visitAll_getElem? h (insertSaveRegs_getElem? hi) hskip

/-! ### What the options exclude -/

/-- **The functions that are excluded**: those that are not defined, clones, functions in skipped
    sections, variadic ones with the option for them, and those that are named. -/
def Options.Excludes (opts : Options) (H : Header) : Prop :=
  H.isIntrinsic = true ∨ H.isDeclaration = true ∨ opts.isClone H = true ∨
    opts.isInSkipSection H = true ∨ (H.isVarArg = true ∧ opts.excludeVariadicFuncs = true) ∨
    H.name ∈ opts.skipFuncs

/-- Excluded functions have the bodies they had. -/
def Untouched (opts : Options) (Fs Fs' : List (Function (List Block))) : Prop :=
  ∀ (i : ℕ) (F : Function (List Block)), Fs[i]? = some F → opts.Excludes F.header →
    ∃ F', Fs'[i]? = some F' ∧ F'.body = F.body

/-- The rules that have an effect. -/
def Options.PassesOver (opts : Options) (H : Header) : Prop :=
  H.isIntrinsic = true ∨ H.isDeclaration = true ∨ opts.isClone H = true ∨
    opts.isInSkipSection H = true ∨ (H.isVarArg = true ∧ opts.excludeVariadicFuncs = true)

theorem visits_eq_false_iff : opts.visits H = false ↔ opts.PassesOver H := by
  unfold Options.visits Options.PassesOver
  cases H.isIntrinsic <;> cases H.isDeclaration <;> cases opts.isClone H <;>
    cases opts.isInSkipSection H <;> simp

/-- Excluded functions are passed over or named. -/
theorem excludes_iff : opts.Excludes H ↔ opts.PassesOver H ∨ H.name ∈ opts.skipFuncs := by
  simp only [Options.Excludes, Options.PassesOver, or_assoc]

/-! ### A body that the pass changes -/

/-- A function that has not been cloned: it compares something, and returns in two places. -/
def twoReturns : List Block :=
  [⟨[⟨.icmp, false⟩], .condBr true 1 2⟩, ⟨[], .ret none⟩, ⟨[], .ret none⟩]

/-- It returns in one place then. -/
def oneReturn : List Block :=
  [⟨[⟨.icmp, false⟩], .condBr true 1 2⟩, ⟨[], .br 3⟩, ⟨[], .br 3⟩, ⟨[], .ret none⟩]

theorem transform_twoReturns (T : MarkedPasses σ) {hook : Bool}
    (hhook : opts.endOfWindowHook = "" ∨ hook = true) (H : Header) :
    transform T opts hook T.init H twoReturns = some (T.init, oneReturn) := by
  have hfrees : delayFrees opts hook twoReturns = some twoReturns := by
    unfold delayFrees
    split
    · next hne =>
      rw [hhook.resolve_left hne]
      rfl
    · rfl
  have hgates : insertWindowEntryGates T T.init H twoReturns = some (T.init, twoReturns) := rfl
  have hfixup : fixupNewAllocaUsages T T.init H twoReturns = some twoReturns := by
    rw [fixupNewAllocaUsages, T.init_newAllocas, if_neg List.not_mem_nil]
  simp only [transform, hfrees, hgates, hfixup, Option.bind_eq_bind, Option.bind_some]
  rfl

/-- The loop over functions with that body. -/
theorem visitAll_twoReturns (T : MarkedPasses σ) {hook : Bool}
    (hhook : opts.endOfWindowHook = "" ∨ hook = true)
    (hbody : ∀ F ∈ Fs, opts.visits F.header = true → F.body = twoReturns) :
    visitAll T opts hook T.init Fs =
      some (Fs.map fun F => if opts.visits F.header then ⟨F.header, oneReturn⟩ else F) := by
  induction Fs with
  | nil => rfl
  | cons F Fs ih =>
    have ih := ih fun G hG => hbody G (List.mem_cons_of_mem _ hG)
    unfold visitAll
    by_cases hvisit : opts.visits F.header = true
    · rw [if_pos hvisit, hbody F List.mem_cons_self hvisit, transform_twoReturns T hhook]
      simp only [Option.bind_eq_bind, Option.bind_some, ih, List.map_cons, hvisit, if_true]
      rfl
    · rw [if_neg hvisit, ih, Option.map_some, List.map_cons, if_neg hvisit]

/-- Without the hook for delayed frees the pass stops at the first function that it visits. -/
theorem visitAll_eq_none (T : MarkedPasses σ) (hhook : opts.endOfWindowHook ≠ "") {s : σ}
    (hvisit : ∃ F ∈ Fs, opts.visits F.header = true) : visitAll T opts false s Fs = none := by
  induction Fs with
  | nil =>
    obtain ⟨F, hF, -⟩ := hvisit
    cases hF
  | cons F Fs ih =>
    unfold visitAll
    by_cases hF : opts.visits F.header = true
    · have hstop : transform T opts false s F.header F.body = none := by
        simp [transform, delayFrees, hhook, replaceWithDelayedFrees]
      rw [if_pos hF, hstop]
      rfl
    · obtain ⟨G, hG, hGv⟩ := hvisit
      rcases List.mem_cons.mp hG with rfl | hG
      · exact absurd hGv hF
      · rw [if_neg hF, ih ⟨G, hG, hGv⟩]
        rfl

/-! ### When the excluded functions are untouched -/

/-- The module with given functions, all of them returning in two places. -/
def twoReturnsModule (headers : List Header) (globals : List String) : BlockModule where
  functions := headers.map fun H => ⟨H, if H.isDeclaration then [] else twoReturns⟩
  globals := globals
  declared := by
    intro F hF
    obtain ⟨H, -, rfl⟩ := List.mem_map.mp hF
    cases H.isDeclaration <;> simp [twoReturns]

theorem headers_twoReturnsModule (headers : List Header) (globals : List String) :
    (twoReturnsModule headers globals).headers = headers := by
  unfold Module.headers twoReturnsModule
  rw [List.map_map]
  exact List.map_id _

theorem getElem?_twoReturnsModule {headers : List Header} (hi : headers[i]? = some H)
    (globals : List String) :
    (twoReturnsModule headers globals).functions[i]? =
      some ⟨H, if H.isDeclaration then [] else twoReturns⟩ := by
  show (headers.map _)[i]? = _
  rw [List.getElem?_map, hi]
  rfl

/-- The function that `init` may add is only declared. -/
theorem mem_insertSaveRegs (hF : F ∈ insertSaveRegs Fs) :
    F ∈ Fs ∨ F.header.isDeclaration = true := by
  unfold insertSaveRegs at hF
  split at hF
  · exact .inl hF
  · rcases List.mem_append.mp hF with hF | hF
    · exact .inl hF
    · rw [List.mem_singleton.mp hF]
      exact .inr rfl

theorem visits_eq_false_of_declared (h : H.isDeclaration = true) : opts.visits H = false :=
  visits_eq_false_iff.mpr (.inr (.inl h))

/-- **A run** on that module changes every function that it visits. -/
theorem runOnModule_twoReturns (T : MarkedPasses σ) {headers : List Header} {globals : List String}
    (hinits : opts.inits headers globals = true)
    (hhook : opts.endOfWindowHook = "" ∨ hasDelayedFree headers = true) (hi : headers[i]? = some H)
    (hvisit : opts.visits H = true) :
    ∃ Fs, runOnModule T 0 opts (twoReturnsModule headers globals) = some Fs ∧
      Fs[i]? = some ⟨H, oneReturn⟩ := by
  have hget := getElem?_twoReturnsModule hi globals
  have hbody : ∀ F ∈ insertSaveRegs (twoReturnsModule headers globals).functions,
      opts.visits F.header = true → F.body = twoReturns := by
    intro F hF hv
    rcases mem_insertSaveRegs hF with hF | hF
    · obtain ⟨G, -, rfl⟩ := List.mem_map.mp hF
      have hdef : ¬ G.isDeclaration = true := fun hd =>
        absurd (hv.symm.trans (visits_eq_false_of_declared hd)) (by decide)
      exact if_neg hdef
    · exact absurd (hv.symm.trans (visits_eq_false_of_declared hF)) (by decide)
  have hrun : runOnModule T 0 opts (twoReturnsModule headers globals) =
      visitAll T opts (hasDelayedFree headers) T.init
        (insertSaveRegs (twoReturnsModule headers globals).functions) := by
    unfold runOnModule
    rw [headers_twoReturnsModule]
    exact if_pos hinits
  refine ⟨_, hrun.trans (visitAll_twoReturns T hhook hbody), ?_⟩
  rw [List.getElem?_map, insertSaveRegs_getElem? hget, Option.map_some, if_pos hvisit]

/-- A named function that is visited does not return in two places any more. -/
theorem exists_named_touched (T : MarkedPasses σ) {headers : List Header} {globals : List String}
    (hinits : opts.inits headers globals = true)
    (hhook : opts.endOfWindowHook = "" ∨ hasDelayedFree headers = true) (hH : H ∈ headers)
    (hvisit : opts.visits H = true) (hnamed : H.name ∈ opts.skipFuncs) :
    ∃ Fs, runOnModule T 0 opts (twoReturnsModule headers globals) = some Fs ∧
      ¬ Untouched opts (twoReturnsModule headers globals).functions Fs := by
  obtain ⟨i, hi⟩ := List.mem_iff_getElem?.mp hH
  obtain ⟨Fs, hrun, hFs⟩ := runOnModule_twoReturns T hinits hhook hi hvisit
  refine ⟨Fs, hrun, fun huntouched => ?_⟩
  obtain ⟨F', hF', hbody⟩ := huntouched i _ (getElem?_twoReturnsModule hi globals)
    (excludes_iff.mpr (.inr hnamed))
  obtain rfl := Option.some.inj (hFs.symm.trans hF')
  change oneReturn = (if H.isDeclaration then [] else twoReturns) at hbody
  split at hbody
  · exact absurd hbody (by decide)
  · exact absurd hbody (by decide)

/-- A run that changes a module with a function to visit is the first one, and has what it needs. -/
theorem runOnModule_visited (hrun : runOnModule T passRunCount opts M = some Fs)
    (hi : M.functions[i]? = some F) (hvisit : opts.visits F.header = true) :
    Fs = M.functions ∨ (passRunCount = 0 ∧ opts.inits M.headers M.globals = true ∧
      ¬ (opts.endOfWindowHook ≠ "" ∧ hasDelayedFree M.headers = false)) := by
  rcases runOnModule_cases hrun with hsame | ⟨hcount, hinits, hloop⟩
  · exact .inl hsame
  · refine .inr ⟨hcount, hinits, ?_⟩
    rintro ⟨hhook, hfree⟩
    have hmem := List.mem_of_getElem? (insertSaveRegs_getElem? hi)
    rw [hfree, visitAll_eq_none T hhook ⟨F, hmem, hvisit⟩] at hloop
    cases hloop

/-- **Excluded functions are untouched**, whatever their bodies are, exactly if the pass does not
    run (a second run, a missing variable, function or hook) or every function that is named in
    `hybrcvry-skip-functions` is excluded by another rule as well. -/
theorem excluded_untouched_iff (T : MarkedPasses σ) (passRunCount : ℕ) (opts : Options)
    (headers : List Header) (globals : List String) :
    (∀ M : BlockModule, M.headers = headers → M.globals = globals →
      ∀ Fs, runOnModule T passRunCount opts M = some Fs → Untouched opts M.functions Fs) ↔
      passRunCount ≠ 0 ∨ opts.inits headers globals = false ∨
        (opts.endOfWindowHook ≠ "" ∧ hasDelayedFree headers = false) ∨
        ∀ H ∈ headers, H.name ∈ opts.skipFuncs → opts.PassesOver H := by
  constructor
  · intro h
    by_cases hcount : passRunCount = 0
    · subst hcount
      refine .inr ?_
      cases hinits : opts.inits headers globals with
      | false => exact .inl rfl
      | true =>
        refine .inr (or_iff_not_imp_left.mpr fun hhook H hH hnamed => ?_)
        rw [not_and_or, not_not, Bool.not_eq_false] at hhook
        rw [← visits_eq_false_iff, Bool.eq_false_iff]
        intro hvisit
        obtain ⟨Fs, hrun, htouched⟩ := exists_named_touched T hinits hhook hH hvisit hnamed
        exact htouched (h _ (headers_twoReturnsModule headers globals) rfl Fs hrun)
    · exact .inl hcount
  · intro hcond M hheaders hglobals Fs hrun i F hi hex
    by_cases hvisit : opts.visits F.header = true
    · -- a visited function is excluded by its name only
      have hnot : ¬ opts.PassesOver F.header := by
        rw [← visits_eq_false_iff, hvisit]
        decide
      have hnamed := (excludes_iff.mp hex).resolve_left hnot
      have hmem : F.header ∈ headers := by
        rw [← hheaders]
        exact List.mem_map_of_mem (List.mem_of_getElem? hi)
      rcases runOnModule_visited hrun hi hvisit with rfl | ⟨hcount, hinits, hhook⟩
      · exact ⟨F, hi, rfl⟩
      · rw [hheaders] at hinits hhook
        rw [hglobals] at hinits
        rcases hcond with hcount' | hinits' | hhook' | hothers
        · exact absurd hcount hcount'
        · exact absurd (hinits.symm.trans hinits') (by decide)
        · exact absurd hhook' hhook
        · exact absurd (hothers F.header hmem hnamed) hnot
    · rw [Bool.not_eq_true] at hvisit
      exact ⟨F, runOnModule_frame hrun hi hvisit, rfl⟩

end Pass

/-! ### A named function -/

/-- The marks play no part. -/
def noMarks : MarkedPasses Unit := ⟨(), fun _ => [], rfl, fun _ _ _ => none, fun _ _ _ => none⟩

/-- `-hybrcvry-skip-functions=f`, with a hook for the end of the window. -/
def skipF : Options := ⟨"bbclone.", [], true, ["f"], "eow", false⟩

def hookNames : List String :=
  ["ltckpt_asm_save_registers_type", "ltckpt_top_of_the_loop_undolog",
   "ltckpt_memcpy_hook_undolog", "eow", "rcvry_ra_delayed_free"]

/-- `f` frees its argument. -/
def freesIts : Function (List Block) where
  header := ⟨"f", "", false, false, false⟩
  body := [⟨[⟨.icmp, false⟩, ⟨.call (some ⟨"free", false, true⟩) [0], false⟩], .condBr true 1 2⟩,
    ⟨[], .ret none⟩, ⟨[], .unreachable⟩]

def moduleF : BlockModule where
  functions := freesIts :: hookNames.map fun name => ⟨⟨name, "", false, true, false⟩, []⟩
  globals := neededGlobals
  declared := by decide

/-- Its body behind the pass. -/
def delaysIts : List Block :=
  [⟨[⟨.icmp, false⟩, ⟨.call (some delayedFree) [0], false⟩], .condBr true 1 2⟩,
   ⟨[], .ret none⟩, ⟨[], .unreachable⟩]

/-- The function is named in the option, and frees its argument with a delay behind the pass. -/
theorem named_function_touched :
    freesIts.header.name ∈ skipF.skipFuncs ∧
      runOnModule noMarks 0 skipF moduleF =
        some (insertSaveRegs (⟨freesIts.header, delaysIts⟩ :: moduleF.functions.tail)) ∧
      ¬ Untouched skipF moduleF.functions
        (insertSaveRegs (⟨freesIts.header, delaysIts⟩ :: moduleF.functions.tail)) := by
  refine ⟨by decide, by decide, fun h => ?_⟩
  obtain ⟨F', hF', hbody⟩ := h 0 freesIts rfl (.inr (.inr (.inr (.inr (.inr (by decide))))))
  obtain rfl := Option.some.inj hF'
  exact absurd hbody (by decide)

end Firestarter.HybRcvry
