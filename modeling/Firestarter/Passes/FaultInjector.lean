import Mathlib.Data.List.Basic
import Mathlib.Data.List.Nodup
import Mathlib.Logic.Function.Basic

namespace Firestarter.Passes.FaultInjector

/-!
# One fault per block (`FaultInjector.cpp`, `Fault.cpp`)

With `-fault-one-per-block` the pass numbers the fault candidates of a basic block, the pairs of an
instruction and a fault type that applies to it, and selects one by its number.  A second loop
counts the candidates again and applies the fault when the number comes up.  With
`-inline-profiling` a counter update is inserted before the terminator between the two loops.

* `isApplicable` — the test of each fault type;
* `applicableFaults`, `insertProfiling`, `injectLoop`, `corruptBlock` — the code;
* `injectLoop_applied` — the second loop applies the candidate with the selected number;
* `Profiled.candidates_eq` — the candidates after the insertion: those of the inserted
  instructions come before those of the terminator;
* `corruptBlock_iff` — when the candidate that was selected is the one that is applied.
-/

/-! ### Instructions -/

/-- The types that the fault types distinguish. -/
inductive Ty
  | void
  | int (bits : ℕ)
  | pointer
  | other
  deriving DecidableEq, Repr

def Ty.isIntegerTy : Ty → Bool
  | .int _ => true
  | _ => false

/-- The opcodes of `BinaryOperator`. -/
inductive BinaryOps
  | add | fAdd | sub | fSub | mul | fMul | uDiv | sDiv | fDiv | uRem | sRem | fRem
  | shl | lShr | aShr | and | or | xor
  deriving DecidableEq, Repr

/-- `Instruction::isCommutative`. -/
def BinaryOps.isCommutative : BinaryOps → Bool
  | .add | .fAdd | .mul | .fMul | .and | .or | .xor => true
  | _ => false

/-- The function that a call names: an intrinsic that copies or sets memory, or another one. -/
inductive Callee
  | memcpy
  | memmove
  | memset
  | function (name : String)
  deriving DecidableEq, Repr

/-- What an instruction is.  Of a branch: whether it is conditional, and whether a successor is
    the header of the innermost loop of the block. -/
inductive Kind
  | phi
  | binary (op : BinaryOps)
  | load
  | store
  | branch (conditional toHeader : Bool)
  | call (callee : Option Callee)
  | invoke (callee : Option Callee)
  | other
  deriving DecidableEq, Repr

/-- An instruction: its name, its kind and type, and whether a `GetElementPtrInst` uses it. -/
structure Inst where
  name : List Char
  kind : Kind
  ty : Ty
  gepUse : Bool
  deriving Repr

/-- The part of the module that the loops see: the instructions by their identity, and those of
    the basic block in order. -/
structure IR where
  inst : ℕ → Inst
  block : List ℕ

/-- `StringRef::find(text) != npos`. -/
def findText (text : List Char) : List Char → Bool
  | [] => text.isEmpty
  | c :: cs => text.isPrefixOf (c :: cs) || findText text cs

/-- `val->getName().find(".reload") != StringRef::npos`. -/
def IR.isReload (ir : IR) (i : ℕ) : Bool :=
  findText ['.', 'r', 'e', 'l', 'o', 'a', 'd'] (ir.inst i).name

/-- `getFirstNonPHI`. -/
def IR.getFirstNonPHI (ir : IR) : Option ℕ := ir.block.find? fun i => (ir.inst i).kind ≠ .phi

/-! ### Fault types -/

inductive FaultType
  | swap | swapV2 | noLoad | rndLoad | noStore | flipBranch | flipBool | corruptPointer
  | corruptIndex | corruptInteger | corruptOperator | corruptOperatorV2 | stuckAtBranch
  | stuckAtLoop | bufferOverflow | memLeak | danglingPointer | nullPointer
  deriving DecidableEq, Repr

/-- `getName`. -/
def FaultType.getName : FaultType → String
  | .swap | .swapV2 => "swap"
  | .noLoad => "no-load"
  | .rndLoad => "rnd-load"
  | .noStore => "no-store"
  | .flipBranch => "flip-branch"
  | .flipBool => "flip-bool"
  | .corruptPointer => "corrupt-pointer"
  | .corruptIndex => "corrupt-index"
  | .corruptInteger => "corrupt-integer"
  | .corruptOperator => "corrupt-operator"
  | .corruptOperatorV2 => "corrupt-operator-v2"
  | .stuckAtBranch => "stuck-at-branch"
  | .stuckAtLoop => "stuck-at-loop"
  | .bufferOverflow => "buffer-overflow"
  | .memLeak => "mem-leak"
  | .danglingPointer => "dangling-pointer"
  | .nullPointer => "null-pointer"

/-- The keys of `function_wrappers_map` after `init_wrappers`. -/
def FaultType.wraps : FaultType → Callee → Bool
  | .bufferOverflow, .function name => name ∈ ["memcpy", "memmove", "memset", "strcpy", "strncpy"]
  | .bufferOverflow, _ => true
  | .memLeak, .function name => name ∈ ["free", "munmap"]
  | .danglingPointer, .function name => name = "malloc"
  | _, _ => false

/-- `WrapperFaultType::isApplicable`. -/
def wrapperIsApplicable (ft : FaultType) (inst : Inst) : Bool :=
  match inst.kind with
  | .call (some callee) | .invoke (some callee) => ft.wraps callee
  | _ => false

def Kind.isBinary : Kind → Bool
  | .binary _ => true
  | _ => false

def Kind.isConditional : Kind → Bool
  | .branch conditional _ => conditional
  | _ => false

/-- `isApplicable` of each fault type. -/
def isApplicable (ir : IR) (i : ℕ) (ft : FaultType) : Bool :=
  let inst := ir.inst i
  match ft with
  | .swap | .corruptOperator => inst.kind.isBinary
  | .swapV2 =>
    match inst.kind with
    | .binary op => !op.isCommutative
    | _ => false
  | .noLoad => inst.kind = .load && inst.ty.isIntegerTy
  | .rndLoad => inst.kind = .load && inst.ty.isIntegerTy && inst.ty = .int 32
  | .noStore => inst.kind = .store
  | .flipBranch | .stuckAtBranch => inst.kind.isConditional
  | .stuckAtLoop => inst.kind = .branch true true
  | .flipBool => inst.ty = .int 1
  | .corruptPointer => inst.ty = .pointer
  | .nullPointer => ir.getFirstNonPHI = some i
  | .corruptIndex => inst.ty = .int 32 && inst.gepUse
  | .corruptInteger => inst.ty = .int 32
  | .corruptOperatorV2 => inst.kind.isBinary && inst.ty ≠ .int 80 && inst.ty ≠ .int 144
  | .bufferOverflow | .memLeak | .danglingPointer => wrapperIsApplicable ft inst

/-! ### The loops -/

/-- The options of the pass, and the number of marked basic blocks. -/
structure Options where
  oneFaultPerBlock : Bool
  statisticsOnly : Bool
  inlineProfiling : Bool
  dsnCompat : Bool
  atcCompat : Bool
  faultTypeNames : List String
  totalBBs : ℕ

/-- Whether `addFaultType` adds a fault type. -/
def Options.adds (o : Options) (ft : FaultType) : Bool :=
  o.faultTypeNames = [] || ft.getName ∈ o.faultTypeNames

/-- The calls of `addFaultType` before that for `NullPointerFault`. -/
def Options.commonTypes (o : Options) : List FaultType :=
  [if o.dsnCompat || o.atcCompat then .swap else .swapV2, .noLoad, .rndLoad, .noStore, .flipBranch,
    .flipBool, .corruptPointer, .corruptIndex, .corruptInteger,
    if o.dsnCompat || o.atcCompat then .corruptOperator else .corruptOperatorV2] ++
    if !o.dsnCompat then
      [.stuckAtBranch, .stuckAtLoop, .bufferOverflow, .memLeak, .danglingPointer]
    else []

/-- The list `FaultTypes`. -/
def Options.faultTypes (o : Options) : List FaultType :=
  (o.commonTypes ++ if !o.dsnCompat then [FaultType.nullPointer] else []).filter o.adds

/-- The inner loop of the pre-selection: the numbers of the candidates of an instruction. -/
def applicableFaultsOf (ir : IR) (i faultIndexTemp : ℕ) : List FaultType → List ℕ
  | [] => []
  | ft :: fts =>
    if isApplicable ir i ft then
      faultIndexTemp :: applicableFaultsOf ir i (faultIndexTemp + 1) fts
    else applicableFaultsOf ir i faultIndexTemp fts

/-- `ApplicableFaults`: the numbers of the candidates of the block, from `fault_index` on. -/
def applicableFaults (ir : IR) (fts : List FaultType) (faultIndexTemp : ℕ) : List ℕ → List ℕ
  | [] => []
  | i :: is =>
    if ir.isReload i then applicableFaults ir fts faultIndexTemp is
    else
      let numbers := applicableFaultsOf ir i faultIndexTemp fts
      numbers ++ applicableFaults ir fts (faultIndexTemp + numbers.length) is

/-- `fault_index_selected`; `none` is the -1 it starts with. -/
def faultIndexSelected (o : Options) (ir : IR) (faultIndex rand : ℕ) : Option ℕ :=
  if o.oneFaultPerBlock then
    let faults := applicableFaults ir o.faultTypes faultIndex ir.block
    faults[rand % faults.length]?
  else none

/-- Put instructions in front of the terminator. -/
def IR.insertBeforeTerminator (ir : IR) (new : List (ℕ × Inst)) : IR where
  inst := new.foldl (fun inst p => Function.update inst p.1 p.2) ir.inst
  block := ir.block.dropLast ++ new.map Prod.fst ++ ir.block.getLast?.toList

/-- An identity that no instruction of the block has. -/
def IR.fresh (ir : IR) : ℕ := ir.block.foldl max 0 + 1

/-- The instructions of the inline profiling: the counter of the block is loaded, incremented
    and stored, and the trace hook is called. -/
def profilingInsts (o : Options) : List Inst :=
  [⟨[], .load, .int 64, false⟩, ⟨['i', 'n', 'c'], .binary .add, .int 64, false⟩,
    ⟨[], .store, .void, false⟩] ++
    if o.totalBBs ≠ 0 then [⟨[], .call (some (.function "edfi_trace_bb")), .void, false⟩] else []

/-- The inline profiling. -/
def insertProfiling (o : Options) (ir : IR) : IR :=
  if o.inlineProfiling then
    let new := profilingInsts o
    ir.insertBeforeTerminator ((List.range' ir.fresh new.length).zip new)
  else ir

/-- What the injection loop does not compute itself. -/
structure Oracle where
  /-- `fault_selector.count(..) || FT->isApplicableWithFIF(val, fif)`, by `fault_index`. -/
  pick : ℕ → FaultType → ℕ → Bool
  /-- The value of `rand()` at an instruction with applicable fault types. -/
  rand : ℕ → ℕ
  /-- `FT->apply`.  It removes the instruction or inserts others in front of `nextII`, so the
      instructions that the loop still visits stay the same. -/
  apply : FaultType → ℕ → IR → IR
  /-- The statistics instructions, inserted in front of `nextII`. -/
  countFault : FaultType → ℕ → IR → IR

structure InjectState where
  ir : IR
  faultIndex : ℕ
  applied : List (ℕ × FaultType)

/-- Whether a candidate is pushed to `ApplicableFaultTypes`. -/
def isPicked (o : Options) (orc : Oracle) (selected : Option ℕ) (faultIndex : ℕ) (ft : FaultType)
    (i : ℕ) : Bool :=
  if o.oneFaultPerBlock then selected = some faultIndex else orc.pick faultIndex ft i

/-- The inner loop of the injection: `fault_index` after it, and `ApplicableFaultTypes`. -/
def applicableFaultTypes (o : Options) (orc : Oracle) (selected : Option ℕ) (ir : IR) (i : ℕ) :
    ℕ → List FaultType → ℕ × List FaultType
  | faultIndex, [] => (faultIndex, [])
  | faultIndex, ft :: fts =>
    if isApplicable ir i ft then
      let (next, rest) := applicableFaultTypes o orc selected ir i (faultIndex + 1) fts
      (next, if isPicked o orc selected faultIndex ft i then ft :: rest else rest)
    else applicableFaultTypes o orc selected ir i faultIndex fts

/-- One round of the injection loop. -/
def injectInst (o : Options) (orc : Oracle) (selected : Option ℕ) (s : InjectState) (i : ℕ) :
    InjectState :=
  if s.ir.isReload i then s
  else
    let (faultIndex, fts) := applicableFaultTypes o orc selected s.ir i s.faultIndex o.faultTypes
    match fts[orc.rand i % fts.length]? with
    | none => { s with faultIndex }
    | some ft =>
      if o.statisticsOnly then ⟨orc.countFault ft i s.ir, faultIndex, s.applied⟩
      else ⟨orc.countFault ft i (orc.apply ft i s.ir), faultIndex, s.applied ++ [(i, ft)]⟩

/-- The injection loop over the instructions of the block. -/
def injectLoop (o : Options) (orc : Oracle) (selected : Option ℕ) (s : InjectState)
    (is : List ℕ) : InjectState :=
  is.foldl (injectInst o orc selected) s

/-- The body of the loop over the blocks to corrupt. -/
def corruptBlock (o : Options) (orc : Oracle) (ir : IR) (faultIndex rand : ℕ) : InjectState :=
  let selected := faultIndexSelected o ir faultIndex rand
  let ir := insertProfiling o ir
  injectLoop o orc selected ⟨ir, faultIndex, []⟩ ir.block

/-! ### The two enumerations -/

/-- The fault types that apply to an instruction. -/
def typesOf (ir : IR) (fts : List FaultType) (i : ℕ) : List FaultType :=
  if ir.isReload i then [] else fts.filter (isApplicable ir i)

/-- The candidates among the instructions `is`, in the order of their numbers. -/
def candidates (ir : IR) (fts : List FaultType) (is : List ℕ) : List (ℕ × FaultType) :=
  is.flatMap fun i => (typesOf ir fts i).map (i, ·)

theorem candidates_cons (ir : IR) (fts : List FaultType) (i : ℕ) (is : List ℕ) :
    candidates ir fts (i :: is) =
      (typesOf ir fts i).map (i, ·) ++ candidates ir fts is := List.flatMap_cons

theorem candidates_append (ir : IR) (fts : List FaultType) (is js : List ℕ) :
    candidates ir fts (is ++ js) = candidates ir fts is ++ candidates ir fts js :=
  List.flatMap_append

theorem mem_candidates {ir : IR} {fts : List FaultType} {is : List ℕ} {i : ℕ} {ft : FaultType} :
    (i, ft) ∈ candidates ir fts is ↔
      i ∈ is ∧ ir.isReload i = false ∧ ft ∈ fts ∧ isApplicable ir i ft = true := by
  simp only [candidates, List.mem_flatMap, List.mem_map, Prod.mk.injEq]
  constructor
  · rintro ⟨j, hj, ft', hft, rfl, rfl⟩
    rw [typesOf] at hft
    split_ifs at hft with hreload
    · exact absurd hft List.not_mem_nil
    · exact ⟨hj, Bool.not_eq_true _ ▸ hreload, List.mem_filter.mp hft⟩
  · rintro ⟨hi, hreload, hft⟩
    refine ⟨i, hi, ft, ?_, rfl, rfl⟩
    rw [typesOf, if_neg (by simp [hreload])]
    exact List.mem_filter.mpr hft

theorem applicableFaultsOf_eq (ir : IR) (i k : ℕ) (fts : List FaultType) :
    applicableFaultsOf ir i k fts = List.range' k (fts.filter (isApplicable ir i)).length := by
  induction fts generalizing k with
  | nil => rfl
  | cons ft fts ih =>
    by_cases hft : isApplicable ir i ft
    · rw [applicableFaultsOf, if_pos hft, ih, List.filter_cons_of_pos hft, List.length_cons,
        List.range'_succ]
    · rw [applicableFaultsOf, if_neg hft, ih, List.filter_cons_of_neg hft]

/-- The pre-selection numbers the candidates. -/
theorem applicableFaults_eq (ir : IR) (fts : List FaultType) (k : ℕ) (is : List ℕ) :
    applicableFaults ir fts k is = List.range' k (candidates ir fts is).length := by
  induction is generalizing k with
  | nil => rfl
  | cons i is ih =>
    rw [applicableFaults, candidates_cons, List.length_append, List.length_map]
    by_cases hreload : ir.isReload i = true
    · rw [if_pos hreload, ih, typesOf, if_pos hreload, List.length_nil, Nat.zero_add]
    · rw [if_neg hreload, typesOf, if_neg hreload, ← List.range'_append_1]
      simp only [applicableFaultsOf_eq, List.length_range', ih]

/-- **The selection** is a number of a candidate. -/
theorem faultIndexSelected_eq {o : Options} (hone : o.oneFaultPerBlock = true) (ir : IR)
    (faultIndex rand : ℕ) (hne : candidates ir o.faultTypes ir.block ≠ []) :
    faultIndexSelected o ir faultIndex rand =
      some (faultIndex + rand % (candidates ir o.faultTypes ir.block).length) := by
  have hpos := List.length_pos_iff.mpr hne
  have hlt := Nat.mod_lt rand hpos
  simp only [faultIndexSelected, if_pos hone, applicableFaults_eq, List.length_range']
  rw [List.getElem?_range' hlt, Nat.one_mul]

theorem injectLoop_cons (o : Options) (orc : Oracle) (selected : Option ℕ) (s : InjectState) (i : ℕ)
    (is : List ℕ) : injectLoop o orc selected s (i :: is) =
      injectLoop o orc selected (injectInst o orc selected s i) is := List.foldl_cons ..

section Inject

variable {o : Options} (hone : o.oneFaultPerBlock = true) (orc : Oracle)

include hone

/-- The inner loop of the injection counts like that of the pre-selection, and keeps the fault
    type with the selected number. -/
theorem applicableFaultTypes_eq (ir : IR) (i k n : ℕ) (fts : List FaultType) :
    applicableFaultTypes o orc (some k) ir i n fts =
      (n + (fts.filter (isApplicable ir i)).length,
        if n ≤ k then (fts.filter (isApplicable ir i))[k - n]?.toList else []) := by
  induction fts generalizing n with
  | nil => simp [applicableFaultTypes]
  | cons ft fts ih =>
    by_cases hft : isApplicable ir i ft
    · have hpicked : isPicked o orc (some k) n ft i = decide (k = n) := by
        simp [isPicked, hone]
      simp only [applicableFaultTypes, if_pos hft, ih, List.filter_cons_of_pos hft, hpicked,
        List.length_cons]
      refine Prod.ext (by show n + 1 + _ = _; omega) ?_
      rcases Nat.lt_trichotomy n k with hlt | rfl | hgt
      · obtain ⟨d, rfl⟩ : ∃ d, k = n + 1 + d := ⟨k - n - 1, by omega⟩
        simp [show n + 1 + d ≠ n by omega, show n + 1 + d - n = d + 1 by omega,
          show n ≤ n + 1 + d by omega]
      · simp [show ¬ n + 1 ≤ n by omega]
      · simp [show k ≠ n by omega, show ¬ n ≤ k by omega, show ¬ n + 1 ≤ k by omega]
    · rw [applicableFaultTypes, if_neg hft, ih, List.filter_cons_of_neg hft]

variable (hstat : o.statisticsOnly = false)

include hstat

/-- **One round.** The number grows by the candidates of the instruction.  If the selected number
    is past, nothing is applied; if it is one of them, that candidate is applied; otherwise the
    module is as it was. -/
theorem injectInst_spec (k : ℕ) (s : InjectState) (i : ℕ) :
    let t := injectInst o orc (some k) s i
    let fts := typesOf s.ir o.faultTypes i
    t.faultIndex = s.faultIndex + fts.length ∧
      (k < s.faultIndex → t.applied = s.applied) ∧
      (s.faultIndex ≤ k →
        t.applied = s.applied ++ (fts.map (i, ·))[k - s.faultIndex]?.toList) ∧
      (t.faultIndex ≤ k → t.ir = s.ir) := by
  simp only [injectInst, typesOf]
  by_cases hreload : s.ir.isReload i = true
  · simp [hreload]
  · rw [if_neg hreload, if_neg hreload, applicableFaultTypes_eq hone]
    generalize o.faultTypes.filter (isApplicable s.ir i) = fts
    by_cases hle : s.faultIndex ≤ k
    · rw [if_pos hle]
      cases hget : fts[k - s.faultIndex]? with
      | none =>
        simp only [Option.toList_none, List.getElem?_nil, List.getElem?_map, hget, Option.map_none,
          List.append_nil]
        exact ⟨trivial, fun _ => trivial, fun _ => trivial, fun _ => trivial⟩
      | some ft =>
        have hlt := (List.getElem?_eq_some_iff.mp hget).1
        simp only [Option.toList_some, List.length_singleton, Nat.mod_one, List.getElem?_cons_zero,
          hstat, List.getElem?_map, hget, Option.map_some]
        refine ⟨rfl, fun h => absurd h (by omega), fun _ => rfl, fun h => absurd h ?_⟩
        simp
        omega
    · rw [if_neg hle]
      simp only [List.getElem?_nil]
      exact ⟨trivial, fun _ => trivial, fun h => absurd h hle, fun _ => trivial⟩

/-- Once the selected number is past, nothing more is applied. -/
theorem injectLoop_past {k : ℕ} {s : InjectState} (hpast : k < s.faultIndex) (is : List ℕ) :
    (injectLoop o orc (some k) s is).applied = s.applied := by
  induction is generalizing s with
  | nil => rfl
  | cons i is ih =>
    obtain ⟨hindex, happlied, -, -⟩ := injectInst_spec hone orc hstat k s i
    rw [injectLoop_cons, ih (by omega), happlied hpast]

/-- **The injection loop** applies the candidate with the selected number. -/
theorem injectLoop_applied {k : ℕ} {s : InjectState} (hk : s.faultIndex ≤ k) (is : List ℕ) :
    (injectLoop o orc (some k) s is).applied =
      s.applied ++ (candidates s.ir o.faultTypes is)[k - s.faultIndex]?.toList := by
  induction is generalizing s with
  | nil => simp [injectLoop, candidates]
  | cons i is ih =>
    obtain ⟨hindex, -, happlied, hir⟩ := injectInst_spec hone orc hstat k s i
    have happlied := happlied hk
    rw [injectLoop_cons, candidates_cons]
    by_cases hnext : (injectInst o orc (some k) s i).faultIndex ≤ k
    · -- the selected candidate comes later
      have hbeyond : ((typesOf s.ir o.faultTypes i).map (i, ·)).length ≤ k - s.faultIndex := by
        rw [List.length_map]
        omega
      rw [ih hnext, happlied, hir hnext, List.getElem?_eq_none hbeyond, Option.toList_none,
        List.append_nil, List.getElem?_append_right hbeyond, List.length_map, hindex, Nat.sub_sub]
    · rw [injectLoop_past hone orc hstat (Nat.lt_of_not_le hnext), happlied,
        List.getElem?_append_left (by rw [List.length_map]; omega)]

end Inject

/-! ### The inserted instructions -/

/-- A basic block that ends with its terminator. -/
structure WellFormed (ir : IR) (body : List ℕ) (term : ℕ) : Prop where
  block : ir.block = body ++ [term]
  nodup : ir.block.Nodup
  term : (ir.inst term).kind ≠ .phi

/-- The identities given to new instructions are new. -/
theorem lt_fresh {ir : IR} {i : ℕ} (hi : i ∈ ir.block) : i < ir.fresh := by
  have hmax : ∀ (is : List ℕ) (m : ℕ), m ≤ is.foldl max m ∧ ∀ i ∈ is, i ≤ is.foldl max m := by
    intro is
    induction is with
    | nil => exact fun m => ⟨Nat.le_refl m, fun i hi => absurd hi List.not_mem_nil⟩
    | cons j is ih =>
      intro m
      obtain ⟨hm, hall⟩ := ih (max m j)
      rw [List.foldl_cons]
      refine ⟨Nat.le_trans (Nat.le_max_left m j) hm, fun i hi => ?_⟩
      rcases List.mem_cons.mp hi with rfl | hi
      · exact Nat.le_trans (Nat.le_max_right m i) hm
      · exact hall i hi
  exact Nat.lt_succ_of_le ((hmax ir.block 0).2 i hi)

/-- Numbering instructions from `n` on leaves those below `n` alone. -/
theorem foldl_update (inst : ℕ → Inst) (new : List Inst) (n : ℕ) :
    (∀ i < n, ((List.range' n new.length).zip new).foldl
        (fun inst p => Function.update inst p.1 p.2) inst i = inst i) ∧
      ∀ j x, new[j]? = some x → ((List.range' n new.length).zip new).foldl
        (fun inst p => Function.update inst p.1 p.2) inst (n + j) = x := by
  induction new generalizing n inst with
  | nil => exact ⟨fun _ _ => rfl, fun j x h => absurd h (by simp)⟩
  | cons y new ih =>
    rw [List.length_cons, List.range'_succ, List.zip_cons_cons, List.foldl_cons]
    obtain ⟨hbelow, hnew⟩ := ih (Function.update inst n y) (n + 1)
    refine ⟨fun i hi => ?_, fun j x hx => ?_⟩
    · exact (hbelow i (by omega)).trans (Function.update_of_ne (by omega) ..)
    · cases j with
      | zero =>
        obtain rfl : y = x := Option.some.inj hx
        exact (hbelow n (by omega)).trans (Function.update_self ..)
      | succ j =>
        rw [← hnew j x hx, Nat.add_right_comm, Nat.add_assoc]

/-- The block with the profiling instructions. -/
structure Profiled (o : Options) (ir : IR) (body : List ℕ) (term : ℕ) (ir' : IR) : Prop where
  block : ir'.block = body ++ List.range' ir.fresh (profilingInsts o).length ++ [term]
  same : ∀ i ∈ ir.block, ir'.inst i = ir.inst i
  new : ∀ j x, (profilingInsts o)[j]? = some x → ir'.inst (ir.fresh + j) = x

theorem insertProfiling_profiled {o : Options} {ir : IR} {body : List ℕ} {term : ℕ}
    (hwf : WellFormed ir body term) (hprof : o.inlineProfiling = true) :
    Profiled o ir body term (insertProfiling o ir) := by
  obtain ⟨hbelow, hnew⟩ := foldl_update ir.inst (profilingInsts o) ir.fresh
  rw [insertProfiling, if_pos hprof]
  refine ⟨?_, fun i hi => hbelow i (lt_fresh hi), hnew⟩
  show ir.block.dropLast ++ List.map Prod.fst _ ++ ir.block.getLast?.toList = _
  rw [hwf.block, List.map_fst_zip (by simp)]
  simp

/-- Which fault types apply to an instruction depends on the instruction, and for
    `NullPointerFault` on whether it is the first that is no PHI node. -/
theorem isApplicable_congr {ir ir' : IR} {i : ℕ} {ft : FaultType} (hinst : ir'.inst i = ir.inst i)
    (hfirst : ft = .nullPointer → (ir'.getFirstNonPHI = some i ↔ ir.getFirstNonPHI = some i)) :
    isApplicable ir' i ft = isApplicable ir i ft := by
  cases ft with
  | nullPointer => simp only [isApplicable, hfirst rfl]
  | _ => simp only [isApplicable, hinst]

/-- All instructions of the block but the terminator are PHI nodes. -/
def OnlyPhis (ir : IR) (body : List ℕ) : Prop := ∀ i ∈ body, (ir.inst i).kind = .phi

theorem Options.nullPointer_notMem_commonTypes (o : Options) :
    FaultType.nullPointer ∉ o.commonTypes := by
  rw [Options.commonTypes]
  cases o.dsnCompat <;> cases o.atcCompat <;> decide

theorem Options.nodup_faultTypes (o : Options) : o.faultTypes.Nodup := by
  refine List.Nodup.filter _ ?_
  rw [Options.commonTypes]
  cases o.dsnCompat <;> cases o.atcCompat <;> decide

section Profiled

variable {o : Options} {ir ir' : IR} {body : List ℕ} {term : ℕ} (hwf : WellFormed ir body term)
  (h : Profiled o ir body term ir')

include hwf

theorem WellFormed.mem_block {i : ℕ} (hi : i ∈ body) : i ∈ ir.block := by
  rw [hwf.block]
  exact List.mem_append_left _ hi

theorem WellFormed.term_mem : term ∈ ir.block := by
  rw [hwf.block]
  exact List.mem_append_right _ (List.mem_singleton_self term)

theorem WellFormed.ne_term {i : ℕ} (hi : i ∈ body) : i ≠ term := by
  have hnodup := hwf.nodup
  rw [hwf.block] at hnodup
  exact (List.nodup_append.mp hnodup).2.2 i hi term (List.mem_singleton_self term)

/-- The first instruction that is no PHI node, before the insertion. -/
theorem WellFormed.getFirstNonPHI_eq :
    (OnlyPhis ir body ∧ ir.getFirstNonPHI = some term) ∨
      ¬ OnlyPhis ir body ∧ ∃ i ∈ body, ir.getFirstNonPHI = some i ∧
        body.find? (fun i => (ir.inst i).kind ≠ .phi) = some i := by
  rw [IR.getFirstNonPHI, hwf.block, List.find?_append]
  cases hfind : body.find? (fun i => (ir.inst i).kind ≠ .phi) with
  | none =>
    refine Or.inl ⟨fun i hi => ?_, ?_⟩
    · simpa using List.find?_eq_none.mp hfind i hi
    · simp [hwf.term]
  | some i =>
    refine Or.inr ⟨fun honly => ?_, i, List.mem_of_find?_eq_some hfind, rfl, rfl⟩
    have hkind := List.find?_some hfind
    simp [honly i (List.mem_of_find?_eq_some hfind)] at hkind

include h

/-- And after it: the load that was inserted if there are only PHI nodes before it. -/
theorem Profiled.getFirstNonPHI_eq :
    (OnlyPhis ir body ∧ ir'.getFirstNonPHI = some ir.fresh) ∨
      ¬ OnlyPhis ir body ∧ ir'.getFirstNonPHI = ir.getFirstNonPHI := by
  have hsame : body.find? (fun i => (ir'.inst i).kind ≠ .phi) =
      body.find? (fun i => (ir.inst i).kind ≠ .phi) := by
    rw [← List.head?_filter, ← List.head?_filter,
      List.filter_congr fun i hi => by rw [h.same i (hwf.mem_block hi)]]
  rw [IR.getFirstNonPHI, h.block, List.append_assoc, List.find?_append, hsame]
  rcases hwf.getFirstNonPHI_eq with ⟨honly, -⟩ | ⟨honly, i, -, hfirst, hfind⟩
  · refine Or.inl ⟨honly, ?_⟩
    have hnone : body.find? (fun i => (ir.inst i).kind ≠ .phi) = none :=
      List.find?_eq_none.mpr fun i hi => by simp [honly i hi]
    have hload : ir'.inst ir.fresh = ⟨[], .load, .int 64, false⟩ := h.new 0 _ rfl
    obtain ⟨n, hn⟩ : ∃ n, (profilingInsts o).length = n + 1 := ⟨_, rfl⟩
    rw [hnone, hn, List.range'_succ]
    simp [hload]
  · refine Or.inr ⟨honly, ?_⟩
    rw [hfind, hfirst]
    rfl

/-- The instructions in front of the insertion have the same candidates as before. -/
theorem Profiled.typesOf_body (fts : List FaultType) {i : ℕ} (hi : i ∈ body) :
    typesOf ir' fts i = typesOf ir fts i := by
  have hinst := h.same i (hwf.mem_block hi)
  have hne := Nat.ne_of_lt (lt_fresh (hwf.mem_block hi))
  have hterm := hwf.ne_term hi
  have happlicable : isApplicable ir' i = isApplicable ir i := by
    refine funext fun ft => isApplicable_congr hinst fun _ => ?_
    rcases h.getFirstNonPHI_eq hwf with ⟨honly, hafter⟩ | ⟨honly, hafter⟩
    · rcases hwf.getFirstNonPHI_eq with ⟨-, hbefore⟩ | ⟨hnot, -⟩
      · rw [hafter, hbefore, Option.some.injEq, Option.some.injEq]
        exact iff_of_false (fun heq => hne heq.symm) fun heq => hterm heq.symm
      · exact absurd honly hnot
    · rw [hafter]
  rw [typesOf, typesOf, IR.isReload, IR.isReload, hinst, happlicable]

/-- `NullPointerFault` does not apply to the terminator. -/
theorem Profiled.getFirstNonPHI_ne_term : ir'.getFirstNonPHI ≠ some term := by
  rcases h.getFirstNonPHI_eq hwf with ⟨-, hafter⟩ | ⟨honly, hafter⟩
  · rw [hafter]
    exact fun heq => Nat.ne_of_gt (lt_fresh hwf.term_mem) (Option.some.inj heq)
  · rcases hwf.getFirstNonPHI_eq with ⟨hphis, -⟩ | ⟨-, i, hi, hbefore, -⟩
    · exact absurd hphis honly
    · rw [hafter, hbefore]
      exact fun heq => hwf.ne_term hi (Option.some.inj heq)

/-- The terminator loses `NullPointerFault`, the last of the fault types, and nothing else. -/
theorem Profiled.typesOf_term :
    typesOf ir o.faultTypes term = typesOf ir' o.faultTypes term ++
      if .nullPointer ∈ typesOf ir o.faultTypes term then [.nullPointer] else [] := by
  have hinst := h.same term hwf.term_mem
  have hreload : ir'.isReload term = ir.isReload term := by rw [IR.isReload, IR.isReload, hinst]
  have hcommonNull := o.nullPointer_notMem_commonTypes
  have hcommon : (o.commonTypes.filter o.adds).filter (isApplicable ir' term) =
      (o.commonTypes.filter o.adds).filter (isApplicable ir term) :=
    List.filter_congr fun ft hft => isApplicable_congr hinst fun heq =>
      absurd (heq ▸ (List.mem_filter.mp hft).1) hcommonNull
  have hnull : isApplicable ir' term .nullPointer = false :=
    decide_eq_false (h.getFirstNonPHI_ne_term hwf)
  rw [typesOf, typesOf, hreload]
  by_cases hskip : ir.isReload term = true
  · rw [if_pos hskip, if_pos hskip, if_neg List.not_mem_nil]
    rfl
  · rw [if_neg hskip, if_neg hskip, Options.faultTypes, List.filter_append, List.filter_append,
      List.filter_append, hcommon]
    -- the list of the last fault type has at most one element
    cases o.dsnCompat with
    | true => simp [hcommonNull]
    | false =>
      by_cases hadds : o.adds .nullPointer = true
      · by_cases happ : isApplicable ir term .nullPointer = true
        · simp [hadds, happ, hnull]
        · simp [hadds, happ, hnull]
      · simp [hadds]

/-- A fault type that applies to an instruction of the inline profiling. -/
def InsertedApplicable (fts : List FaultType) (ir : IR) (body : List ℕ) : Prop :=
  ∃ ft ∈ fts, ft ∈ [FaultType.swap, .noLoad, .noStore, .corruptOperator, .corruptOperatorV2] ∨
    ft = .nullPointer ∧ OnlyPhis ir body

/-- Of the new instructions only the first can be the first that is no PHI node. -/
theorem Profiled.getFirstNonPHI_new (j : ℕ) :
    ir'.getFirstNonPHI = some (ir.fresh + j) ↔ j = 0 ∧ OnlyPhis ir body := by
  rcases h.getFirstNonPHI_eq hwf with ⟨honly, hafter⟩ | ⟨honly, hafter⟩
  · rw [hafter, Option.some.injEq, and_iff_left honly]
    omega
  · rcases hwf.getFirstNonPHI_eq with ⟨hphis, -⟩ | ⟨-, i, hi, hbefore, -⟩
    · exact absurd hphis honly
    · have hlt := lt_fresh (hwf.mem_block hi)
      rw [hafter, hbefore, Option.some.injEq]
      exact iff_of_false (by omega) fun hand => honly hand.2

omit hwf h in
/-- The fault types that apply to the instructions of the inline profiling by their kind. -/
def insertedTypes : ℕ → List FaultType
  | 0 => [.noLoad]
  | 1 => [.swap, .corruptOperator, .corruptOperatorV2]
  | 2 => [.noStore]
  | _ => []

omit hwf h in
/-- The instructions of the inline profiling, one by one. -/
theorem profilingInsts_cases {o : Options} {j : ℕ} {x : Inst}
    (hx : (profilingInsts o)[j]? = some x) :
    j = 0 ∧ x = ⟨[], .load, .int 64, false⟩ ∨
      j = 1 ∧ x = ⟨['i', 'n', 'c'], .binary .add, .int 64, false⟩ ∨
      j = 2 ∧ x = ⟨[], .store, .void, false⟩ ∨
      j = 3 ∧ x = ⟨[], .call (some (.function "edfi_trace_bb")), .void, false⟩ := by
  rw [profilingInsts] at hx
  rcases j with _ | _ | _ | j
  · exact Or.inl ⟨rfl, (Option.some.inj hx).symm⟩
  · exact Or.inr (Or.inl ⟨rfl, (Option.some.inj hx).symm⟩)
  · exact Or.inr (Or.inr (Or.inl ⟨rfl, (Option.some.inj hx).symm⟩))
  · split_ifs at hx
    · cases j with
      | zero => exact Or.inr (Or.inr (Or.inr ⟨rfl, (Option.some.inj hx).symm⟩))
      | succ j => exact absurd hx (by simp)
    · exact absurd hx (by simp)

/-- What applies to the instructions of the inline profiling. -/
theorem Profiled.isApplicable_new {j : ℕ} {x : Inst} (hx : (profilingInsts o)[j]? = some x)
    (ft : FaultType) :
    ir'.isReload (ir.fresh + j) = false ∧ (isApplicable ir' (ir.fresh + j) ft = true ↔
      ft ∈ insertedTypes j ∨ ft = .nullPointer ∧ j = 0 ∧ OnlyPhis ir body) := by
  have hinst := h.new j x hx
  have hfirst := h.getFirstNonPHI_new hwf j
  have hnull : isApplicable ir' (ir.fresh + j) .nullPointer = true ↔ j = 0 ∧ OnlyPhis ir body := by
    rw [← hfirst]
    exact decide_eq_true_iff
  rw [IR.isReload]
  generalize ir.fresh + j = i at hinst hnull ⊢
  rcases profilingInsts_cases hx with ⟨rfl, rfl⟩ | ⟨rfl, rfl⟩ | ⟨rfl, rfl⟩ | ⟨rfl, rfl⟩ <;>
    refine ⟨by rw [hinst]; rfl, ?_⟩ <;> cases ft with
    | nullPointer =>
      rw [hnull]
      simp [insertedTypes]
    | _ => simp [isApplicable, hinst, insertedTypes, Ty.isIntegerTy, Kind.isBinary,
        Kind.isConditional, BinaryOps.isCommutative, wrapperIsApplicable, FaultType.wraps]

/-- **The inserted instructions have candidates** if one of the fault types applies to them. -/
theorem Profiled.exists_new_iff (fts : List FaultType) :
    candidates ir' fts (List.range' ir.fresh (profilingInsts o).length) ≠ [] ↔
      InsertedApplicable fts ir body := by
  have hkinds : ∀ ft, ft ∈ [FaultType.swap, .noLoad, .noStore, .corruptOperator,
      .corruptOperatorV2] ↔ ∃ j < 3, ft ∈ insertedTypes j := by
    intro ft
    constructor
    · cases ft <;> decide
    · rintro ⟨j, hj, hmem⟩
      rcases j with _ | _ | _ | j <;> revert hmem <;> cases ft <;> simp [insertedTypes]
  have hget : ∀ j < 3, ∃ x, (profilingInsts o)[j]? = some x := by
    intro j hj
    rcases j with _ | _ | _ | j
    · exact ⟨_, rfl⟩
    · exact ⟨_, rfl⟩
    · exact ⟨_, rfl⟩
    · omega
  have hmem : ∀ j < 3, ∀ ft ∈ fts, isApplicable ir' (ir.fresh + j) ft = true →
      candidates ir' fts (List.range' ir.fresh (profilingInsts o).length) ≠ [] := by
    intro j hj ft hft happ
    obtain ⟨x, hx⟩ := hget j hj
    have hlt := (List.getElem?_eq_some_iff.mp hx).1
    refine List.ne_nil_of_mem (mem_candidates.mpr ⟨?_, (h.isApplicable_new hwf hx ft).1, hft, happ⟩)
    exact List.mem_range'_1.mpr ⟨by omega, by omega⟩
  constructor
  · intro hne
    obtain ⟨⟨i, ft⟩, hc⟩ := List.exists_mem_of_ne_nil _ hne
    obtain ⟨hi, -, hft, happ⟩ := mem_candidates.mp hc
    obtain ⟨hlo, hhi⟩ := List.mem_range'_1.mp hi
    obtain ⟨j, rfl⟩ : ∃ j, i = ir.fresh + j := ⟨i - ir.fresh, by omega⟩
    have hx := List.getElem?_eq_getElem (l := profilingInsts o) (i := j) (by omega)
    refine ⟨ft, hft, ?_⟩
    rcases (h.isApplicable_new hwf hx ft).2.mp happ with htypes | ⟨hnull, -, honly⟩
    · refine Or.inl ((hkinds ft).mpr ⟨j, ?_, htypes⟩)
      by_contra hge
      obtain ⟨d, rfl⟩ : ∃ d, j = d + 3 := ⟨j - 3, by omega⟩
      exact absurd htypes List.not_mem_nil
    · exact Or.inr ⟨hnull, honly⟩
  · rintro ⟨ft, hft, hkind | ⟨rfl, honly⟩⟩
    · obtain ⟨j, hj, htypes⟩ := (hkinds ft).mp hkind
      obtain ⟨x, hx⟩ := hget j hj
      exact hmem j hj ft hft ((h.isApplicable_new hwf hx ft).2.mpr (Or.inl htypes))
    · obtain ⟨x, hx⟩ := hget 0 (by decide)
      exact hmem 0 (by decide) _ hft
        ((h.isApplicable_new hwf hx _).2.mpr (Or.inr ⟨rfl, rfl, honly⟩))

/-- **The candidates after the insertion**: those of the inserted instructions come between those
    of the instructions before them and those of the terminator. -/
theorem Profiled.candidates_eq (fts : List FaultType) :
    candidates ir' fts ir'.block = candidates ir fts body ++
      (candidates ir' fts (List.range' ir.fresh (profilingInsts o).length) ++
        candidates ir' fts [term]) := by
  have hbody : candidates ir' fts body = candidates ir fts body :=
    List.flatMap_congr fun i hi => by rw [h.typesOf_body hwf fts hi]
  rw [h.block, candidates_append, candidates_append, hbody, List.append_assoc]

/-- The candidates of the terminator before and after the insertion. -/
theorem Profiled.candidates_term : ∃ lost, candidates ir o.faultTypes [term] =
      candidates ir' o.faultTypes [term] ++ lost ∧ lost.length ≤ 1 ∧
      (lost ≠ [] → InsertedApplicable o.faultTypes ir body) := by
  have hsplit := h.typesOf_term hwf
  have hone : ∀ ir : IR, candidates ir o.faultTypes [term] =
      (typesOf ir o.faultTypes term).map (term, ·) := fun ir => List.flatMap_singleton ..
  refine ⟨(if .nullPointer ∈ typesOf ir o.faultTypes term then [FaultType.nullPointer] else []).map
    (term, ·), ?_, ?_, fun hlost => ?_⟩
  · rw [hone, hone, ← List.map_append, ← hsplit]
  · split_ifs <;> simp
  · split_ifs at hlost with hmem
    · -- it applied to the terminator: there are only PHI nodes before it
      have hc : (term, FaultType.nullPointer) ∈ candidates ir o.faultTypes [term] := by
        rw [hone]
        exact List.mem_map_of_mem hmem
      obtain ⟨-, -, hft, happ⟩ := mem_candidates.mp hc
      have hfirst : ir.getFirstNonPHI = some term := of_decide_eq_true happ
      refine ⟨_, hft, Or.inr ⟨rfl, ?_⟩⟩
      rcases hwf.getFirstNonPHI_eq with ⟨honly, -⟩ | ⟨-, i, hi, hbefore, -⟩
      · exact honly
      · exact absurd (Option.some.inj (hbefore.symm.trans hfirst)) (hwf.ne_term hi)
    · exact absurd rfl hlost

end Profiled

theorem nodup_candidates_term (o : Options) (ir : IR) (term : ℕ) :
    (candidates ir o.faultTypes [term]).Nodup := by
  rw [candidates, List.flatMap_singleton]
  refine List.Nodup.map (fun _ _ heq => (Prod.mk.inj heq).2) ?_
  rw [typesOf]
  split_ifs
  · exact List.nodup_nil
  · exact o.nodup_faultTypes.filter _

/-- A position of `a ++ (t ++ x)` holds the same element in `a ++ (n ++ t)` if it lies in `a` or if
    nothing is inserted. -/
theorem getElem?_insert_iff {α : Type} {a n t x : List α} {k : ℕ} {c : α}
    (hc : (a ++ (t ++ x))[k]? = some c) (hnodup : (t ++ x).Nodup) (hx : n = [] → x = [])
    (hn : ∀ d ∈ n, d ∉ t ++ x) : (a ++ (n ++ t))[k]? = some c ↔ k < a.length ∨ n = [] := by
  by_cases hk : k < a.length
  · rw [List.getElem?_append_left hk] at hc ⊢
    exact iff_of_true hc (Or.inl hk)
  · have hle : a.length ≤ k := Nat.le_of_not_lt hk
    rw [List.getElem?_append_right hle] at hc ⊢
    rw [or_iff_right hk]
    constructor
    · intro hget
      by_contra hne
      by_cases hin : k - a.length < n.length
      · -- an inserted element
        rw [List.getElem?_append_left hin] at hget
        exact hn c (List.mem_of_getElem? hget) (List.mem_of_getElem? hc)
      · have hin : n.length ≤ k - a.length := Nat.le_of_not_lt hin
        rw [List.getElem?_append_right hin] at hget
        have hlt := (List.getElem?_eq_some_iff.mp hget).1
        have hsame : (t ++ x)[k - a.length - n.length]? = some c := by
          rw [List.getElem?_append_left hlt, hget]
        have hpos := List.length_pos_iff.mpr hne
        exact List.nodup_iff_getElem?_ne_getElem?.mp hnodup _ _ (by omega)
          (List.getElem?_eq_some_iff.mp hc).1 (hsame.trans hc.symm)
    · rintro rfl
      rw [hx rfl, List.append_nil] at hc
      exact hc

/-! ### The selected and the applied candidate -/

/-- The fault that is applied is the candidate with the selected number, after the insertion. -/
theorem corruptBlock_applied {o : Options} (hone : o.oneFaultPerBlock = true)
    (hstat : o.statisticsOnly = false) (orc : Oracle) {ir : IR} (faultIndex rand : ℕ)
    (hne : candidates ir o.faultTypes ir.block ≠ []) :
    (corruptBlock o orc ir faultIndex rand).applied =
      (candidates (insertProfiling o ir) o.faultTypes (insertProfiling o ir).block)[
        rand % (candidates ir o.faultTypes ir.block).length]?.toList := by
  rw [corruptBlock, faultIndexSelected_eq hone ir faultIndex rand hne]
  refine (injectLoop_applied hone orc hstat (s := ⟨insertProfiling o ir, faultIndex, []⟩)
    (Nat.le_add_right faultIndex _) _).trans ?_
  rw [List.nil_append, Nat.add_sub_cancel_left]

section Selected

variable {o : Options} {ir ir' : IR} {body : List ℕ} {term : ℕ} (hwf : WellFormed ir body term)

theorem eq_term_of_mem_candidates {d : ℕ × FaultType}
    (hd : d ∈ candidates ir o.faultTypes [term]) : d.1 = term :=
  List.mem_singleton.mp (mem_candidates.mp hd).1

include hwf

/-- The candidates of the terminator have the last numbers. -/
theorem WellFormed.lt_body_iff {k : ℕ} {c : ℕ × FaultType}
    (hc : (candidates ir o.faultTypes ir.block)[k]? = some c) :
    k < (candidates ir o.faultTypes body).length ↔ c.1 ≠ term := by
  rw [hwf.block, candidates_append] at hc
  constructor
  · intro hk
    rw [List.getElem?_append_left hk] at hc
    exact hwf.ne_term (mem_candidates.mp (List.mem_of_getElem? hc)).1
  · intro hi
    by_contra hk
    rw [List.getElem?_append_right (Nat.le_of_not_lt hk)] at hc
    exact hi (eq_term_of_mem_candidates (List.mem_of_getElem? hc))

variable (h : Profiled o ir body term ir')

include h

/-- **The shift.** A number stands for the same candidate after the insertion, unless the candidate
    is on the terminator and a fault type applies to the inserted instructions. -/
theorem Profiled.getElem?_iff {k : ℕ} {c : ℕ × FaultType}
    (hc : (candidates ir o.faultTypes ir.block)[k]? = some c) :
    (candidates ir' o.faultTypes ir'.block)[k]? = some c ↔
      ¬ (c.1 = term ∧ InsertedApplicable o.faultTypes ir body) := by
  obtain ⟨lost, hterm, -, hlost⟩ := h.candidates_term hwf
  have hnew := h.exists_new_iff hwf o.faultTypes
  have hplace := hwf.lt_body_iff hc
  have hfresh : ∀ d ∈ candidates ir' o.faultTypes
      (List.range' ir.fresh (profilingInsts o).length), d.1 ≠ term := fun d hd =>
    Nat.ne_of_gt (Nat.lt_of_lt_of_le (lt_fresh hwf.term_mem)
      (List.mem_range'_1.mp (mem_candidates.mp hd).1).1)
  rw [hwf.block, candidates_append, hterm] at hc
  rw [h.candidates_eq hwf, getElem?_insert_iff hc (hterm ▸ nodup_candidates_term o ir term)
    (fun hnil => by_contra fun hne => hnew.mpr (hlost hne) hnil)
    (fun d hd hd' => hfresh d hd (eq_term_of_mem_candidates (hterm ▸ hd'))), hplace, ← hnew,
    not_and_or, not_not]

/-- The terminator loses no more candidates than are inserted before it. -/
theorem Profiled.length_le :
    (candidates ir o.faultTypes ir.block).length ≤
      (candidates ir' o.faultTypes ir'.block).length := by
  obtain ⟨lost, hterm, hshort, hlost⟩ := h.candidates_term hwf
  have hcount : lost.length ≤ (candidates ir' o.faultTypes
      (List.range' ir.fresh (profilingInsts o).length)).length := by
    rcases Nat.eq_zero_or_pos lost.length with hzero | hpos
    · omega
    · have hinserted := hlost (List.length_pos_iff.mp hpos)
      have := List.length_pos_iff.mpr ((h.exists_new_iff hwf o.faultTypes).mpr hinserted)
      omega
  rw [h.candidates_eq hwf, hwf.block, candidates_append, hterm]
  simp only [List.length_append]
  omega

end Selected

/-- **One fault per block.** In a block with a candidate exactly one fault is applied.  It is the
    one that was selected, and so on an instruction that was in the block before, unless the
    selected one is on the terminator and a fault type applies to an instruction of the inline
    profiling. -/
theorem corruptBlock_iff {o : Options} (hone : o.oneFaultPerBlock = true)
    (hstat : o.statisticsOnly = false) (orc : Oracle) {ir : IR} {body : List ℕ} {term : ℕ}
    (hwf : WellFormed ir body term) (faultIndex rand : ℕ)
    (hne : candidates ir o.faultTypes ir.block ≠ []) :
    ∃ c, (candidates ir o.faultTypes ir.block)[
        rand % (candidates ir o.faultTypes ir.block).length]? = some c ∧ c.1 ∈ ir.block ∧
      ((corruptBlock o orc ir faultIndex rand).applied = [c] ↔
        ¬ (o.inlineProfiling = true ∧ c.1 = term ∧ InsertedApplicable o.faultTypes ir body)) ∧
      ∃ c', (corruptBlock o orc ir faultIndex rand).applied = [c'] := by
  have hlt := Nat.mod_lt rand (List.length_pos_iff.mpr hne)
  rw [corruptBlock_applied hone hstat orc faultIndex rand hne]
  generalize rand % (candidates ir o.faultTypes ir.block).length = k at hlt ⊢
  obtain ⟨c, hc⟩ : ∃ c, (candidates ir o.faultTypes ir.block)[k]? = some c :=
    ⟨_, List.getElem?_eq_getElem hlt⟩
  refine ⟨c, hc, (mem_candidates.mp (List.mem_of_getElem? hc)).1, ?_⟩
  by_cases hprof : o.inlineProfiling = true
  · have h := insertProfiling_profiled hwf hprof
    refine ⟨?_, ?_⟩
    · rw [Option.toList_eq_singleton_iff, h.getElem?_iff hwf hc]
      simp only [hprof, true_and]
    · have hlt' := Nat.lt_of_lt_of_le hlt (h.length_le hwf)
      exact ⟨_, by rw [List.getElem?_eq_getElem hlt']; rfl⟩
  · have hir : insertProfiling o ir = ir := if_neg hprof
    rw [hir, hc]
    exact ⟨iff_of_true rfl fun hshift => hprof hshift.1, _, rfl⟩

/-- A block that adds a 32-bit number and branches on a condition, instructions 0 and 1. -/
def addAndBranch : IR where
  inst i :=
    if i = 0 then ⟨[], .binary .add, .int 32, false⟩ else ⟨[], .branch true false, .void, false⟩
  block := [0, 1]

theorem addAndBranch_wellFormed : WellFormed addAndBranch [0] 1 where
  block := rfl
  nodup := by decide
  term := by decide

/-- The default fault types, with inline profiling. -/
def profilingOptions : Options := ⟨true, false, true, false, false, [], 0⟩

/-- Faults that leave the instructions as they are. -/
def idleOracle : Oracle := ⟨fun _ _ _ => false, fun _ => 0, fun _ _ ir => ir, fun _ _ ir => ir⟩

/-- The first candidate is the addition: the fault is applied there. -/
theorem corruptBlock_iff_addition :
    (corruptBlock profilingOptions idleOracle addAndBranch 7 0).applied =
      [(0, .corruptInteger)] := by
  obtain ⟨c, hc, -, hiff, -⟩ := corruptBlock_iff (o := profilingOptions) rfl rfl idleOracle
    addAndBranch_wellFormed 7 0 (by decide)
  obtain rfl : (0, FaultType.corruptInteger) = c := by
    refine Option.some.inj (Eq.trans ?_ hc)
    decide
  exact hiff.mpr fun hshift => absurd hshift.2.1 (by decide)

/-- **The selected candidate is not applied.** The fourth candidate is the branch; after the counter
    update is inserted the fourth candidate is the load of the counter, instruction 2. -/
theorem terminator_shifted :
    (candidates addAndBranch profilingOptions.faultTypes addAndBranch.block)[3]? =
        some (1, .flipBranch) ∧
      (corruptBlock profilingOptions idleOracle addAndBranch 7 3).applied = [(2, .noLoad)] ∧
      2 ∉ addAndBranch.block := by
  decide

end Firestarter.Passes.FaultInjector
