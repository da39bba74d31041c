import Mathlib.Data.List.Nodup
import Firestarter.Lib.Ssa

namespace Firestarter.EntryGate

open Ssa

/-!
# The window entry gate of a pair of library calls

After the two variants of a function are inlined, `HybRcvryPass::insertWindowEntryGate` merges the
two copies of a library call: it splits their blocks at the calls and behind them, leads both
variants to the first copy, and decides behind the call which variant to continue with.

* `replaceUsesWithAlloca`: values that cross a split go through stack slots;
* `fixupLibCallArgs`: arguments that differ between the copies go through stack slots, and the
  instructions that compute them are moved to the ends of the split blocks;
* `insertWindowEntryGate`: the whole transformation;
* `replaceUsesWithAlloca_fst`, `foldl_loadBeforeUser`: what becomes of the blocks of a split.

`false` stands for the first variant, `true` for the second.
-/

variable {ι κ : Type}

/-- The names in a function with the gate: those it had (`old`), and those of what is new. -/
inductive Name (ι : Type)
  | old (i : ι)
  | retCast (v : Bool)
  | retStore (v : Bool)
  | returnAddr
  | that (v : Bool)
  | thatBr (v : Bool)
  | tol (v : Bool)
  | tolBr (v : Bool)
  | depStore (i : Name ι)
  | depSlot (i : Name ι)
  | depLoad (user i : Name ι) (n : ℕ)
  | entryBr (v : Bool)
  | gate (n : ℕ)
  | argSlot (j : ℕ)
  | argStore (v : Bool) (j : ℕ)
  | argLoad (j : ℕ)
  deriving DecidableEq, Repr

/-- An instruction under its old name. -/
def embedInst (I : Inst ι) : Inst (Name ι) := ⟨.old I.id, I.op.bimap (Value.map .old) .old⟩

/-- A function under its old names. -/
def embed (F : Func ι) : Func (Name ι) where
  entry := .old F.entry
  labels := F.labels.map .old
  block
    | .old l => (F.block l).map embedInst
    | _ => []

/-! ### Code from outside: basic blocks -/

section Blocks

variable [DecidableEq κ]

/-- The function with a block changed. -/
def modify (F : Func κ) (l : κ) (f : List (Inst κ) → List (Inst κ)) : Func κ :=
  { F with block := Function.update F.block l (f (F.block l)) }

/-- The function with all blocks changed. -/
def mapBlocks (F : Func κ) (f : List (Inst κ) → List (Inst κ)) : Func κ :=
  { F with block := fun l => f (F.block l) }

/-- Insertion before the instruction `i`. -/
def insertBefore (i : κ) (Js b : List (Inst κ)) : List (Inst κ) :=
  b.flatMap fun I => if I.id = i then Js ++ [I] else [I]

/-- Insertion behind the instruction `i`. -/
def insertAfter (i : κ) (J : Inst κ) (b : List (Inst κ)) : List (Inst κ) :=
  b.flatMap fun I => if I.id = i then [I, J] else [I]

/-- Insertion before the terminator. -/
def insertBeforeTerminator (Js b : List (Inst κ)) : List (Inst κ) :=
  b.dropLast ++ Js ++ b.getLast?.toList

/-- `User::replaceUsesOfWith`. -/
def replaceUsesOfWith (a a' : Value κ) (I : Inst κ) : Inst κ :=
  ⟨I.id, I.op.bimap (fun x => if x = a then a' else x) id⟩

/-- `Instruction::getParent`. -/
def getParent (F : Func κ) (i : κ) : Option κ :=
  F.labels.find? fun l => (F.block l).any (·.id = i)

/-- The instruction with the name `i`. -/
def instOf (F : Func κ) (i : κ) : Option (Inst κ) :=
  F.labels.findSome? fun l => (F.block l).find? (·.id = i)

/-- The successors of a block. -/
def successors (F : Func κ) (l : κ) : List κ := ((F.block l).getLast?.map (·.op.dests)).getD []

/-- `BasicBlock::getSingleSuccessor`. -/
def getSingleSuccessor (F : Func κ) (l : κ) : Option κ :=
  match successors F l with
  | [s] => some s
  | _ => none

/-- `BasicBlock::getSinglePredecessor`. -/
def getSinglePredecessor (F : Func κ) (l : κ) : Option κ :=
  match F.labels.flatMap fun p => ((successors F p).filter (· = l)).map fun _ => p with
  | [p] => some p
  | _ => none

/-- Whether an instruction is a `PHINode`. -/
def isPhi (I : Inst κ) : Bool :=
  match I.op with
  | .phi _ => true
  | _ => false

/-- Whether an instruction is a `LoadInst`. -/
def isLoad (I : Inst κ) : Bool :=
  match I.op with
  | .load _ => true
  | _ => false

/-- `SplitBlock`: the block `b` is left before its `n`-th instruction, or before the first behind it
    that is no phi; the rest of it is the block `new`. -/
def splitBlock (F : Func κ) (b : κ) (n : ℕ) (new br : κ) : Func κ :=
  let n := n + (((F.block b).drop n).takeWhile isPhi).length
  { F with
    labels := F.labels ++ [new]
    block := Function.update
      (Function.update F.block b ((F.block b).take n ++ [⟨br, .br [] [new]⟩]))
      new ((F.block b).drop n) }

/-! ### The place to split at -/

/-- `split_type`; in a phi successor, with the incoming edges of the phi. -/
inductive SplitType (κ : Type)
  | inPhiSuccessor (incoming : List (κ × Value κ))
  | inAPhi
  | inNonPhi

/-- The incoming edges of the phi that a block starts with. -/
def firstPhi (b : List (Inst κ)) : Option (List (κ × Value κ)) :=
  match b with
  | ⟨_, .phi incoming⟩ :: _ => some incoming
  | _ => none

/-- `locateTheSplit`. -/
def locateTheSplit (F : Func κ) (b : κ) : SplitType κ :=
  match firstPhi (F.block b) with
  | some incoming => .inPhiSuccessor incoming
  | none =>
    match getSingleSuccessor F b with
    | some s => if (firstPhi (F.block s)).isSome then .inAPhi else .inNonPhi
    | none => .inNonPhi

/-- The instruction before the branch that ends the block. -/
def beforeBranch (F : Func κ) (b : κ) : Option (κ × ℕ) :=
  match (F.block b).getLast? with
  | some ⟨_, .br _ _⟩ =>
    if 2 ≤ (F.block b).length then some (b, (F.block b).length - 2) else none
  | _ => none

/-- `getPHISafeSplitPoint`: the block to split and the instruction to split it at.  `none` stands
    for a failed assertion or a null pointer. -/
def getPHISafeSplitPoint (F : Func κ) (b : κ) (n : ℕ) : Option (κ × ℕ) :=
  match locateTheSplit F b with
  | .inPhiSuccessor incoming => do
    let e ← incoming.head?
    let p ← getParent F e.1
    let q ← getSinglePredecessor F p
    beforeBranch F q
  | .inAPhi => do
    let p ← getSinglePredecessor F b
    let q ← if F.entry = p then some p else getSinglePredecessor F p
    beforeBranch F q
  | .inNonPhi => some (b, n)

/-- The slot that a load directly from an alloca reads. -/
def reusedSlot (I : Inst κ) : Option (Ptr κ) :=
  match I.op with
  | .load (.slot s) => some (.slot s)
  | .load (.val (.alloca x)) => some (.val (.alloca x))
  | _ => none

end Blocks

section Pass

variable [DecidableEq ι]

/-! ### Values that cross a split -/

/-- Where the value of `I` is kept for the next block: where it was loaded from, if that is an
    alloca, and else in a new one. -/
def depPtr (I : Inst (Name ι)) : Ptr (Name ι) := (reusedSlot I).getD (.slot (.depSlot I.id))

/-- The store to a new alloca. -/
def depStoreOf (I : Inst (Name ι)) : Inst (Name ι) :=
  ⟨.depStore I.id, .store I.value (.slot (.depSlot I.id))⟩

/-- A user of `I` in the next block, with a load before it for each use; the first is used. -/
def loadBeforeUser (I u : Inst (Name ι)) : List (Inst (Name ι)) :=
  (List.range (u.op.operands.count I.value)).map
      (fun n => ⟨.depLoad u.id I.id n, .load (depPtr I)⟩) ++
    [replaceUsesOfWith I.value (.inst (.depLoad u.id I.id 0)) u]

/-- The treatment of one instruction that the next block depends on. -/
def replaceDep (bs : List (Inst (Name ι)) × List (Inst (Name ι))) (I : Inst (Name ι)) :
    List (Inst (Name ι)) × List (Inst (Name ι)) :=
  (if (reusedSlot I).isSome then bs.1 else insertAfter I.id (depStoreOf I) bs.1,
    bs.2.flatMap (loadBeforeUser I))

/-- The instructions of `prev` that `target` uses. -/
def directDeps (prev target : List (Inst (Name ι))) : List (Inst (Name ι)) :=
  prev.filter fun I => target.any fun u => I.value ∈ u.op.operands

/-- `replaceUsesWithAlloca(prevBB, targetBB)`: the two blocks afterwards. -/
def replaceUsesWithAlloca (prev target : List (Inst (Name ι))) :
    List (Inst (Name ι)) × List (Inst (Name ι)) :=
  (directDeps prev target).foldl replaceDep (prev, target)

/-- `adjustInterBlockDependencies`. -/
def adjustInterBlockDependencies (F : Func (Name ι)) (prevBB targetBB : Name ι) : Func (Name ι) :=
  let r := replaceUsesWithAlloca (F.block prevBB) (F.block targetBB)
  { F with block := Function.update (Function.update F.block prevBB r.1) targetBB r.2 }

/-! ### Arguments that differ -/

/-- `dyn_cast<Instruction>`. -/
def asInstruction (F : Func (Name ι)) (a : Value (Name ι)) : Option (Inst (Name ι)) :=
  a.name?.bind (instOf F)

/-- `Instruction::moveBefore`, with the terminator of the block `l`. -/
def moveToEnd (F : Func (Name ι)) (I : Inst (Name ι)) (l : Name ι) : Func (Name ι) :=
  modify (mapBlocks F (List.filter (·.id ≠ I.id))) l (insertBeforeTerminator [I])

/-- The store of an argument that differs. -/
def argStoreOf (v : Bool) (j : ℕ) (a : Value (Name ι)) : Inst (Name ι) :=
  ⟨.argStore v j, .store a (.slot (.argSlot j))⟩

/-- The load of an argument that differs. -/
def argLoadOf (j : ℕ) : Inst (Name ι) := ⟨.argLoad j, .load (.slot (.argSlot j))⟩

/-- The arguments of a call. -/
def callArgs (F : Func (Name ι)) (c : Name ι) : List (Value (Name ι)) :=
  match instOf F c with
  | some ⟨_, .call _ args⟩ => args
  | _ => []

/-- Corresponding arguments of two calls, and their position. -/
abbrev ArgPair (κ : Type) : Type := (Value κ × Value κ) × ℕ

/-- The moves of an iteration of `fixupLibCallArgs`, for the arguments `e`, if the first is an
    instruction.  What is moved is recorded; `none` stands for a null pointer. -/
def moveArgs (asInst : Value (Name ι) → Option (Inst (Name ι))) (thisBlock : Bool → Name ι)
    (st : Func (Name ι) × List (Name ι)) (e : ArgPair (Name ι)) :
    Option (Func (Name ι) × List (Name ι)) :=
  match asInst e.1.1 with
  | none => some st
  | some I => (asInst e.1.2).map fun J =>
    (moveToEnd (moveToEnd st.1 I (thisBlock false)) J (thisBlock true), st.2 ++ [I.id, J.id])

/-- One iteration of `fixupLibCallArgs`, for the arguments `e` and their position. -/
def fixupArg (asInst : Value (Name ι) → Option (Inst (Name ι))) (c₀ : Name ι)
    (thisBlock : Bool → Name ι) (st : Func (Name ι) × List (Name ι))
    (e : ArgPair (Name ι)) : Option (Func (Name ι) × List (Name ι)) :=
  if e.1.1 = e.1.2 then some st
  else do
    let st ← moveArgs asInst thisBlock st e
    let F := modify st.1 (thisBlock false) (insertBeforeTerminator [argStoreOf false e.2 e.1.1])
    let F := modify F (thisBlock true) (insertBeforeTerminator [argStoreOf true e.2 e.1.2])
    let F := mapBlocks F (insertBefore c₀ [argLoadOf e.2])
    let F := mapBlocks F (List.map fun I =>
      if I.id = c₀ then replaceUsesOfWith e.1.1 (.inst (.argLoad e.2)) I else I)
    some (F, st.2)

/-- `fixupLibCallArgs`, on the calls `c`. -/
def fixupLibCallArgs (F : Func (Name ι)) (c thisBlock : Bool → Name ι) :
    Option (Func (Name ι) × List (Name ι)) :=
  let libcall1Args := callArgs F (c false)
  let libcall2Args := callArgs F (c true)
  if libcall1Args.length = libcall2Args.length then
    (libcall1Args.zip libcall2Args).zipIdx.foldlM
      (fixupArg (asInstruction F) (c false) thisBlock) (F, [])
  else none

/-! ### The gate -/

/-- The numbers of the operations, globals and constants at a call site. -/
structure Site where
  bitcast : ℕ
  getElementPtr : ℕ
  icmpEq : ℕ
  libcallGates : ℕ
  siteId : ℕ
  typeTsx : ℕ
  topOfTheLoop : ℕ

/-- What announces the address of the return value, before the calls. -/
def announce (site : Site) (v : Bool) (retAlloca : ι) : List (Inst (Name ι)) :=
  [⟨.retCast v, .compute site.bitcast [.alloca (.old retAlloca)]⟩,
    ⟨.retStore v, .store (.inst (.retCast v)) (.slot .returnAddr)⟩]

/-- The first split of a variant: the function, `thisBlock` and `libcallBlock`. -/
def firstSplit (c : Bool → Name ι) (F : Func (Name ι)) (v : Bool) :
    Option (Func (Name ι) × Name ι × Name ι) := do
  let b ← getParent F (c v)
  let (thisBlock, n) ← getPHISafeSplitPoint F b ((F.block b).findIdx (·.id = c v))
  let F := splitBlock F thisBlock n (.that v) (.thatBr v)
  let libcallBlock ← getParent F (c v)
  some (adjustInterBlockDependencies F thisBlock (.that v), thisBlock, libcallBlock)

/-- The call of `top_of_the_loop` moved before the load that a block starts with. -/
def tolFirst (site : Site) (b : List (Inst (Name ι))) : List (Inst (Name ι)) :=
  match b with
  | I :: J :: rest =>
    match J.op with
    | .call callee _ => if isLoad I ∧ callee = site.topOfTheLoop then J :: I :: rest else b
    | _ => b
  | b => b

/-- The second split of a variant, at the first load behind the call. -/
def secondSplit (site : Site) (c : Bool → Name ι) (libcallBlock : Name ι) (F : Func (Name ι))
    (v : Bool) : Option (Func (Name ι)) :=
  let b := F.block libcallBlock
  let k := b.findIdx (·.id = c v)
  let n := k + (b.drop k).findIdx isLoad
  if n < b.length then
    let F := splitBlock F libcallBlock n (.tol v) (.tolBr v)
    let F := modify F (.tol v) (tolFirst site)
    some (adjustInterBlockDependencies F libcallBlock (.tol v))
  else none

/-- The gate behind the merged call. -/
def gate (site : Site) : List (Inst (Name ι)) :=
  [⟨.gate 0, .compute site.getElementPtr [.other site.libcallGates, .other site.siteId]⟩,
    ⟨.gate 1, .load (.val (.inst (.gate 0)))⟩,
    ⟨.gate 2, .compute site.icmpEq [.inst (.gate 1), .other site.typeTsx]⟩,
    ⟨.gate 3, .br [.inst (.gate 2)] [.tol false, .tol true]⟩]

/-- `constructWindowEntryGate`, up to the merging of the arguments. -/
def constructWindowEntryGate (site : Site) (F : Func (Name ι))
    (c thisBlock : Bool → Name ι) (libcallBlock : Name ι) :
    Option (Func (Name ι) × List (Name ι)) :=
  let enter := fun v => [⟨.entryBr v, .br [] [libcallBlock]⟩]
  let F := modify F (thisBlock false) (·.dropLast ++ enter false)
  let F := modify F (thisBlock true) (·.dropLast ++ enter true)
  let F := modify F libcallBlock (·.dropLast ++ gate site)
  fixupLibCallArgs F c thisBlock

/-- **`insertWindowEntryGate`** for the calls `libCalls`, whose return values are stored in
    `retAllocas`: the function afterwards, and the instructions that were moved. -/
def insertWindowEntryGate (site : Site) (F : Func ι) (libCalls retAllocas : Bool → ι) :
    Option (Func (Name ι) × List (Name ι)) := do
  let c := fun v => Name.old (libCalls v)
  let F := mapBlocks (embed F) (insertBefore (c false) (announce site false (retAllocas false)))
  let F := mapBlocks F (insertBefore (c true) (announce site true (retAllocas true)))
  let (F, this₀, lib₀) ← firstSplit c F false
  let (F, this₁, lib₁) ← firstSplit c F true
  let F ← secondSplit site c lib₀ F false
  let F ← secondSplit site c lib₁ F true
  constructWindowEntryGate site F c (fun v => if v then this₁ else this₀) lib₀

end Pass

/-! ### The blocks of a split -/

section Adjust

variable {i : κ} {I d u : Inst (Name ι)} {ds : List (Inst (Name ι))}

theorem insertAfter_of_forall_ne [DecidableEq κ] {J : Inst κ} {b : List (Inst κ)}
    (h : ∀ I ∈ b, I.id ≠ i) : insertAfter i J b = b := by
  rw [insertAfter, List.flatMap_congr fun I hI => if_neg (h I hI), List.flatMap_singleton']

theorem insertBefore_of_forall_ne [DecidableEq κ] {Js b : List (Inst κ)} (h : ∀ I ∈ b, I.id ≠ i) :
    insertBefore i Js b = b := by
  rw [insertBefore, List.flatMap_congr fun I hI => if_neg (h I hI), List.flatMap_singleton']

theorem insertBefore_append [DecidableEq κ] (i : κ) (Js b b' : List (Inst κ)) :
    insertBefore i Js (b ++ b') = insertBefore i Js b ++ insertBefore i Js b' :=
  List.flatMap_append

theorem insertBefore_split [DecidableEq κ] {Js b b' : List (Inst κ)} {I : Inst κ} (hI : I.id = i)
    (hb : ∀ J ∈ b, J.id ≠ i) (hb' : ∀ J ∈ b', J.id ≠ i) :
    insertBefore i Js (b ++ I :: b') = b ++ Js ++ I :: b' := by
  rw [insertBefore_append, insertBefore_of_forall_ne hb]
  have hcons : insertBefore i Js (I :: b') = (Js ++ [I]) ++ insertBefore i Js b' := by
    rw [insertBefore, List.flatMap_cons, if_pos hI]
    rfl
  rw [hcons, insertBefore_of_forall_ne hb']
  simp

theorem replaceUsesOfWith_of_notMem [DecidableEq κ] {a a' : Value κ} {I : Inst κ}
    (h : a ∉ I.op.operands) : replaceUsesOfWith a a' I = I := by
  have hsame : ∀ v ∈ I.op.operands, (if v = a then a' else v) = v := by
    intro v hv
    have hne : v ≠ a := fun heq => h (heq ▸ hv)
    exact if_neg hne
  rw [replaceUsesOfWith, bimap_congr hsame, bimap_self]

theorem mem_operands_depPtr {a : Value (Name ι)} (h : a ∈ (depPtr I).operands) :
    a ∈ I.op.operands ∧ ∃ x, a = .alloca x := by
  obtain ⟨i, o⟩ := I
  cases o with
  | load ptr =>
    cases ptr with
    | slot s => exact absurd h List.not_mem_nil
    | val v =>
      cases v with
      | alloca x => exact ⟨h, x, List.mem_singleton.mp h⟩
      | _ => exact absurd h List.not_mem_nil
  | _ => exact absurd h List.not_mem_nil

variable [DecidableEq ι]

/-- An instruction that was saved if it is one of `ds`. -/
def saveBehind (ds : List (Inst (Name ι))) (I : Inst (Name ι)) : List (Inst (Name ι)) :=
  if I ∈ ds ∧ ¬ (reusedSlot I).isSome then [I, depStoreOf I] else [I]

theorem foldl_replaceDep_fst (ds prev target : List (Inst (Name ι))) :
    (ds.foldl replaceDep (prev, target)).1 = ds.foldl
      (fun b I => if (reusedSlot I).isSome then b else insertAfter I.id (depStoreOf I) b) prev :=
  (List.foldl_hom Prod.fst fun _ _ => rfl).symm

theorem foldl_replaceDep_snd (ds prev target : List (Inst (Name ι))) :
    (ds.foldl replaceDep (prev, target)).2 =
      ds.foldl (fun b I => b.flatMap (loadBeforeUser I)) target :=
  (List.foldl_hom Prod.snd fun _ _ => rfl).symm

/-- Saving one more instruction. -/
theorem saveBehind_snoc {prev : List (Inst (Name ι))}
    (hids : ∀ I ∈ prev, ∀ J ∈ prev, I.id = J.id → I = J)
    (hnew : ∀ I ∈ prev, ∀ n, I.id ≠ .depStore n) (hd : d ∈ prev) (hds : d ∉ ds) :
    (if (reusedSlot d).isSome then prev.flatMap (saveBehind ds)
      else insertAfter d.id (depStoreOf d) (prev.flatMap (saveBehind ds))) =
      prev.flatMap (saveBehind (ds ++ [d])) := by
  have hother : ∀ I, I ≠ d → saveBehind (ds ++ [d]) I = saveBehind ds I := by
    intro I hI
    simp only [saveBehind, List.mem_append, List.mem_singleton, or_iff_left hI]
  split_ifs with hreused
  · refine List.flatMap_congr fun I _ => ?_
    by_cases hI : I = d
    · rw [hI, saveBehind, saveBehind, if_neg fun h => h.2 hreused, if_neg fun h => h.2 hreused]
    · exact (hother I hI).symm
  · rw [insertAfter, List.flatMap_assoc]
    refine List.flatMap_congr fun I hI => ?_
    show insertAfter d.id (depStoreOf d) (saveBehind ds I) = _
    by_cases hId : I = d
    · rw [hId, saveBehind, saveBehind, if_neg fun h => hds h.1,
        if_pos ⟨List.mem_append_right _ (List.mem_singleton_self d), hreused⟩]
      simp [insertAfter]
    · rw [hother I hId]
      refine insertAfter_of_forall_ne fun J hJ => ?_
      have hJ' : J = I ∨ J = depStoreOf I := by
        rw [saveBehind] at hJ
        split_ifs at hJ
        · simpa using hJ
        · exact Or.inl (List.mem_singleton.mp hJ)
      rcases hJ' with rfl | rfl
      · exact fun heq => hId (hids J hI d hd heq)
      · exact fun heq => hnew d hd I.id heq.symm

/-- **The first block of a split**: the instructions that the other block depends on are saved. -/
theorem replaceUsesWithAlloca_fst {prev : List (Inst (Name ι))} (target : List (Inst (Name ι)))
    (hids : (prev.map Inst.id).Nodup) (hnew : ∀ I ∈ prev, ∀ n, I.id ≠ .depStore n) :
    (replaceUsesWithAlloca prev target).1 = prev.flatMap (saveBehind (directDeps prev target)) := by
  have hinj : ∀ I ∈ prev, ∀ J ∈ prev, I.id = J.id → I = J :=
    fun I hI J hJ => List.inj_on_of_nodup_map hids hI hJ
  -- the instructions `ds` are still to be saved, those in `done` have been
  have hfold : ∀ ds done : List (Inst (Name ι)), (∀ d ∈ ds, d ∈ prev) → (done ++ ds).Nodup →
      ds.foldl (fun b I => if (reusedSlot I).isSome then b
        else insertAfter I.id (depStoreOf I) b) (prev.flatMap (saveBehind done)) =
        prev.flatMap (saveBehind (done ++ ds)) := by
    intro ds
    induction ds with
    | nil =>
      intro done _ _
      rw [List.append_nil]
      rfl
    | cons d ds ih =>
      intro done hprev hnodup
      have hd : d ∉ done := fun hmem =>
        (List.nodup_append.mp hnodup).2.2 d hmem d List.mem_cons_self rfl
      rw [List.append_cons] at hnodup
      rw [List.foldl_cons, saveBehind_snoc hinj hnew (hprev d List.mem_cons_self) hd,
        List.append_cons done d ds]
      exact ih (done ++ [d]) (fun e he => hprev e (List.mem_cons_of_mem d he)) hnodup
  have hstart : prev = prev.flatMap (saveBehind []) := by
    have hnone : ∀ I ∈ prev, saveBehind [] I = [I] :=
      fun I _ => if_neg fun h => List.not_mem_nil h.1
    rw [List.flatMap_congr hnone, List.flatMap_singleton']
  rw [replaceUsesWithAlloca, foldl_replaceDep_fst]
  have h := hfold (directDeps prev target) [] (fun d hd => List.mem_of_mem_filter hd) ?_
  · rwa [← hstart, List.nil_append] at h
  · exact (List.Nodup.of_map _ hids).filter _

/-- The loads for the uses of `I` by `u`. -/
def loadsFor (u I : Inst (Name ι)) : List (Inst (Name ι)) :=
  (List.range (u.op.operands.count I.value)).map
    fun n => ⟨.depLoad u.id I.id n, .load (depPtr I)⟩

/-- The operand of the user `u` in place of `a`, when the instructions `ds` are loaded. -/
def throughLoad (u : Name ι) (ds : List (Inst (Name ι))) (a : Value (Name ι)) : Value (Name ι) :=
  match ds.find? (·.value = a) with
  | some I => .inst (.depLoad u I.id 0)
  | none => a

theorem loadBeforeUser_of_notMem (h : I.value ∉ u.op.operands) : loadBeforeUser I u = [u] := by
  rw [loadBeforeUser, List.count_eq_zero.mpr h, replaceUsesOfWith_of_notMem h]
  rfl

theorem foldl_loads_append (ds b b' : List (Inst (Name ι))) :
    ds.foldl (fun b I => b.flatMap (loadBeforeUser I)) (b ++ b') =
      ds.foldl (fun b I => b.flatMap (loadBeforeUser I)) b ++
        ds.foldl (fun b I => b.flatMap (loadBeforeUser I)) b' := by
  induction ds generalizing b b' with
  | nil => rfl
  | cons d ds ih => rw [List.foldl_cons, List.flatMap_append, ih, List.foldl_cons, List.foldl_cons]

theorem foldl_loads_of_notMem {b : List (Inst (Name ι))}
    (h : ∀ I ∈ ds, ∀ u ∈ b, I.value ∉ u.op.operands) :
    ds.foldl (fun b I => b.flatMap (loadBeforeUser I)) b = b := by
  induction ds with
  | nil => rfl
  | cons d ds ih =>
    have hd : b.flatMap (loadBeforeUser d) = b := by
      rw [List.flatMap_congr fun u hu => loadBeforeUser_of_notMem (h d List.mem_cons_self u hu),
        List.flatMap_singleton']
    rw [List.foldl_cons, hd]
    exact ih fun I hI => h I (List.mem_cons_of_mem d hI)

/-- Redirecting the uses of `d` leaves the loads for another instruction as they are. -/
theorem loadsFor_replaceUsesOfWith (hne : I.value ≠ d.value)
    (hload : I.value ≠ .inst (.depLoad u.id d.id 0)) :
    loadsFor (replaceUsesOfWith d.value (.inst (.depLoad u.id d.id 0)) u) I = loadsFor u I := by
  have hcount : ∀ l : List (Value (Name ι)),
      (l.map fun x => if x = d.value then .inst (.depLoad u.id d.id 0) else x).count I.value =
        l.count I.value := by
    intro l
    induction l with
    | nil => rfl
    | cons x l ih =>
      rw [List.map_cons, List.count_cons, List.count_cons, ih]
      congr 1
      by_cases hx : x = d.value
      · rw [if_pos hx, hx]
        simp [hload.symm, hne.symm]
      · rw [if_neg hx]
  rw [loadsFor, loadsFor, replaceUsesOfWith, operands_bimap, hcount]

/-- Loading `d` first, and then `ds`, is loading all of them. -/
theorem throughLoad_cons {u : Name ι} (hload : ∀ I ∈ ds, I.value ≠ .inst (.depLoad u d.id 0))
    (a : Value (Name ι)) :
    throughLoad u ds (if a = d.value then .inst (.depLoad u d.id 0) else a) =
      throughLoad u (d :: ds) a := by
  by_cases ha : a = d.value
  · have hfind : ds.find? (fun I => I.value = .inst (.depLoad u d.id 0)) = none := by
      rw [List.find?_eq_none]
      intro I hI
      simpa using hload I hI
    rw [if_pos ha, throughLoad, hfind, throughLoad,
      List.find?_cons_of_pos (by simpa using ha.symm)]
  · rw [if_neg ha, throughLoad, throughLoad,
      List.find?_cons_of_neg (by simpa using fun h => ha h.symm)]

/-- **A user in the second block of a split**, with its loads. -/
theorem foldl_loadBeforeUser (hids : (ds.map Inst.id).Nodup)
    (hnew : ∀ I ∈ ds, ∀ i n, I.id ≠ .depLoad u.id i n)
    (horder : ds.Pairwise fun I J => J.value ∉ I.op.operands) :
    ds.foldl (fun b I => b.flatMap (loadBeforeUser I)) [u] =
      ds.flatMap (loadsFor u) ++ [⟨u.id, u.op.bimap (throughLoad u.id ds) id⟩] := by
  induction ds generalizing u with
  | nil =>
    have hself : u.op.bimap (throughLoad u.id []) id = u.op := bimap_self u.op
    rw [hself]
    rfl
  | cons d ds ih =>
    obtain ⟨hd, hids⟩ := List.nodup_cons.mp hids
    obtain ⟨hlater, horder⟩ := List.pairwise_cons.mp horder
    have hnew : ∀ I ∈ ds, ∀ i n, I.id ≠ .depLoad u.id i n :=
      fun I hI => hnew I (List.mem_cons_of_mem d hI)
    have hvalue : ∀ I ∈ ds, I.value ≠ .inst (.depLoad u.id d.id 0) := by
      intro I hI heq
      have hname := name?_value I
      rw [heq] at hname
      exact hnew I hI d.id 0 (Option.some.inj hname).symm
    have hne : ∀ I ∈ ds, I.value ≠ d.value := by
      intro I hI heq
      have hname := name?_value I
      rw [heq, name?_value] at hname
      exact hd (Option.some.inj hname ▸ List.mem_map_of_mem hI)
    -- the loads of `d` use no instruction behind it
    have hloads : ds.foldl (fun b I => b.flatMap (loadBeforeUser I)) (loadsFor u d) =
        loadsFor u d := by
      refine foldl_loads_of_notMem fun I hI w hw hmem => ?_
      obtain ⟨n, -, rfl⟩ := List.mem_map.mp hw
      exact hlater I hI (mem_operands_depPtr hmem).1
    have hstep : [u].flatMap (loadBeforeUser d) =
        loadsFor u d ++ [replaceUsesOfWith d.value (.inst (.depLoad u.id d.id 0)) u] := by
      rw [List.flatMap_singleton]
      rfl
    have hrest := @ih (replaceUsesOfWith d.value (.inst (.depLoad u.id d.id 0)) u) hids hnew horder
    have hop : (replaceUsesOfWith d.value (.inst (.depLoad u.id d.id 0)) u).op.bimap
        (throughLoad u.id ds) id = u.op.bimap (throughLoad u.id (d :: ds)) id := by
      rw [replaceUsesOfWith, bimap_bimap]
      exact bimap_congr fun a _ => throughLoad_cons hvalue a
    rw [List.foldl_cons, hstep, foldl_loads_append, hloads, hrest,
      List.flatMap_congr fun I hI => loadsFor_replaceUsesOfWith (hne I hI) (hvalue I hI),
      List.flatMap_cons, List.append_assoc]
    rw [← hop]
    rfl

/-- **Clean code**: it does not use or define a name of `bad`, is none of the calls `c`, and does
    not lead to the block `dead`. -/
structure Clean (bad : Name ι → Prop) (c : Bool → Name ι) (dead : Name ι) (J : Inst (Name ι)) :
    Prop where
  id : ¬ bad J.id
  call : ∀ v, J.id ≠ c v
  names : ∀ a ∈ J.op.operands, ∀ n ∈ a.name?, ¬ bad n
  dests : dead ∉ J.op.dests

section Clean

variable {bad : Name ι → Prop} {c : Bool → Name ι} {dead : Name ι}

/-- Loads for clean users are clean, and so are the users then. -/
theorem clean_loadBeforeUser {d u : Inst (Name ι)} (hu : Clean bad c dead u)
    (hd : ∀ a ∈ (depPtr d).operands, ∀ n ∈ a.name?, ¬ bad n)
    (hload : ∀ i n, ¬ bad (.depLoad u.id i n)) (hc : ∀ v w i n, c v ≠ .depLoad w i n) :
    ∀ J ∈ loadBeforeUser d u, Clean bad c dead J := by
  intro J hJ
  rcases List.mem_append.mp hJ with hJ | hJ
  · obtain ⟨n, -, rfl⟩ := List.mem_map.mp hJ
    exact ⟨hload d.id n, fun v => (hc v _ _ _).symm, hd, List.not_mem_nil⟩
  · rw [List.mem_singleton.mp hJ]
    refine ⟨hu.id, hu.call, fun a ha n hn => ?_, ?_⟩
    · rw [replaceUsesOfWith, operands_bimap] at ha
      obtain ⟨x, hx, rfl⟩ := List.mem_map.mp ha
      by_cases hxd : x = d.value
      · rw [if_pos hxd] at hn
        rw [← Option.some.inj hn]
        exact hload d.id 0
      · rw [if_neg hxd] at hn
        exact hu.names x hx n hn
    · rw [replaceUsesOfWith, dests_bimap, List.map_id]
      exact hu.dests

/-- **The second block of a split** stays clean. -/
theorem clean_foldl {ds b : List (Inst (Name ι))} (hb : ∀ J ∈ b, Clean bad c dead J)
    (hds : ∀ d ∈ ds, ∀ a ∈ (depPtr d).operands, ∀ n ∈ a.name?, ¬ bad n)
    (hload : ∀ u i n, (∀ v, u ≠ c v) → ¬ bad (.depLoad u i n))
    (hc : ∀ v w i n, c v ≠ .depLoad w i n) :
    ∀ J ∈ ds.foldl (fun b I => b.flatMap (loadBeforeUser I)) b, Clean bad c dead J := by
  induction ds generalizing b with
  | nil => exact hb
  | cons d ds ih =>
    refine ih (fun J hJ => ?_) fun e he => hds e (List.mem_cons_of_mem d he)
    obtain ⟨u, hu, hJ⟩ := List.mem_flatMap.mp hJ
    have hclean := hb u hu
    exact clean_loadBeforeUser hclean (hds d List.mem_cons_self)
      (fun i n => hload u.id i n hclean.call) hc J hJ

/-- What is new in the first block of a split is clean. -/
theorem clean_saveBehind {prev ds : List (Inst (Name ι))} (hds : ∀ d ∈ ds, ¬ bad d.id)
    (hstore : ∀ i, ¬ bad (.depStore i)) (hc : ∀ v i, c v ≠ .depStore i) {J : Inst (Name ι)}
    (hJ : J ∈ prev.flatMap (saveBehind ds)) : J ∈ prev ∨ Clean bad c dead J := by
  obtain ⟨I, hI, hJ⟩ := List.mem_flatMap.mp hJ
  rw [saveBehind] at hJ
  split_ifs at hJ with hsave
  · rcases List.mem_cons.mp hJ with rfl | hJ
    · exact Or.inl hI
    · rw [List.mem_singleton.mp hJ]
      refine Or.inr ⟨hstore I.id, fun v => (hc v _).symm, fun a ha n hn => ?_, List.not_mem_nil⟩
      rw [List.mem_singleton.mp ha, name?_value] at hn
      exact Option.some.inj hn ▸ hds I hsave.1
  · exact Or.inl (List.mem_singleton.mp hJ ▸ hI)

end Clean

/-- A load stays one. -/
theorem exists_isLoad_foldl {b : List (Inst (Name ι))} (ds : List (Inst (Name ι)))
    (h : ∃ J ∈ b, isLoad J) :
    ∃ J ∈ ds.foldl (fun b I => b.flatMap (loadBeforeUser I)) b, isLoad J := by
  induction ds generalizing b with
  | nil => exact h
  | cons d ds ih =>
    obtain ⟨J, hJ, hload⟩ := h
    refine ih ⟨_, List.mem_flatMap.mpr ⟨J, hJ, List.mem_append_right _ List.mem_cons_self⟩, ?_⟩
    obtain ⟨i, o⟩ := J
    cases o with
    | load ptr => cases ptr <;> rfl
    | _ => exact absurd hload Bool.false_ne_true

end Adjust
/-! ### The two splits of a variant -/

section Split

theorem findIdx_split {p : Inst κ → Bool} {b b' : List (Inst κ)} {I : Inst κ} (hI : p I)
    (hb : ∀ J ∈ b, ¬ p J) : (b ++ I :: b').findIdx p = b.length := by
  induction b with
  | nil => simp [List.findIdx_cons, hI]
  | cons J b ih =>
    have hJ : p J = false := Bool.eq_false_iff.mpr (hb J List.mem_cons_self)
    rw [List.cons_append, List.findIdx_cons, hJ, ih fun K hK => hb K (List.mem_cons_of_mem J hK)]
    rfl

theorem locateTheSplit_eq_inNonPhi_iff [DecidableEq κ] {F : Func κ} {b : κ} :
    locateTheSplit F b = .inNonPhi ↔ firstPhi (F.block b) = none ∧
      ∀ s, getSingleSuccessor F b = some s → firstPhi (F.block s) = none := by
  rw [locateTheSplit]
  cases firstPhi (F.block b) with
  | some incoming => simp
  | none =>
    cases getSingleSuccessor F b with
    | none => simp
    | some s => cases h : firstPhi (F.block s) <;> simp [h]

/-- A function with a block cut in two: `x` stays in `b`, and `y` goes to the block `new`. -/
def cut [DecidableEq κ] (F : Func κ) (b new : κ) (x y : List (Inst κ)) : Func κ :=
  ⟨F.entry, F.labels ++ [new], Function.update (Function.update F.block b x) new y⟩

section Cut

variable [DecidableEq κ] {F : Func κ} {b new : κ} {x y : List (Inst κ)}

theorem block_cut_new : (cut F b new x y).block new = y := Function.update_self ..

theorem block_cut_self (hne : b ≠ new) : (cut F b new x y).block b = x :=
  (Function.update_of_ne hne _ _).trans (Function.update_self ..)

theorem block_cut_of_ne {l : κ} (hb : l ≠ b) (hnew : l ≠ new) :
    (cut F b new x y).block l = F.block l :=
  (Function.update_of_ne hnew _ _).trans (Function.update_of_ne hb _ _)

/-- A split before an instruction that is no phi. -/
theorem splitBlock_eq {P T : List (Inst κ)} {I : Inst κ} (hblock : F.block b = P ++ I :: T)
    (hI : ¬ isPhi I) (new br : κ) :
    splitBlock F b P.length new br = cut F b new (P ++ [⟨br, .br [] [new]⟩]) (I :: T) := by
  have hdrop : (F.block b).drop P.length = I :: T := by
    rw [hblock, List.drop_left]
  have htake : (F.block b).take P.length = P := by
    rw [hblock, List.take_left]
  rw [splitBlock, hdrop, List.takeWhile_cons_of_neg hI]
  dsimp only [List.length_nil, Nat.add_zero]
  rw [hdrop, htake]
  rfl

end Cut

theorem adjust_cut [DecidableEq ι] (F : Func (Name ι)) {b b' : Name ι} (hne : b ≠ b')
    (x y : List (Inst (Name ι))) : adjustInterBlockDependencies (cut F b b' x y) b b' =
      cut F b b' (replaceUsesWithAlloca x y).1 (replaceUsesWithAlloca x y).2 := by
  rw [adjustInterBlockDependencies, block_cut_self hne, block_cut_new]
  dsimp only [cut]
  rw [Function.update_comm hne.symm, Function.update_idem, Function.update_idem]

variable [DecidableEq ι] {c : Bool → Name ι} {G : Func (Name ι)} {v : Bool} {b : Name ι}
  {P T : List (Inst (Name ι))} {C : Inst (Name ι)}

/-- **The first split**, at a call that is not near a phi. -/
theorem firstSplit_eq (hblock : G.block b = P ++ C :: T) (hC : C.id = c v)
    (hP : ∀ I ∈ P, I.id ≠ c v) (hphi : ¬ isPhi C) (hsplit : locateTheSplit G b = .inNonPhi)
    (hlisted : b ∈ G.labels) (hnew : Name.that v ∉ G.labels) (hbr : c v ≠ .thatBr v)
    (hother : ∀ l ∈ G.labels, l ≠ b → ∀ I ∈ G.block l, I.id ≠ c v) :
    firstSplit c G v = some (cut G b (.that v)
        (replaceUsesWithAlloca (P ++ [⟨.thatBr v, .br [] [.that v]⟩]) (C :: T)).1
        (replaceUsesWithAlloca (P ++ [⟨.thatBr v, .br [] [.that v]⟩]) (C :: T)).2,
      b, .that v) := by
  have hne : b ≠ .that v := fun heq => hnew (heq ▸ hlisted)
  have hparent : getParent G (c v) = some b := by
    rw [getParent]
    have hb : (G.block b).any (·.id = c v) := by
      rw [hblock]
      simp [hC]
    have hsome : (G.labels.find? fun l => (G.block l).any (·.id = c v)).isSome :=
      List.find?_isSome.mpr ⟨b, hlisted, hb⟩
    obtain ⟨l, hl⟩ := Option.isSome_iff_exists.mp hsome
    have hany := List.find?_some hl
    obtain ⟨I, hI, hid⟩ := List.any_eq_true.mp hany
    by_cases hlb : l = b
    · rw [hl, hlb]
    · exact absurd (of_decide_eq_true hid) (hother l (List.mem_of_find?_eq_some hl) hlb I hI)
  have hidx : (G.block b).findIdx (·.id = c v) = P.length := by
    rw [hblock]
    exact findIdx_split (by simpa using hC) fun J hJ => by simpa using hP J hJ
  have hpoint : getPHISafeSplitPoint G b P.length = some (b, P.length) := by
    rw [getPHISafeSplitPoint, hsplit]
  rw [firstSplit, hparent]
  simp only [Option.bind_eq_bind, Option.bind_some, hidx, hpoint, splitBlock_eq hblock hphi,
    adjust_cut G hne]
  -- the call is now in the new block
  have hnone : G.labels.find? (fun l => ((cut G b (.that v) (P ++ [⟨.thatBr v, .br [] [.that v]⟩])
      (C :: T)).block l).any (·.id = c v)) = none := by
    rw [List.find?_eq_none]
    intro l hl hany
    have hlt : l ≠ .that v := fun heq => hnew (heq ▸ hl)
    obtain ⟨I, hI, hid⟩ := List.any_eq_true.mp hany
    have hid : I.id = c v := of_decide_eq_true hid
    by_cases hlb : l = b
    · rw [hlb, block_cut_self hne] at hI
      rcases List.mem_append.mp hI with hI | hI
      · exact hP I hI hid
      · rw [List.mem_singleton.mp hI] at hid
        exact hbr hid.symm
    · rw [block_cut_of_ne hlb hlt] at hI
      exact hother l hl hlb I hI hid
  have hparent' : getParent (cut G b (.that v) (P ++ [⟨.thatBr v, .br [] [.that v]⟩]) (C :: T))
      (c v) = some (.that v) := by
    show (G.labels ++ [Name.that v]).find? _ = _
    rw [List.find?_append, hnone, Option.none_or]
    refine List.find?_cons_of_pos ?_
    rw [block_cut_new]
    simp [hC]
  rw [hparent']
  rfl

/-- **The second split**, at the first load behind the call. -/
theorem secondSplit_eq (site : Site) (hblock : G.block b = P ++ C :: T) (hC : C.id = c v)
    (hP : ∀ I ∈ P, I.id ≠ c v) (hcall : ¬ isLoad C) (hload : ∃ J ∈ T, isLoad J) (hne : b ≠ .tol v) :
    ∃ M N, T = M ++ N ∧ secondSplit site c b G v = some (cut G b (.tol v)
        (replaceUsesWithAlloca (P ++ C :: M ++ [⟨.tolBr v, .br [] [.tol v]⟩])
          (tolFirst site N)).1
        (replaceUsesWithAlloca (P ++ C :: M ++ [⟨.tolBr v, .br [] [.tol v]⟩])
          (tolFirst site N)).2) := by
  obtain ⟨J, hJ, hisLoad⟩ := hload
  obtain ⟨M, N, I, hT, hI, hM⟩ : ∃ M N I, T = M ++ I :: N ∧ isLoad I ∧ ∀ K ∈ M, ¬ isLoad K := by
    obtain ⟨I, hfind⟩ := Option.isSome_iff_exists.mp (List.find?_isSome.mpr ⟨J, hJ, hisLoad⟩)
    obtain ⟨hI, M, N, hT, hM⟩ := List.find?_eq_some_iff_append.mp hfind
    exact ⟨M, N, I, hT, hI, fun K hK => by simpa using hM K hK⟩
  refine ⟨M, I :: N, hT, ?_⟩
  have hblock' : G.block b = (P ++ C :: M) ++ I :: N := by
    rw [hblock, hT]
    simp
  have hidx : (G.block b).findIdx (·.id = c v) = P.length := by
    rw [hblock]
    exact findIdx_split (by simpa using hC) fun K hK => by simpa using hP K hK
  have hrest : ((G.block b).drop P.length).findIdx isLoad = (C :: M).length := by
    rw [hblock, List.drop_left, hT, ← List.cons_append]
    refine findIdx_split hI fun K hK => ?_
    rcases List.mem_cons.mp hK with rfl | hK
    · exact hcall
    · exact hM K hK
  have hlen : P.length + (C :: M).length = (P ++ C :: M).length := List.length_append.symm
  have hlt : (P ++ C :: M).length < (G.block b).length := by
    rw [hblock']
    simp only [List.length_append, List.length_cons]
    omega
  have hphi : ¬ isPhi I := by
    obtain ⟨i, o⟩ := I
    cases o with
    | load ptr => exact Bool.false_ne_true
    | _ => exact absurd hI Bool.false_ne_true
  rw [secondSplit]
  dsimp only
  rw [hidx, hrest, hlen, if_pos hlt, splitBlock_eq hblock' hphi, modify, block_cut_new]
  dsimp only [cut]
  rw [Function.update_idem]
  exact congrArg some (adjust_cut G hne _ _)

end Split

end Firestarter.EntryGate
