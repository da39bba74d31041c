import Mathlib.Data.List.Find
import Mathlib.Data.List.Induction
import Firestarter.Passes.AssignIds

namespace Firestarter.CloneArtifacts

open Passes

/-!
# Pairing the artifacts of two clones

`HybPrepPass` numbers the library calls, the other calls and the locals of each clone of a
function, `HybInlinePass` numbers them again for each variant and inlines both clones, and
`HybRcvryPass::getCloneArtifacts` pairs what is left by these numbers.  It looks up numbers of one
namespace in tables that are keyed by the other, its tables have keys of type `int`, and its loops
count in an `unsigned`.

* `hybprepIDs`, `inlineCloneCalls`, `getCloneArtifacts`: the three passes;
* `hybprepID_eq`, `hybryID_eq`: both namespaces number an instruction by its place;
* `lookup_idMap`: what a table answers;
* `paired_iff_distinctKeys`: when the artifacts are paired correctly.
-/

/-- What the passes ask of an instruction: whether it is a `CallInst`, whether
    `PassUtil::isLibCallInst` holds, whether it calls a known function that is no intrinsic and no
    checkpoint hook, and whether `markLocals` takes it for a definition. -/
structure CloneInst where
  isCall : Bool
  isLibCall : Bool
  isDirect : Bool
  isDef : Bool

/-- The instructions of a clone, in order.  They are objects in a 64-bit address space. -/
structure Clone where
  insts : List CloneInst
  fits : insts.length < 2 ^ 64

/-- The three kinds of artifacts. -/
inductive Kind
  | libCall
  | callInst
  | locals
  deriving DecidableEq

/-- The tests of `markLibCalls`, `markCallInsts` and `markLocals`. -/
def Kind.marks : Kind → CloneInst → Bool
  | .libCall, I => I.isCall && I.isLibCall
  | .callInst, I => I.isCall && !I.isLibCall && I.isDirect
  | .locals, I => I.isDef

/-- An instruction: the variant it belongs to (`false` for the first) and its place in the clone. -/
abbrev InstPtr := Bool × ℕ

section Passes

variable (c : Bool → Clone)

/-- The instructions of a clone. -/
def instsOf (v : Bool) : List InstPtr := (List.range (c v).insts.length).map (v, ·)

/-- A test of an instruction. -/
def holdsAt (test : CloneInst → Bool) (p : InstPtr) : Bool := ((c p.1).insts[p.2]?).any test

/-- The list that `HybPrepPass` numbers. -/
def marked (k : Kind) (v : Bool) : List InstPtr := (instsOf c v).filter (holdsAt c k.marks)

/-- The nodes of `HYBPREP_NAMESPACE_LIBCALLS`, `_CALLINSTS` and `_LOCALS` on the two clones. -/
def hybprepIDs (k : Kind) : Metadata InstPtr :=
  assignIDs (assignIDs .empty (marked c k false) 0 true) (marked c k true) 0 true

/-- The lists that `inlineCloneCalls` collects from a clone. -/
def cloneList : Kind → Bool → List InstPtr
  | .libCall, v => (instsOf c v).filter fun p =>
      holdsAt c CloneInst.isCall p && getAssignedID (hybprepIDs c .libCall) p ≠ 0
  | .callInst, v => (instsOf c v).filter fun p =>
      holdsAt c CloneInst.isCall p && getAssignedID (hybprepIDs c .libCall) p = 0 &&
        getAssignedID (hybprepIDs c .callInst) p ≠ 0
  | .locals, v => (instsOf c v).filter fun p => getAssignedID (hybprepIDs c .locals) p ≠ 0

/-- The nodes of `HYBRY_NAMESPACE_LIBCALLS`, `_CALLINSTS` and `_LOCALS` with the variant's number
    appended. -/
def hybryIDs (k : Kind) (v : Bool) : Metadata InstPtr := assignIDs .empty (cloneList c k v) 0 true

/-- The assertions of `inlineCloneCalls`. -/
def inlineCloneCalls : Bool :=
  [Kind.libCall, .callInst, .locals].all fun k =>
    (cloneList c k false).length = (cloneList c k true).length

/-- The function after inlining: whether its entry block has an `ICmpInst`, and its instructions
    that come from the clones, in order. -/
structure Inlined where
  hasEntryCmp : Bool
  insts : List InstPtr

/-- `insert` of a `std::map<int, Value *>`: the number is narrowed, and a key that is present keeps
    its value. -/
def insertId {α : Type*} (id : α → ℕ) (table : List (ℕ × α)) (v : α) : List (ℕ × α) :=
  if id v % 2 ^ 32 ∈ table.map Prod.fst then table else table ++ [(id v % 2 ^ 32, v)]

/-- The table of a list of values. -/
def idMap {α : Type*} (id : α → ℕ) (l : List α) : List (ℕ × α) := l.foldl (insertId id) []

variable (F : Inlined)

/-- The instructions that `getCloneArtifacts` finds for a variant. -/
def bucket : Kind → Bool → List InstPtr
  | .libCall, v => F.insts.filter fun p =>
      holdsAt c CloneInst.isCall p && getAssignedID (hybryIDs c .libCall v) p ≠ 0
  | .callInst, v => F.insts.filter fun p =>
      holdsAt c CloneInst.isCall p && getAssignedID (hybryIDs c .libCall v) p = 0 &&
        getAssignedID (hybryIDs c .callInst v) p ≠ 0
  | .locals, v => F.insts.filter fun p => getAssignedID (hybryIDs c .locals v) p ≠ 0

/-- The tables of a variant. -/
def cloneIDMap (k : Kind) (v : Bool) : List (ℕ × InstPtr) :=
  idMap (getAssignedID (hybryIDs c k v)) (bucket c F k v)

/-- The counterparts of `first`: looked up by `key`, and asserted to have the same number. -/
def pairUp (first : List InstPtr) (table : List (ℕ × InstPtr)) (key id₁ id₂ : InstPtr → ℕ) :
    Option (List (InstPtr × InstPtr)) :=
  -- the loop's `unsigned` counter does not reach a bound of `2 ^ 32`
  if 2 ^ 32 ≤ first.length then none
  else first.mapM fun a => do
    let b ← table.lookup (key a % 2 ^ 32)
    if id₁ a = id₂ b then some (a, b) else none

/-- The three maps.  The library calls are looked up by their `HYBRY` number; the others by their
    `HYBPREP` number, and only as many as the first table has keys. -/
def artifactsOf : Kind → Option (List (InstPtr × InstPtr))
  | .libCall => pairUp (bucket c F .libCall false) (cloneIDMap c F .libCall true)
      (getAssignedID (hybryIDs c .libCall false)) (getAssignedID (hybryIDs c .libCall false))
      (getAssignedID (hybryIDs c .libCall true))
  | .callInst => pairUp
      ((bucket c F .callInst false).take (cloneIDMap c F .callInst false).length)
      (cloneIDMap c F .callInst true) (getAssignedID (hybprepIDs c .callInst))
      (getAssignedID (hybprepIDs c .callInst)) (getAssignedID (hybprepIDs c .callInst))
  | .locals => pairUp
      ((bucket c F .locals false).take (cloneIDMap c F .locals false).length)
      (cloneIDMap c F .locals true) (getAssignedID (hybprepIDs c .locals))
      (getAssignedID (hybprepIDs c .locals)) (getAssignedID (hybprepIDs c .locals))

/-- `libCallsMap`, `callInstsMap` and `localsMap`. -/
structure Artifacts where
  libCallsMap : List (InstPtr × InstPtr)
  callInstsMap : List (InstPtr × InstPtr)
  localsMap : List (InstPtr × InstPtr)

/-- `getCloneArtifacts`; `none` for a failed assertion, a null pointer or a loop without end. -/
def getCloneArtifacts : Option Artifacts := do
  if !F.hasEntryCmp then none
  else do
    let libCallsMap ← artifactsOf c F .libCall
    let callInstsMap ← artifactsOf c F .callInst
    let localsMap ← artifactsOf c F .locals
    pure { libCallsMap, callInstsMap, localsMap }

/-! ### What is to hold -/

/-- The clones correspond: as many instructions of each kind. -/
def Correspond : Prop := ∀ k, (marked c k false).length = (marked c k true).length

/-- Instructions at the same place in the order of their kind. -/
def Counterpart (k : Kind) (a b : InstPtr) : Prop :=
  ∃ i : ℕ, (marked c k false)[i]? = some a ∧ (marked c k true)[i]? = some b

/-- The result of inlining: instructions of the clones, each at most once, and counterparts
    together. -/
structure KeepsTogether : Prop where
  entry : F.hasEntryCmp = true
  once : F.insts.Nodup
  together : ∀ k a b, Counterpart c k a b → (a ∈ F.insts ↔ b ∈ F.insts)

/-- A map pairs what is left of a kind, each instruction with its counterpart and only once. -/
structure PairsExactly (k : Kind) (m : List (InstPtr × InstPtr)) : Prop where
  pairs : ∀ a b, (a, b) ∈ m ↔ a ∈ F.insts ∧ Counterpart c k a b
  firstOnce : (m.map Prod.fst).Nodup
  secondOnce : (m.map Prod.snd).Nodup

/-- **The artifacts are paired correctly.**  No assertion fails, and all three maps are right. -/
def PairedCorrectly : Prop :=
  inlineCloneCalls c = true ∧ ∃ A, getCloneArtifacts c F = some A ∧
    PairsExactly c F .libCall A.libCallsMap ∧ PairsExactly c F .callInst A.callInstsMap ∧
    PairsExactly c F .locals A.localsMap

/-- The places of the instructions of a kind that are left differ in their low 32 bits. -/
def DistinctKeys : Prop :=
  ∀ k i j a b, (marked c k false)[i]? = some a → (marked c k false)[j]? = some b →
    a ∈ F.insts → b ∈ F.insts → i % 2 ^ 32 = j % 2 ^ 32 → i = j

/-- The loops that pair end: fewer than `2 ^ 32` instructions of a kind are left. -/
def LoopsEnd : Prop := ∀ k, F.insts.countP (· ∈ marked c k false) < 2 ^ 32

end Passes

/-! ### The numbers -/

section Numbers

variable {c : Bool → Clone} {k : Kind} {v : Bool} {p : InstPtr}

theorem instsOf_nodup (c : Bool → Clone) (v : Bool) : (instsOf c v).Nodup :=
  List.nodup_range.map fun _ _ h => (Prod.mk.inj h).2

theorem mem_instsOf : p ∈ instsOf c v ↔ p.1 = v ∧ p.2 < (c v).insts.length := by
  constructor
  · intro h
    obtain ⟨i, hi, rfl⟩ := List.mem_map.mp h
    exact ⟨rfl, List.mem_range.mp hi⟩
  · rintro ⟨rfl, hi⟩
    exact List.mem_map.mpr ⟨p.2, List.mem_range.mpr hi, rfl⟩

theorem marked_nodup (c : Bool → Clone) (k : Kind) (v : Bool) : (marked c k v).Nodup :=
  (instsOf_nodup c v).filter _

theorem marked_length_lt (c : Bool → Clone) (k : Kind) (v : Bool) :
    (marked c k v).length < 2 ^ 64 := by
  have hle : (marked c k v).length ≤ (instsOf c v).length := List.length_filter_le ..
  rw [instsOf, List.length_map, List.length_range] at hle
  exact Nat.lt_of_le_of_lt hle (c v).fits

/-- An instruction is marked in its own clone only. -/
theorem fst_of_mem_marked (h : p ∈ marked c k v) : p.1 = v :=
  (mem_instsOf.mp (List.mem_of_mem_filter h)).1

theorem holdsAt_of_mem_marked (h : p ∈ marked c k v) : holdsAt c k.marks p :=
  (List.mem_filter.mp h).2

variable {i : ℕ}

/-- Numbers start at 1 and do not reach 0 again. -/
theorem assigned_eq {l : List InstPtr} (md : Metadata InstPtr) (hnodup : l.Nodup)
    (hlen : l.length < 2 ^ 64) (hi : l[i]? = some p) :
    getAssignedID (assignIDs md l 0 true) p = i + 1 := by
  obtain ⟨hlt, -⟩ := List.getElem?_eq_some_iff.mp hi
  have hfirst : firstID md 0 true = 0 := rfl
  rw [assignIDs_id_of_getElem? md hnodup hi, hfirst, Nat.zero_add]
  exact Nat.mod_eq_of_lt (by omega)

/-- **The numbers of `HybPrepPass`.** -/
theorem hybprepID_eq (h : (marked c k v)[i]? = some p) :
    getAssignedID (hybprepIDs c k) p = i + 1 := by
  have hfst := fst_of_mem_marked (List.mem_of_getElem? h)
  cases v with
  | true => exact assigned_eq _ (marked_nodup c k true) (marked_length_lt c k true) h
  | false =>
    -- the second clone is numbered last, and does not touch the first
    have hnot : p ∉ marked c k true := fun hmem => by
      rw [fst_of_mem_marked hmem] at hfst
      exact absurd hfst nofun
    rw [hybprepIDs, assignIDs_id_of_not_mem _ hnot]
    exact assigned_eq _ (marked_nodup c k false) (marked_length_lt c k false) h

theorem hybprepID_ne_zero_iff : getAssignedID (hybprepIDs c k) p ≠ 0 ↔ p ∈ marked c k p.1 := by
  constructor
  · intro h
    by_contra hnot
    have hany : ∀ v, p ∉ marked c k v := fun v hmem => hnot (fst_of_mem_marked hmem ▸ hmem)
    rw [hybprepIDs, assignIDs_id_of_not_mem _ (hany true),
      assignIDs_id_of_not_mem _ (hany false)] at h
    exact h rfl
  · intro h
    obtain ⟨i, hi⟩ := List.mem_iff_getElem?.mp h
    rw [hybprepID_eq hi]
    exact Nat.succ_ne_zero i

/-- On the instructions of a clone, a number is a mark. -/
theorem hybprepID_ne_zero (hp : p ∈ instsOf c v) :
    getAssignedID (hybprepIDs c k) p ≠ 0 ↔ holdsAt c k.marks p := by
  rw [hybprepID_ne_zero_iff, (mem_instsOf.mp hp).1, marked, List.mem_filter]
  exact and_iff_right hp

theorem holdsAt_iff {test : CloneInst → Bool} :
    holdsAt c test p ↔ ∃ I, (c p.1).insts[p.2]? = some I ∧ test I := by
  rw [holdsAt, Option.any_eq_true_iff_get]
  constructor
  · rintro ⟨hs, ht⟩
    exact ⟨_, (Option.some_get hs).symm, ht⟩
  · rintro ⟨I, hI, ht⟩
    exact ⟨by simp [hI], by simpa [hI] using ht⟩

theorem isCall_of_libCall (h : holdsAt c Kind.libCall.marks p) : holdsAt c CloneInst.isCall p := by
  obtain ⟨I, hI, ht⟩ := holdsAt_iff.mp h
  exact holdsAt_iff.mpr ⟨I, hI, (Bool.and_eq_true_iff.mp ht).1⟩

/-- The other calls are calls, and no library calls. -/
theorem isCall_of_callInst (h : holdsAt c Kind.callInst.marks p) :
    holdsAt c CloneInst.isCall p ∧ ¬ holdsAt c Kind.libCall.marks p := by
  obtain ⟨I, hI, ht⟩ := holdsAt_iff.mp h
  simp only [Kind.marks, Bool.and_eq_true, Bool.not_eq_true'] at ht
  refine ⟨holdsAt_iff.mpr ⟨I, hI, ht.1.1⟩, fun hlib => ?_⟩
  obtain ⟨J, hJ, hlib⟩ := holdsAt_iff.mp hlib
  obtain rfl := Option.some.inj (hI.symm.trans hJ)
  simp [Kind.marks, ht.1.2] at hlib

/-- `inlineCloneCalls` collects what `HybPrepPass` marked. -/
theorem cloneList_eq (c : Bool → Clone) (k : Kind) (v : Bool) : cloneList c k v = marked c k v := by
  cases k with
  | libCall =>
    refine List.filter_congr fun p hp => ?_
    rw [Bool.eq_iff_iff, Bool.and_eq_true, decide_eq_true_eq, hybprepID_ne_zero hp]
    exact and_iff_right_of_imp isCall_of_libCall
  | callInst =>
    refine List.filter_congr fun p hp => ?_
    have hlib := hybprepID_ne_zero (k := .libCall) hp
    rw [Bool.eq_iff_iff, Bool.and_eq_true, Bool.and_eq_true, decide_eq_true_eq, decide_eq_true_eq,
      hybprepID_ne_zero hp]
    refine and_iff_right_of_imp fun h => ⟨(isCall_of_callInst h).1, ?_⟩
    by_contra hne
    exact (isCall_of_callInst h).2 (hlib.mp hne)
  | locals =>
    refine List.filter_congr fun p hp => ?_
    rw [Bool.eq_iff_iff, decide_eq_true_eq, hybprepID_ne_zero hp]

/-- **The numbers of `HybInlinePass`** are those of `HybPrepPass`. -/
theorem hybryID_eq (h : (marked c k v)[i]? = some p) :
    getAssignedID (hybryIDs c k v) p = i + 1 := by
  rw [hybryIDs, cloneList_eq]
  exact assigned_eq _ (marked_nodup c k v) (marked_length_lt c k v) h

theorem hybryID_ne_zero_iff : getAssignedID (hybryIDs c k v) p ≠ 0 ↔ p ∈ marked c k v := by
  constructor
  · intro h
    by_contra hnot
    rw [hybryIDs, cloneList_eq, assignIDs_id_of_not_mem _ hnot] at h
    exact h rfl
  · intro h
    obtain ⟨i, hi⟩ := List.mem_iff_getElem?.mp h
    rw [hybryID_eq hi]
    exact Nat.succ_ne_zero i

/-- The instructions found for a variant are those marked in its clone. -/
theorem bucket_eq (c : Bool → Clone) (F : Inlined) (k : Kind) (v : Bool) :
    bucket c F k v = F.insts.filter (· ∈ marked c k v) := by
  cases k with
  | libCall =>
    refine List.filter_congr fun p _ => ?_
    rw [Bool.eq_iff_iff, Bool.and_eq_true, decide_eq_true_eq, decide_eq_true_eq,
      hybryID_ne_zero_iff]
    exact and_iff_right_of_imp fun h => isCall_of_libCall (holdsAt_of_mem_marked h)
  | callInst =>
    refine List.filter_congr fun p _ => ?_
    rw [Bool.eq_iff_iff, Bool.and_eq_true, Bool.and_eq_true, decide_eq_true_eq, decide_eq_true_eq,
      decide_eq_true_eq, hybryID_ne_zero_iff]
    refine and_iff_right_of_imp fun h => ?_
    obtain ⟨hcall, hnot⟩ := isCall_of_callInst (holdsAt_of_mem_marked h)
    refine ⟨hcall, ?_⟩
    by_contra hne
    exact hnot (holdsAt_of_mem_marked (hybryID_ne_zero_iff.mp hne))
  | locals =>
    refine List.filter_congr fun p _ => ?_
    rw [Bool.eq_iff_iff, decide_eq_true_eq, decide_eq_true_eq, hybryID_ne_zero_iff]

end Numbers

/-! ### The tables -/

section Tables

variable {α : Type*} {id : α → ℕ}

theorem idMap_append (l : List α) (v : α) :
    idMap id (l ++ [v]) = insertId id (idMap id l) v := List.foldl_append

/-- The keys of a table are the low bits of the numbers. -/
theorem mem_keys_idMap {l : List α} {key : ℕ} :
    key ∈ (idMap id l).map Prod.fst ↔ ∃ v ∈ l, id v % 2 ^ 32 = key := by
  induction l using List.reverseRecOn with
  | nil => simp [idMap]
  | append_singleton l v ih =>
    simp only [List.mem_append, List.mem_singleton, or_and_right, exists_or, exists_eq_left]
    rw [← ih, idMap_append, insertId]
    split_ifs with hmem
    · refine ⟨Or.inl, fun h => h.elim (fun h => h) fun h => h ▸ hmem⟩
    · rw [List.map_append, List.mem_append, List.map_singleton, List.mem_singleton, eq_comm]

/-- **What a table answers**: the first value whose number has the key as its low 32 bits. -/
theorem lookup_idMap (l : List α) (key : ℕ) :
    (idMap id l).lookup key = l.find? fun v => id v % 2 ^ 32 = key := by
  induction l using List.reverseRecOn with
  | nil => rfl
  | append_singleton l v ih =>
    rw [idMap_append, List.find?_append, ← ih, insertId]
    split_ifs with hmem
    · -- the key of `v` is taken: if it is the one looked up, an earlier value has it
      by_cases hv : id v % 2 ^ 32 = key
      · obtain ⟨w, hw, hkey⟩ := mem_keys_idMap.mp hmem
        have hsome : (l.find? fun v => id v % 2 ^ 32 = key).isSome :=
          List.find?_isSome.mpr ⟨w, hw, by simpa using hkey.trans hv⟩
        rw [ih, Option.or_of_isSome hsome]
      · rw [List.find?_cons_of_neg (by simpa using hv), List.find?_nil, Option.or_none]
    · rw [List.lookup_append]
      congr 1
      by_cases hv : id v % 2 ^ 32 = key
      · rw [List.find?_cons_of_pos (by simpa using hv), hv, List.lookup_cons_self]
      · rw [List.find?_cons_of_neg (by simpa using hv), List.lookup_cons,
          beq_false_of_ne (Ne.symm hv)]
        rfl

/-- A table of values with distinct keys has them all. -/
theorem length_idMap {l : List α} (h : (l.map fun v => id v % 2 ^ 32).Nodup) :
    (idMap id l).length = l.length := by
  induction l using List.reverseRecOn with
  | nil => rfl
  | append_singleton l v ih =>
    rw [List.map_append, List.nodup_append] at h
    have hnot : id v % 2 ^ 32 ∉ (idMap id l).map Prod.fst := by
      intro hmem
      obtain ⟨w, hw, hkey⟩ := mem_keys_idMap.mp hmem
      exact h.2.2 _ (List.mem_map_of_mem hw) _ List.mem_cons_self hkey
    rw [idMap_append, insertId, if_neg hnot, List.length_append, List.length_append, ih h.1]
    rfl

end Tables

/-- A pair of the result was looked up. -/
theorem mem_of_pairUp {first : List InstPtr} {table : List (ℕ × InstPtr)}
    {key id₁ id₂ : InstPtr → ℕ} {m : List (InstPtr × InstPtr)}
    (h : pairUp first table key id₁ id₂ = some m) {a b : InstPtr} (hab : (a, b) ∈ m) :
    table.lookup (key a % 2 ^ 32) = some b := by
  replace h := (Option.ite_none_left_eq_some.mp h).2
  induction first generalizing m with
  | nil =>
    obtain rfl := Option.some.inj h
    exact absurd hab List.not_mem_nil
  | cons x first ih =>
    rw [List.mapM_cons] at h
    obtain ⟨y, hy, h⟩ := Option.bind_eq_some_iff.mp h
    obtain ⟨rest, hrest, h⟩ := Option.bind_eq_some_iff.mp h
    obtain rfl := Option.some.inj h
    rcases List.mem_cons.mp hab with rfl | hab
    · obtain ⟨z, hz, hcheck⟩ := Option.bind_eq_some_iff.mp hy
      obtain ⟨-, heq⟩ := Option.ite_none_right_eq_some.mp hcheck
      obtain ⟨rfl, rfl⟩ := Prod.mk.inj (Option.some.inj heq)
      exact hz
    · exact ih hab hrest

/-- The result when every lookup gives the counterpart. -/
theorem pairUp_eq_some {first : List InstPtr} {table : List (ℕ × InstPtr)}
    {key id₁ id₂ : InstPtr → ℕ} {partner : InstPtr → InstPtr} (hlen : first.length < 2 ^ 32)
    (h : ∀ a ∈ first, table.lookup (key a % 2 ^ 32) = some (partner a) ∧ id₁ a = id₂ (partner a)) :
    pairUp first table key id₁ id₂ = some (first.map fun a => (a, partner a)) := by
  rw [pairUp, if_neg (Nat.not_le.mpr hlen)]
  clear hlen
  induction first with
  | nil => rfl
  | cons x first ih =>
    obtain ⟨⟨hlook, hid⟩, h⟩ := List.forall_mem_cons.mp h
    rw [List.mapM_cons, ih h, hlook]
    show (if id₁ x = id₂ (partner x) then some (x, partner x) else none).bind _ = _
    rw [if_pos hid]
    rfl

/-! ### Counterparts -/

section Counterparts

variable {c : Bool → Clone} {F : Inlined} {k : Kind}

/-- The counterpart of a marked instruction of the first clone. -/
def partner (c : Bool → Clone) (k : Kind) (a : InstPtr) : InstPtr :=
  (marked c k true).getD ((marked c k false).idxOf a) a

variable {i : ℕ} {a b : InstPtr} {m : List (InstPtr × InstPtr)}

/-- Places are unique. -/
theorem place_unique {v : Bool} {j : ℕ} (hi : (marked c k v)[i]? = some a)
    (hj : (marked c k v)[j]? = some a) : i = j := by
  obtain ⟨hlt, -⟩ := List.getElem?_eq_some_iff.mp hi
  exact (List.getElem?_inj hlt (marked_nodup c k v)).mp (hi.trans hj.symm)

/-- Both clones have an instruction at every place. -/
theorem counterpart_partner (hc : Correspond c) (hi : (marked c k false)[i]? = some a) :
    (marked c k true)[i]? = some (partner c k a) := by
  obtain ⟨hlt, hget⟩ := List.getElem?_eq_some_iff.mp hi
  have hidx : (marked c k false).idxOf a = i := by
    rw [← hget]
    exact (marked_nodup c k false).idxOf_getElem i hlt
  have hlt' : i < (marked c k true).length := hc k ▸ hlt
  rw [partner, hidx, List.getD_eq_getElem?_getD, List.getElem?_eq_getElem hlt', Option.getD_some]

theorem counterpart_iff (hc : Correspond c) :
    Counterpart c k a b ↔ a ∈ marked c k false ∧ b = partner c k a := by
  constructor
  · rintro ⟨i, hi, hb⟩
    rw [counterpart_partner hc hi] at hb
    exact ⟨List.mem_of_getElem? hi, (Option.some.inj hb).symm⟩
  · rintro ⟨ha, rfl⟩
    obtain ⟨i, hi⟩ := List.mem_iff_getElem?.mp ha
    exact ⟨i, hi, counterpart_partner hc hi⟩

theorem length_bucket (c : Bool → Clone) (F : Inlined) (k : Kind) :
    (bucket c F k false).length = F.insts.countP (· ∈ marked c k false) := by
  rw [bucket_eq, List.countP_eq_length_filter]

theorem mem_bucket {v : Bool} : a ∈ bucket c F k v ↔ a ∈ F.insts ∧ a ∈ marked c k v := by
  rw [bucket_eq, List.mem_filter, decide_eq_true_eq]

/-- A value that alone passes the test is found. -/
theorem find?_eq_some_of_unique {α : Type*} {l : List α} {test : α → Bool} {b : α} (hb : b ∈ l)
    (ht : test b) (huniq : ∀ x ∈ l, test x → x = b) : l.find? test = some b := by
  obtain ⟨x, hx⟩ := Option.isSome_iff_exists.mp (List.find?_isSome.mpr ⟨b, hb, ht⟩)
  rw [hx, huniq x (List.mem_of_find?_eq_some hx) (List.find?_some hx)]

section Distinct

variable (hF : KeepsTogether c F) (hd : DistinctKeys c F)

include hF hd

/-- With distinct keys, the second table answers with the counterpart. -/
theorem lookup_partner (hc : Correspond c) {i : ℕ} {a : InstPtr} (ha : a ∈ F.insts)
    (hi : (marked c k false)[i]? = some a) :
    (cloneIDMap c F k true).lookup ((i + 1) % 2 ^ 32) = some (partner c k a) := by
  have hp := counterpart_partner hc hi
  have hmem : partner c k a ∈ bucket c F k true :=
    mem_bucket.mpr ⟨(hF.together k a _ ⟨i, hi, hp⟩).mp ha, List.mem_of_getElem? hp⟩
  rw [cloneIDMap, lookup_idMap]
  refine find?_eq_some_of_unique hmem (by simp [hybryID_eq hp]) fun b hb hkey => ?_
  obtain ⟨hbF, hbm⟩ := mem_bucket.mp hb
  obtain ⟨j, hj⟩ := List.mem_iff_getElem?.mp hbm
  -- the instruction at place `j` of the first clone is left too
  obtain ⟨hlt, -⟩ := List.getElem?_eq_some_iff.mp hj
  have hlt' : j < (marked c k false).length := (hc k).symm ▸ hlt
  have hj' := List.getElem?_eq_getElem hlt'
  have hleft := (hF.together k _ b ⟨j, hj', hj⟩).mpr hbF
  rw [hybryID_eq hj, decide_eq_true_eq] at hkey
  have hij : i = j := hd k i j a _ hi hj' ha hleft (by omega)
  subst hij
  exact Option.some.inj (hj.symm.trans hp)

/-- With distinct keys, the first table has all instructions. -/
theorem length_cloneIDMap : (cloneIDMap c F k false).length = (bucket c F k false).length := by
  refine length_idMap ?_
  have hnodup : (bucket c F k false).Nodup := by
    rw [bucket_eq]
    exact hF.once.filter _
  refine List.Nodup.map_on (fun a ha b hb heq => ?_) hnodup
  obtain ⟨haF, ham⟩ := mem_bucket.mp ha
  obtain ⟨hbF, hbm⟩ := mem_bucket.mp hb
  obtain ⟨i, hi⟩ := List.mem_iff_getElem?.mp ham
  obtain ⟨j, hj⟩ := List.mem_iff_getElem?.mp hbm
  rw [hybryID_eq hi, hybryID_eq hj] at heq
  have hij : i = j := hd k i j a b hi hj haF hbF (by omega)
  subst hij
  exact Option.some.inj (hi.symm.trans hj)

/-- **The map of a kind** when the keys are distinct and the loop ends. -/
theorem artifactsOf_eq (hc : Correspond c) (hend : LoopsEnd c F) :
    artifactsOf c F k = some ((bucket c F k false).map fun a => (a, partner c k a)) := by
  have hlook : ∀ a ∈ bucket c F k false, ∃ i, (marked c k false)[i]? = some a ∧
      (marked c k true)[i]? = some (partner c k a) ∧
      (cloneIDMap c F k true).lookup ((i + 1) % 2 ^ 32) = some (partner c k a) := by
    intro a ha
    obtain ⟨haF, ham⟩ := mem_bucket.mp ha
    obtain ⟨i, hi⟩ := List.mem_iff_getElem?.mp ham
    exact ⟨i, hi, counterpart_partner hc hi, lookup_partner hF hd hc haF hi⟩
  have hlen : (bucket c F k false).length < 2 ^ 32 := length_bucket c F k ▸ hend k
  have hprep : ∀ a ∈ bucket c F k false,
      (cloneIDMap c F k true).lookup (getAssignedID (hybprepIDs c k) a % 2 ^ 32) =
        some (partner c k a) ∧
      getAssignedID (hybprepIDs c k) a = getAssignedID (hybprepIDs c k) (partner c k a) := by
    intro a ha
    obtain ⟨i, hi, hp, h⟩ := hlook a ha
    rw [hybprepID_eq hi, hybprepID_eq hp]
    exact ⟨h, rfl⟩
  cases k with
  | libCall =>
    refine pairUp_eq_some hlen fun a ha => ?_
    obtain ⟨i, hi, hp, h⟩ := hlook a ha
    rw [hybryID_eq hi, hybryID_eq hp]
    exact ⟨h, rfl⟩
  | callInst =>
    rw [artifactsOf, length_cloneIDMap hF hd, List.take_length]
    exact pairUp_eq_some hlen hprep
  | locals =>
    rw [artifactsOf, length_cloneIDMap hF hd, List.take_length]
    exact pairUp_eq_some hlen hprep

end Distinct

/-- That map pairs exactly. -/
theorem pairsExactly_partner (hc : Correspond c) (hF : KeepsTogether c F) :
    PairsExactly c F k ((bucket c F k false).map fun a => (a, partner c k a)) := by
  have hnodup : (bucket c F k false).Nodup := by
    rw [bucket_eq]
    exact hF.once.filter _
  refine ⟨fun a b => ?_, ?_, ?_⟩
  · rw [counterpart_iff hc, ← and_assoc, ← mem_bucket, List.mem_map]
    constructor
    · rintro ⟨x, hx, heq⟩
      obtain ⟨rfl, rfl⟩ := Prod.mk.inj heq
      exact ⟨hx, rfl⟩
    · rintro ⟨ha, rfl⟩
      exact ⟨a, ha, rfl⟩
  · rw [List.map_map]
    exact (List.map_id (bucket c F k false)).symm ▸ hnodup
  · rw [List.map_map]
    refine List.Nodup.map_on (fun a ha b hb heq => ?_) hnodup
    obtain ⟨i, hi⟩ := List.mem_iff_getElem?.mp (mem_bucket.mp ha).2
    obtain ⟨j, hj⟩ := List.mem_iff_getElem?.mp (mem_bucket.mp hb).2
    have hpi := counterpart_partner hc hi
    have hpj := counterpart_partner hc hj
    rw [show partner c k a = partner c k b from heq] at hpi
    obtain rfl := place_unique hpi hpj
    exact Option.some.inj (hi.symm.trans hj)

/-- In each kind, the pairs come from lookups by place. -/
theorem lookup_of_mem_artifacts (h : artifactsOf c F k = some m) (hab : (a, b) ∈ m)
    (hi : (marked c k false)[i]? = some a) :
    (cloneIDMap c F k true).lookup ((i + 1) % 2 ^ 32) = some b := by
  cases k with
  | libCall =>
    have hlook := mem_of_pairUp h hab
    rwa [hybryID_eq hi] at hlook
  | callInst =>
    have hlook := mem_of_pairUp h hab
    rwa [hybprepID_eq hi] at hlook
  | locals =>
    have hlook := mem_of_pairUp h hab
    rwa [hybprepID_eq hi] at hlook

/-- The loop of a kind that has ended. -/
theorem countP_lt_of_artifactsOf (hF : KeepsTogether c F) (h : artifactsOf c F k = some m)
    (hd : DistinctKeys c F) : F.insts.countP (· ∈ marked c k false) < 2 ^ 32 := by
  have hloop : ∀ {first table} {key id₁ id₂ : InstPtr → ℕ},
      pairUp first table key id₁ id₂ = some m → first.length < 2 ^ 32 :=
    fun h => Nat.not_le.mp (Option.ite_none_left_eq_some.mp h).1
  rw [← length_bucket]
  cases k with
  | libCall => exact hloop h
  | callInst =>
    have hlt := hloop h
    rwa [length_cloneIDMap hF hd, List.take_length] at hlt
  | locals =>
    have hlt := hloop h
    rwa [length_cloneIDMap hF hd, List.take_length] at hlt

/-- A map that pairs exactly has distinct keys. -/
theorem distinct_of_pairsExactly (hc : Correspond c) (h : artifactsOf c F k = some m)
    (hm : PairsExactly c F k m) {j : ℕ} (hi : (marked c k false)[i]? = some a)
    (hj : (marked c k false)[j]? = some b) (ha : a ∈ F.insts) (hb : b ∈ F.insts)
    (hkey : i % 2 ^ 32 = j % 2 ^ 32) : i = j := by
  have hpi := counterpart_partner hc hi
  have hpj := counterpart_partner hc hj
  have hlook := lookup_of_mem_artifacts h ((hm.pairs a _).mpr ⟨ha, i, hi, hpi⟩) hi
  have hlook' := lookup_of_mem_artifacts h ((hm.pairs b _).mpr ⟨hb, j, hj, hpj⟩) hj
  rw [show (i + 1) % 2 ^ 32 = (j + 1) % 2 ^ 32 by omega, hlook'] at hlook
  rw [Option.some.inj hlook] at hpj
  exact place_unique hpi hpj

end Counterparts

/-- The maps of artifacts that are paired correctly. -/
theorem exists_pairsExactly {c : Bool → Clone} {F : Inlined} (h : PairedCorrectly c F) (k : Kind) :
    ∃ m, artifactsOf c F k = some m ∧ PairsExactly c F k m := by
  obtain ⟨-, A, hA, hlib, hcall, hloc⟩ := h
  rw [getCloneArtifacts] at hA
  split_ifs at hA
  obtain ⟨m₁, h₁, hA⟩ := Option.bind_eq_some_iff.mp hA
  obtain ⟨m₂, h₂, hA⟩ := Option.bind_eq_some_iff.mp hA
  obtain ⟨m₃, h₃, hA⟩ := Option.bind_eq_some_iff.mp hA
  obtain rfl := Option.some.inj hA
  cases k with
  | libCall => exact ⟨m₁, h₁, hlib⟩
  | callInst => exact ⟨m₂, h₂, hcall⟩
  | locals => exact ⟨m₃, h₃, hloc⟩

theorem distinctKeys_of_paired {c : Bool → Clone} {F : Inlined} (hc : Correspond c)
    (h : PairedCorrectly c F) : DistinctKeys c F := by
  intro k i j a b hi hj ha hb hkey
  obtain ⟨m, hm, hpairs⟩ := exists_pairsExactly h k
  exact distinct_of_pairsExactly hc hm hpairs hi hj ha hb hkey

/-- Clones with at most `2 ^ 32` instructions of each kind have distinct keys. -/
theorem distinctKeys_of_length_le {c : Bool → Clone}
    (h : ∀ k, (marked c k false).length ≤ 2 ^ 32) (F : Inlined) : DistinctKeys c F := by
  intro k i j a b hi hj _ _ hkey
  obtain ⟨hi, -⟩ := List.getElem?_eq_some_iff.mp hi
  obtain ⟨hj, -⟩ := List.getElem?_eq_some_iff.mp hj
  have hle := h k
  omega

/-- **When the artifacts are paired correctly.**  For all clones that correspond and all results of
    inlining that keep or drop counterparts together: the three maps are right, and no assertion
    fails, if and only if the places of what is left differ in their low 32 bits and fewer than
    `2 ^ 32` instructions of a kind are left. -/
theorem paired_iff_distinctKeys {c : Bool → Clone} {F : Inlined} (hc : Correspond c)
    (hF : KeepsTogether c F) : PairedCorrectly c F ↔ DistinctKeys c F ∧ LoopsEnd c F := by
  refine ⟨fun h => ?_, fun ⟨hd, hend⟩ => ?_⟩
  · have hd := distinctKeys_of_paired hc h
    refine ⟨hd, fun k => ?_⟩
    obtain ⟨m, hm, -⟩ := exists_pairsExactly h k
    exact countP_lt_of_artifactsOf hF hm hd
  · have hinline : inlineCloneCalls c = true := by
      rw [inlineCloneCalls, List.all_eq_true]
      intro k _
      rw [decide_eq_true_eq, cloneList_eq, cloneList_eq]
      exact hc k
    have hpairs : ∀ k, PairsExactly c F k ((bucket c F k false).map fun a => (a, partner c k a)) :=
      fun k => pairsExactly_partner hc hF
    refine ⟨hinline, ⟨_, _, _⟩, ?_, hpairs .libCall, hpairs .callInst, hpairs .locals⟩
    rw [getCloneArtifacts, hF.entry, artifactsOf_eq hF hd hc hend, artifactsOf_eq hF hd hc hend,
      artifactsOf_eq hF hd hc hend]
    rfl

/-- The function with both clones inlined whole. -/
def inlinedWhole (c : Bool → Clone) : Inlined := ⟨true, instsOf c false ++ instsOf c true⟩

theorem mem_inlinedWhole {c : Bool → Clone} {k : Kind} {v : Bool} {p : InstPtr}
    (h : p ∈ marked c k v) : p ∈ (inlinedWhole c).insts := by
  have hmem : p ∈ instsOf c v := List.mem_of_mem_filter h
  cases v with
  | false => exact List.mem_append_left _ hmem
  | true => exact List.mem_append_right _ hmem

theorem keepsTogether_inlinedWhole (c : Bool → Clone) : KeepsTogether c (inlinedWhole c) where
  entry := rfl
  once := by
    refine List.nodup_append.mpr ⟨instsOf_nodup c false, instsOf_nodup c true, ?_⟩
    rintro a ha b hb rfl
    have hfst := (mem_instsOf.mp ha).1.symm.trans (mem_instsOf.mp hb).1
    exact absurd hfst nofun
  together k a b h := by
    obtain ⟨i, hi, hj⟩ := h
    exact iff_of_true (mem_inlinedWhole (List.mem_of_getElem? hi))
      (mem_inlinedWhole (List.mem_of_getElem? hj))

/-- A library call, a call and a slot; the second clone has a checkpoint hook in front. -/
def smallClones : Bool → Clone
  | false => ⟨[⟨false, false, false, true⟩, ⟨true, true, true, true⟩, ⟨true, false, true, false⟩],
      by decide⟩
  | true => ⟨[⟨true, false, false, false⟩, ⟨false, false, false, true⟩, ⟨true, true, true, true⟩,
      ⟨true, false, true, false⟩], by decide⟩

/-- Their artifacts are paired, although the hook shifts the places in the second clone. -/
theorem paired_iff_distinctKeys_small :
    PairedCorrectly smallClones (inlinedWhole smallClones) := by
  have hc : Correspond smallClones := by
    intro k
    cases k <;> decide
  have hsmall : ∀ k, (marked smallClones k false).length ≤ 2 ^ 32 := by
    intro k
    cases k <;> decide
  have hend : LoopsEnd smallClones (inlinedWhole smallClones) :=
    fun k => Nat.lt_of_le_of_lt List.countP_le_length (by decide)
  exact (paired_iff_distinctKeys hc (keepsTogether_inlinedWhole _)).mpr
    ⟨distinctKeys_of_length_le hsmall _, hend⟩

/-! ### Clones that are equal -/

/-- The places of a kind in a list of instructions. -/
def placesOf (k : Kind) (insts : List CloneInst) : List ℕ :=
  (List.range insts.length).filter fun i => (insts[i]?).any k.marks

theorem marked_eq_placesOf (c : Bool → Clone) (k : Kind) (v : Bool) :
    marked c k v = (placesOf k (c v).insts).map (v, ·) := by
  rw [marked, instsOf, List.filter_map]
  rfl

/-- Equal clones correspond. -/
theorem correspond_of_eq {c : Bool → Clone} (h : c false = c true) : Correspond c := by
  intro k
  rw [marked_eq_placesOf, marked_eq_placesOf, h, List.length_map, List.length_map]

/-- Counterparts of equal clones are at the same place. -/
theorem Counterpart.same_place {c : Bool → Clone} (h : c false = c true) {k : Kind}
    {a b : InstPtr} (hab : Counterpart c k a b) : ∃ i, a = (false, i) ∧ b = (true, i) := by
  obtain ⟨n, ha, hb⟩ := hab
  rw [marked_eq_placesOf, List.getElem?_map, Option.map_eq_some_iff] at ha hb
  obtain ⟨i, hi, rfl⟩ := ha
  obtain ⟨j, hj, rfl⟩ := hb
  rw [h, hj] at hi
  exact ⟨j, by rw [Option.some.inj hi], rfl⟩

/-- Two clones of `n` library calls. -/
def callsClones (n : ℕ) (h : n < 2 ^ 64) : Bool → Clone :=
  fun _ => ⟨List.replicate n ⟨true, true, true, false⟩, by rwa [List.length_replicate]⟩

/-- All instructions are marked as library calls. -/
theorem marked_callsClones {n : ℕ} (h : n < 2 ^ 64) (v : Bool) :
    marked (callsClones n h) .libCall v = (List.range n).map (v, ·) := by
  have hinsts : instsOf (callsClones n h) v = (List.range n).map (v, ·) := by
    rw [instsOf]
    simp [callsClones]
  rw [marked, List.filter_eq_self.mpr, hinsts]
  intro p hp
  rw [hinsts] at hp
  obtain ⟨i, hi, rfl⟩ := List.mem_map.mp hp
  have hi := List.mem_range.mp hi
  simp [holdsAt, callsClones, hi, Kind.marks]

/-- The function in which inlining leaves the first instruction and the one at place `n`. -/
def inlinedEnds (n : ℕ) : Inlined := ⟨true, [(false, 0), (false, n), (true, 0), (true, n)]⟩

/-- **The failure.**  Of `2 ^ 32 + 1` library calls the first and the last are left: the last has
    the key of the first, and its assertion fails. -/
theorem key_taken_twice :
    Correspond (callsClones (2 ^ 32 + 1) (by decide)) ∧
      KeepsTogether (callsClones (2 ^ 32 + 1) (by decide)) (inlinedEnds (2 ^ 32)) ∧
      LoopsEnd (callsClones (2 ^ 32 + 1) (by decide)) (inlinedEnds (2 ^ 32)) ∧
      ¬ PairedCorrectly (callsClones (2 ^ 32 + 1) (by decide)) (inlinedEnds (2 ^ 32)) := by
  have hc : Correspond (callsClones (2 ^ 32 + 1) (by decide)) := correspond_of_eq rfl
  refine ⟨hc, ⟨rfl, by decide, fun k a b hab => ?_⟩,
    fun k => Nat.lt_of_le_of_lt List.countP_le_length (by decide), fun h => ?_⟩
  · obtain ⟨i, rfl, rfl⟩ := hab.same_place rfl
    simp [inlinedEnds]
  · have hplace : ∀ i ≤ 2 ^ 32,
        (marked (callsClones (2 ^ 32 + 1) (by decide)) .libCall false)[i]? = some (false, i) := by
      intro i hi
      rw [marked_callsClones, List.getElem?_map, List.getElem?_range (by omega)]
      rfl
    have hsame := distinctKeys_of_paired hc h .libCall 0 (2 ^ 32) _ _ (hplace 0 (Nat.zero_le _))
      (hplace (2 ^ 32) le_rfl) (by simp [inlinedEnds]) (by simp [inlinedEnds])
      (by rw [Nat.mod_self, Nat.zero_mod])
    omega

end Firestarter.CloneArtifacts
