import Mathlib.Algebra.Group.Nat.Defs
import Mathlib.Data.List.Nodup
import Mathlib.Logic.Function.Basic

namespace Firestarter.Passes

/-!
# Ids that passes attach to values

`PassUtil::assignIDs` numbers a list of values in the metadata of one namespace, and keeps the
last number it gave in a named node of the module, from which a later call may go on.

* `assignIDs_id_of_getElem?`: what the value at a position gets.
* `assignIDs_id_of_not_mem`: other values keep what they had.
-/

variable {α : Type*} [DecidableEq α]

/-- The metadata of one namespace.  `id` is 0 for a value without a node, as
    `getAssignedID` answers, and `lastId` is 0 without a holder. -/
structure Metadata (α : Type*) where
  id : α → ℕ
  lastId : ℕ

/-- A module with no node of the namespace. -/
def Metadata.empty : Metadata α := ⟨fun _ => 0, 0⟩

/-- `PassUtil::getAssignedID` -/
def getAssignedID (md : Metadata α) (v : α) : ℕ := md.id v

/-- `PassUtil::getNextUnassignedID`, which is the last id that was assigned. -/
def getNextUnassignedID (md : Metadata α) : ℕ := md.lastId

/-- The loop of `assignIDs`; ids are `uint64_t`. -/
def assignLoop : List α → Metadata α → Metadata α
  | [], md => md
  | v :: vs, md =>
    let next := (md.lastId + 1) % 2 ^ 64
    assignLoop vs ⟨Function.update md.id v next, next⟩

/-- Where `assignIDs` starts to count. -/
def firstID (md : Metadata α) (idStart : ℕ) (forceReset : Bool) : ℕ :=
  if !forceReset && getNextUnassignedID md ≠ 0 then getNextUnassignedID md else idStart

/-- `PassUtil::assignIDs` -/
def assignIDs (md : Metadata α) (elementsList : List α) (idStart : ℕ) (forceReset : Bool) :
    Metadata α :=
  assignLoop elementsList ⟨md.id, firstID md idStart forceReset⟩

variable {vs : List α} {v : α}

theorem assignLoop_id_of_not_mem (hv : v ∉ vs) (md : Metadata α) :
    (assignLoop vs md).id v = md.id v := by
  induction vs generalizing md with
  | nil => rfl
  | cons w vs ih =>
    rw [List.mem_cons, not_or] at hv
    rw [assignLoop, ih hv.2]
    exact Function.update_of_ne hv.1 _ _

theorem assignLoop_id_of_getElem? (hnodup : vs.Nodup) {i : ℕ} (hv : vs[i]? = some v)
    (md : Metadata α) : (assignLoop vs md).id v = (md.lastId + i + 1) % 2 ^ 64 := by
  induction vs generalizing i md with
  | nil => simp at hv
  | cons w vs ih =>
    rw [List.nodup_cons] at hnodup
    rw [assignLoop]
    cases i with
    | zero =>
      rw [List.getElem?_cons_zero, Option.some.injEq] at hv
      subst hv
      rw [assignLoop_id_of_not_mem hnodup.1]
      exact Function.update_self _ _ _
    | succ i =>
      rw [List.getElem?_cons_succ] at hv
      rw [ih hnodup.2 hv]
      show ((md.lastId + 1) % 2 ^ 64 + i + 1) % 2 ^ 64 = _
      omega

/-- **Assigned ids.**  The value at position `i` gets the id `i + 1` after the start. -/
theorem assignIDs_id_of_getElem? (md : Metadata α) (hnodup : vs.Nodup) {i : ℕ}
    (hv : vs[i]? = some v) (idStart : ℕ) (forceReset : Bool) :
    getAssignedID (assignIDs md vs idStart forceReset) v =
      (firstID md idStart forceReset + i + 1) % 2 ^ 64 :=
  assignLoop_id_of_getElem? hnodup hv _

/-- Values that are not in the list keep their node. -/
theorem assignIDs_id_of_not_mem (md : Metadata α) (hv : v ∉ vs) (idStart : ℕ) (forceReset : Bool) :
    getAssignedID (assignIDs md vs idStart forceReset) v = getAssignedID md v :=
  assignLoop_id_of_not_mem hv _

end Firestarter.Passes
