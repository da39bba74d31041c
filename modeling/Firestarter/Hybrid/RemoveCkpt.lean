import Mathlib.Data.List.TakeWhile
import Firestarter.Hybrid.PassModule
import Firestarter.Lib.Worklist

namespace Firestarter.Hybrid.RemoveCkpt

open Worklist
open HybRcvry (Callee isLibCallInst)

/-!
# Removing checkpointing after an irrecoverable call (`RcvryHelper.h`)

Behind a library call that cannot be recovered from, stores need no logging.  `removeCheckpointing`
searches the control-flow graph from the call on and deletes the `ltckpt_` calls it meets, up to
the next sentinel.  It follows branch instructions only, keeps one instruction iterator for all
blocks, and reads the name of the callee of every call it meets.

* `removeCheckpointing` — the code;
* `OnPath`, `RemovesExactly` — the instructions behind the call with no sentinel in between, and
  what the code is for;
* `scanFrom_eq` — the inner loop, by the scan of one block;
* `onPath_iff` — the paths, by the blocks that the search gets to.
-/

/-! ### Programs -/

/-- An instruction that does not end a block; the callee of an indirect call is `none`. -/
inductive Inst
  | call (callee : Option Callee)
  | other

/-- The end of a block: a branch instruction, or another terminator (`switch`, `invoke`, `ret`). -/
inductive Term (n : ℕ)
  | br (successors : List (Fin n))
  | other (successors : List (Fin n))

/-- A block. -/
structure BB (n : ℕ) where
  body : List Inst
  term : Term n

/-- A function with `n` blocks. -/
abbrev Code (n : ℕ) := Fin n → BB n

/-- An instruction iterator.  The terminator of a block stands behind its other instructions, and
    `end()` behind the terminator. -/
structure Pos (n : ℕ) where
  block : Fin n
  idx : ℕ
  deriving DecidableEq

/-! ### The code -/

/-- `isCkptSentinel`; `endOfWindowHook` is `none` for `NULL`. -/
def isCkptSentinel (endOfWindowHook : Option Callee) (callee : Option Callee) : Bool :=
  match endOfWindowHook with
  | none => isLibCallInst callee
  | some hook => callee = some hook

/-- The name contains `ltckpt_`. -/
def isLtckpt (F : Callee) : Bool := F.name.toList.tails.any ("ltckpt_".toList.isPrefixOf ·)

/-- Why there is no result: a null pointer or a bad iterator is used, or the model stops. -/
inductive Fault
  | undefinedBehaviour
  | outOfFuel
  deriving DecidableEq

section Code

variable (endOfWindowHook : Option Callee)

/-- The instructions from index `i` on, up to the terminator: the sentinel that ends the loop, if
    there is one, and the calls to delete; `none` if the callee of an indirect call is read. -/
def scanInsts (i : ℕ) : List Inst → Option (Option ℕ × List ℕ)
  | [] => some (none, [])
  | .other :: insts => scanInsts (i + 1) insts
  | .call callee :: insts =>
    if isCkptSentinel endOfWindowHook callee then some (some i, [])
    else
      match callee with
      | none => none
      | some F =>
        (scanInsts (i + 1) insts).map fun r => (r.1, if isLtckpt F then i :: r.2 else r.2)

variable {n : ℕ} (code : Code n)

/-- The successors that the terminator of a block adds to the queue. -/
def branchSuccessors (b : Fin n) : List (Fin n) :=
  match (code b).term with
  | .br successors => successors
  | .other _ => []

/-- `BI` and `instsToRemove`. -/
structure St (n : ℕ) where
  BI : Pos n
  instsToRemove : List (Pos n)

/-- The inner loop for the block `BB`, from the iterator `start`: it ends at a sentinel or at
    `BB->end()`, and runs past the end of any other block. -/
def scanFrom (BB : Fin n) (start : Pos n) (instsToRemove : List (Pos n)) :
    Except Fault (St n × List (Fin n)) :=
  match scanInsts endOfWindowHook start.idx ((code start.block).body.drop start.idx) with
  | none => .error .undefinedBehaviour
  | some (stop, found) =>
    let instsToRemove := instsToRemove ++ found.map (Pos.mk start.block)
    match stop with
    | some i => .ok (⟨⟨start.block, i⟩, instsToRemove⟩, [])
    | none =>
      if start.block = BB then
        .ok (⟨⟨BB, (code BB).body.length + 1⟩, instsToRemove⟩, branchSuccessors code BB)
      else .error .undefinedBehaviour

/-- One pass of the outer loop: the iterator is set to the start of the block, but only moved on
    if it is the block `parent` of the library call. -/
def visit (parent : Fin n) (st : St n) (BB : Fin n) : Except Fault (St n × List (Fin n)) :=
  if BB ≠ parent then scanFrom endOfWindowHook code BB ⟨BB, 0⟩ st.instsToRemove
  else if (code st.BI.block).body.length < st.BI.idx then .error .undefinedBehaviour
  else scanFrom endOfWindowHook code BB ⟨st.BI.block, st.BI.idx + 1⟩ st.instsToRemove

/-- `removeCheckpointing`: the instructions that are deleted. -/
def removeCheckpointing (libCallInst : Pos n) : Except Fault (List (Pos n)) :=
  (run (visit endOfWindowHook code libCallInst.block) .outOfFuel (n + 1) [libCallInst.block] []
    ⟨libCallInst, []⟩).map St.instsToRemove

end Code

/-! ### Paths -/

/-- The instruction is a sentinel. -/
def Inst.isSentinel (endOfWindowHook : Option Callee) : Inst → Bool
  | .call callee => isCkptSentinel endOfWindowHook callee
  | .other => false

/-- The instruction is a call of an `ltckpt_` function. -/
def Inst.isCkpt : Inst → Bool
  | .call (some F) => isLtckpt F
  | _ => false

/-- The instruction is an indirect call. -/
def Inst.isIndirect : Inst → Bool
  | .call none => true
  | _ => false

/-- All successors of a block. -/
def successors {n : ℕ} (code : Code n) (b : Fin n) : List (Fin n) :=
  match (code b).term with
  | .br successors | .other successors => successors

/-- The instructions on a path from the library call with no sentinel in front of them; `succ` are
    the edges that the path may take. -/
inductive OnPath (endOfWindowHook : Option Callee) {n : ℕ} (code : Code n)
    (succ : Fin n → List (Fin n)) (libCallInst : Pos n) : Pos n → Prop
  | first : OnPath endOfWindowHook code succ libCallInst ⟨libCallInst.block, libCallInst.idx + 1⟩
  | next {b : Fin n} {i : ℕ} {inst : Inst} (h : OnPath endOfWindowHook code succ libCallInst ⟨b, i⟩)
      (hinst : (code b).body[i]? = some inst) (hclear : inst.isSentinel endOfWindowHook = false) :
      OnPath endOfWindowHook code succ libCallInst ⟨b, i + 1⟩
  | jump {b s : Fin n}
      (h : OnPath endOfWindowHook code succ libCallInst ⟨b, (code b).body.length⟩)
      (hs : s ∈ succ b) : OnPath endOfWindowHook code succ libCallInst ⟨s, 0⟩

/-- An `ltckpt_` call, other than a sentinel. -/
def IsCkptAt (endOfWindowHook : Option Callee) {n : ℕ} (code : Code n) (pos : Pos n) : Prop :=
  ∃ inst, (code pos.block).body[pos.idx]? = some inst ∧ inst.isCkpt = true ∧
    inst.isSentinel endOfWindowHook = false

/-- **What `removeCheckpointing` is for**: it ends, and deletes once each `ltckpt_` call on a path
    from the library call that does not pass a sentinel. -/
def RemovesExactly (endOfWindowHook : Option Callee) {n : ℕ} (code : Code n) (libCallInst : Pos n) :
    Prop :=
  ∃ removed, removeCheckpointing endOfWindowHook code libCallInst = .ok removed ∧ removed.Nodup ∧
    ∀ pos, pos ∈ removed ↔
      OnPath endOfWindowHook code (successors code) libCallInst pos ∧
        IsCkptAt endOfWindowHook code pos

/-! ### The scan of a block -/

section Scan

variable (hook : Option Callee)

/-- The instructions in front of the first sentinel. -/
def clearPart (insts : List Inst) : List Inst :=
  insts.takeWhile fun inst => !inst.isSentinel hook

/-- The indices of `ltckpt_` calls, from `i` on. -/
def ckptIdxs : ℕ → List Inst → List ℕ
  | _, [] => []
  | i, inst :: insts =>
    if inst.isCkpt then i :: ckptIdxs (i + 1) insts else ckptIdxs (i + 1) insts

/-- **The scan of instructions**, by the part in front of the first sentinel. -/
theorem scanInsts_eq (i : ℕ) (insts : List Inst) :
    scanInsts hook i insts =
      if (clearPart hook insts).any Inst.isIndirect then none
      else some
        (if insts.any (Inst.isSentinel hook) then
          some (i + (clearPart hook insts).length) else none,
          ckptIdxs i (clearPart hook insts)) := by
  induction insts generalizing i with
  | nil => rfl
  | cons inst insts ih =>
    cases inst with
    | other =>
      have hclear : clearPart hook (.other :: insts) =
          .other :: clearPart hook insts := List.takeWhile_cons_of_pos rfl
      rw [scanInsts, ih, hclear]
      simp only [List.any_cons, Inst.isIndirect, Inst.isSentinel, Bool.false_or, ckptIdxs,
        Inst.isCkpt, List.length_cons, Nat.add_assoc, Nat.add_comm 1]
      rfl
    | call callee =>
      cases hsentinel : isCkptSentinel hook callee with
      | true =>
        have hclear : clearPart hook (.call callee :: insts) = [] :=
          List.takeWhile_cons_of_neg (by simp [Inst.isSentinel, hsentinel])
        have hscan : scanInsts hook i (.call callee :: insts) = some (some i, []) := by
          cases callee <;> exact if_pos hsentinel
        rw [hscan, hclear]
        simp [Inst.isSentinel, hsentinel, ckptIdxs]
      | false =>
        have hclear : clearPart hook (.call callee :: insts) =
            .call callee :: clearPart hook insts :=
          List.takeWhile_cons_of_pos (by simp [Inst.isSentinel, hsentinel])
        rw [hclear]
        cases callee with
        | none =>
          rw [scanInsts, hsentinel, if_neg Bool.false_ne_true]
          simp [Inst.isIndirect]
        | some F =>
          simp only [scanInsts, ih, List.any_cons, Inst.isIndirect, Inst.isSentinel, hsentinel,
            Bool.false_or, ckptIdxs, Inst.isCkpt, List.length_cons]
          split_ifs <;> simp_all [Nat.add_assoc, Nat.add_comm 1]

theorem mem_ckptIdxs {i j : ℕ} {insts : List Inst} :
    j ∈ ckptIdxs i insts ↔ i ≤ j ∧ ∃ inst, insts[j - i]? = some inst ∧ inst.isCkpt = true := by
  induction insts generalizing i with
  | nil => simp [ckptIdxs]
  | cons inst insts ih =>
    have hshift : ∀ hlt : i < j, (inst :: insts)[j - i]? = insts[j - (i + 1)]? := by
      intro hlt
      rw [show j - i = (j - (i + 1)) + 1 by omega, List.getElem?_cons_succ]
    have hstep : (j ∈ if inst.isCkpt then i :: ckptIdxs (i + 1) insts
        else ckptIdxs (i + 1) insts) ↔
        (j = i ∧ inst.isCkpt = true) ∨ j ∈ ckptIdxs (i + 1) insts := by
      by_cases hckpt : inst.isCkpt = true <;> simp [hckpt]
    rw [ckptIdxs, hstep, ih]
    constructor
    · rintro (⟨rfl, hckpt⟩ | ⟨hle, h⟩)
      · exact ⟨Nat.le_refl _, inst, by simp, hckpt⟩
      · exact ⟨by omega, by rwa [hshift (by omega)]⟩
    · rintro ⟨hle, h⟩
      by_cases heq : j = i
      · subst heq
        obtain ⟨inst', hinst, hckpt⟩ := h
        rw [Nat.sub_self, List.getElem?_cons_zero] at hinst
        exact .inl ⟨rfl, Option.some.inj hinst ▸ hckpt⟩
      · exact .inr ⟨by omega, by rwa [hshift (by omega)] at h⟩

theorem nodup_ckptIdxs (i : ℕ) (insts : List Inst) : (ckptIdxs i insts).Nodup := by
  induction insts generalizing i with
  | nil => exact List.nodup_nil
  | cons inst insts ih =>
    rw [ckptIdxs]
    split_ifs
    · refine List.nodup_cons.mpr ⟨fun hmem => ?_, ih (i + 1)⟩
      have := (mem_ckptIdxs.mp hmem).1
      omega
    · exact ih (i + 1)

end Scan

section Blocks

variable (hook : Option Callee) {n : ℕ} (code : Code n)

/-- How far a scan of the block `b` from index `i` gets: to a sentinel or the terminator. -/
def reach (b : Fin n) (i : ℕ) : ℕ :=
  i + (clearPart hook ((code b).body.drop i)).length

/-- The scan gets to the terminator. -/
def exits (b : Fin n) (i : ℕ) : Bool :=
  !((code b).body.drop i).any (Inst.isSentinel hook)

/-- The scan meets an indirect call. -/
def derefsNull (b : Fin n) (i : ℕ) : Bool :=
  (clearPart hook ((code b).body.drop i)).any Inst.isIndirect

/-- The `ltckpt_` calls that the scan meets. -/
def part (b : Fin n) (i : ℕ) : List (Pos n) :=
  (ckptIdxs i (clearPart hook ((code b).body.drop i))).map (Pos.mk b)

/-- Where the scan leaves the iterator. -/
def leaves (b : Fin n) (i : ℕ) : Pos n :=
  ⟨b, if exits hook code b i then (code b).body.length + 1
    else reach hook code b i⟩

/-- **The inner loop**, by the scan of the block that the iterator is in. -/
theorem scanFrom_eq (BB b : Fin n) (i : ℕ) (removed : List (Pos n)) :
    scanFrom hook code BB ⟨b, i⟩ removed =
      if derefsNull hook code b i = true ∨
          (exits hook code b i = true ∧ b ≠ BB) then
        .error .undefinedBehaviour
      else .ok (⟨leaves hook code b i, removed ++ part hook code b i⟩,
        if exits hook code b i then branchSuccessors code b else []) := by
  have hscan : scanInsts hook i ((code b).body.drop i) =
      if derefsNull hook code b i then none
      else some (if exits hook code b i then none
        else some (reach hook code b i),
          ckptIdxs i (clearPart hook ((code b).body.drop i))) := by
    rw [scanInsts_eq, derefsNull, exits, reach]
    cases ((code b).body.drop i).any (Inst.isSentinel hook) <;> rfl
  cases hnull : derefsNull hook code b i with
  | true => simp [scanFrom, hscan, hnull]
  | false =>
    cases hexits : exits hook code b i with
    | true =>
      by_cases hBB : b = BB
      · subst hBB
        simp [scanFrom, hscan, hnull, hexits, leaves, part]
      · simp [scanFrom, hscan, hnull, hexits, hBB]
    | false => simp [scanFrom, hscan, hnull, hexits, leaves, part]

theorem drop_clear {insts : List Inst} {m : ℕ} {inst : Inst}
    (h : (clearPart hook insts)[m]? = some inst) :
    insts[m]? = some inst ∧ inst.isSentinel hook = false := by
  have hclear : clearPart hook insts <+: insts := List.takeWhile_prefix _
  obtain ⟨rest, hrest⟩ := hclear
  obtain ⟨hlt, -⟩ := List.getElem?_eq_some_iff.mp h
  have hmem := List.mem_of_getElem? h
  refine ⟨?_, by simpa using List.mem_takeWhile_imp hmem⟩
  rw [← hrest, List.getElem?_append_left hlt, h]

variable {b : Fin n} {i : ℕ}

/-- What a scan passes is not a sentinel. -/
theorem clear_of_lt_reach {j : ℕ} (hle : i ≤ j) (hlt : j < reach hook code b i) :
    ∃ inst, (code b).body[j]? = some inst ∧ inst.isSentinel hook = false ∧
      (clearPart hook ((code b).body.drop i))[j - i]? = some inst := by
  rw [reach] at hlt
  have hget := List.getElem?_eq_getElem
    (show j - i < (clearPart hook ((code b).body.drop i)).length by omega)
  obtain ⟨hinst, hclear⟩ := drop_clear hook hget
  rw [List.getElem?_drop, show i + (j - i) = j by omega] at hinst
  exact ⟨_, hinst, hclear, hget⟩

theorem isSentinel_of_length {insts : List Inst} {inst : Inst}
    (h : insts[(clearPart hook insts).length]? = some inst) : inst.isSentinel hook = true := by
  induction insts with
  | nil => exact absurd h nofun
  | cons a insts ih =>
    cases ha : a.isSentinel hook with
    | true =>
      rw [clearPart, List.takeWhile_cons_of_neg (by simp [ha])] at h
      obtain rfl := Option.some.inj h
      exact ha
    | false =>
      rw [clearPart, List.takeWhile_cons_of_pos (by simp [ha]), List.length_cons,
        List.getElem?_cons_succ] at h
      exact ih h

/-- Where it stops is a sentinel or the terminator. -/
theorem isSentinel_reach {inst : Inst} (h : (code b).body[reach hook code b i]? = some inst) :
    inst.isSentinel hook = true := by
  rw [reach, ← List.getElem?_drop] at h
  exact isSentinel_of_length hook h

theorem reach_le (h : i ≤ (code b).body.length) : reach hook code b i ≤ (code b).body.length := by
  have hclear : clearPart hook ((code b).body.drop i) <+: (code b).body.drop i :=
    List.takeWhile_prefix _
  have hlen := hclear.length_le
  rw [List.length_drop] at hlen
  rw [reach]
  omega

theorem exits_iff (h : i ≤ (code b).body.length) :
    exits hook code b i = true ↔ reach hook code b i = (code b).body.length := by
  have hall : exits hook code b i = true ↔
      clearPart hook ((code b).body.drop i) = (code b).body.drop i := by
    rw [exits, clearPart, List.takeWhile_eq_self_iff]
    simp
  have hclear : clearPart hook ((code b).body.drop i) <+: (code b).body.drop i :=
    List.takeWhile_prefix _
  have hdrop : ((code b).body.drop i).length = (code b).body.length - i := List.length_drop
  rw [hall, reach]
  constructor
  · intro heq
    rw [heq]
    omega
  · intro heq
    exact hclear.eq_of_length (by omega)

/-- The `ltckpt_` calls of a scan. -/
theorem mem_part {pos : Pos n} :
    pos ∈ part hook code b i ↔
      pos.block = b ∧ i ≤ pos.idx ∧ pos.idx < reach hook code b i ∧
        IsCkptAt hook code pos := by
  obtain ⟨b', j⟩ := pos
  rw [part, List.mem_map]
  constructor
  · rintro ⟨j', hmem, heq⟩
    obtain ⟨rfl, rfl⟩ := Pos.mk.inj heq
    obtain ⟨hle, inst, hinst, hckpt⟩ := mem_ckptIdxs.mp hmem
    obtain ⟨hlt, -⟩ := List.getElem?_eq_some_iff.mp hinst
    obtain ⟨hbody, hclear⟩ := drop_clear hook hinst
    rw [List.getElem?_drop, show i + (j' - i) = j' by omega] at hbody
    refine ⟨rfl, hle, ?_, inst, hbody, hckpt, hclear⟩
    show j' < _
    rw [reach]
    omega
  · rintro ⟨rfl, hle, hlt, inst, hbody, hckpt, -⟩
    refine ⟨j, mem_ckptIdxs.mpr ⟨hle, ?_⟩, rfl⟩
    obtain ⟨inst', hbody', -, hget⟩ := clear_of_lt_reach hook code hle hlt
    obtain rfl := Option.some.inj (hbody.symm.trans hbody')
    exact ⟨inst, hget, hckpt⟩

theorem nodup_part (b : Fin n) (i : ℕ) : (part hook code b i).Nodup :=
  (nodup_ckptIdxs i _).map fun _ _ h => (Pos.mk.inj h).2

end Blocks

/-! ### Paths by blocks -/

section Paths

variable {hook : Option Callee} {n : ℕ} {code : Code n} {succ : Fin n → List (Fin n)}
  {site : Pos n}

/-- The index from which a block is first scanned. -/
def entry (site : Pos n) (b : Fin n) : ℕ := if b = site.block then site.idx + 1 else 0

/-- The edges of the search: those of the blocks that it leaves at the terminator. -/
def edges (hook : Option Callee) (code : Code n) (succ : Fin n → List (Fin n))
    (site : Pos n) (b : Fin n) : List (Fin n) :=
  if exits hook code b (entry site b) then succ b else []

/-- The search gets to the start of the block `b`. -/
def Entered (hook : Option Callee) (code : Code n) (succ : Fin n → List (Fin n))
    (site : Pos n) (b : Fin n) : Prop :=
  Relation.TransGen (fun a x => x ∈ edges hook code succ site a) site.block b

variable {b : Fin n} {i : ℕ}

/-- A later start of the scan gets at least as far. -/
theorem exits_mono (h : exits hook code b 0 = true) : exits hook code b i = true := by
  simp only [exits, List.drop_zero, Bool.not_eq_true', List.any_eq_false] at h ⊢
  exact fun inst hinst => h inst (List.mem_of_mem_drop hinst)

/-- An edge leads on from the terminator of a block that the search gets to. -/
theorem mem_edges_of_exits {s : Fin n} (hs : s ∈ succ b)
    (h : exits hook code b (entry site b) = true) : s ∈ edges hook code succ site b := by
  rwa [edges, if_pos h]

theorem edges_of_ne (hb : b ≠ site.block) :
    edges hook code succ site b = if exits hook code b 0 then succ b else [] := by
  rw [edges, entry, if_neg hb]

/-- A path goes on up to the next sentinel. -/
theorem OnPath.walk {j : ℕ} (h : OnPath hook code succ site ⟨b, i⟩) (hij : i ≤ j)
    (hj : j ≤ reach hook code b i) : OnPath hook code succ site ⟨b, j⟩ := by
  induction j, hij using Nat.le_induction with
  | base => exact h
  | succ j hij ih =>
    obtain ⟨inst, hinst, hclear, -⟩ := clear_of_lt_reach hook code hij hj
    exact (ih (Nat.le_of_succ_le hj)).next hinst hclear

/-- An `ltckpt_` call on a path is not where a scan stops. -/
theorem lt_reach_of_isCkptAt {pos : Pos n} (hckpt : IsCkptAt hook code pos)
    (hle : pos.idx ≤ reach hook code pos.block i) : pos.idx < reach hook code pos.block i := by
  obtain ⟨inst, hinst, -, hclear⟩ := hckpt
  refine Nat.lt_of_le_of_ne hle fun heq => ?_
  rw [heq] at hinst
  exact absurd (isSentinel_reach hook code hinst) (by simp [hclear])

variable (hsite : site.idx < (code site.block).body.length)
include hsite

theorem entry_le (b : Fin n) : entry site b ≤ (code b).body.length := by
  rw [entry]
  split_ifs with hb
  · rw [hb]
    omega
  · exact Nat.zero_le _

/-- The instructions of a block that a path gets to. -/
theorem onPath_cases {pos : Pos n} (h : OnPath hook code succ site pos) :
    (pos.block = site.block ∧ site.idx < pos.idx ∧
      pos.idx ≤ reach hook code site.block (site.idx + 1)) ∨
    (Entered hook code succ site pos.block ∧
      pos.idx ≤ reach hook code pos.block 0) := by
  induction h with
  | first => exact .inl ⟨rfl, Nat.lt_succ_self _, Nat.le_add_right _ _⟩
  | @next b i inst _ hinst hclear ih =>
    -- the instruction is not a sentinel, so it is not where the scan stops
    rcases ih with ⟨hb, hlt, hle⟩ | ⟨hentered, hle⟩
    · obtain rfl : b = site.block := hb
      refine .inl ⟨rfl, Nat.lt_succ_of_lt hlt, Nat.lt_of_le_of_ne hle ?_⟩
      rintro rfl
      exact absurd (isSentinel_reach hook code hinst) (by simp [hclear])
    · refine .inr ⟨hentered, Nat.lt_of_le_of_ne hle fun heq : i = reach _ _ b 0 => ?_⟩
      rw [heq] at hinst
      exact absurd (isSentinel_reach hook code hinst) (by simp [hclear])
  | @jump b s _ hs ih =>
    refine .inr ⟨?_, Nat.zero_le _⟩
    rcases ih with ⟨hb, -, hle⟩ | ⟨hentered, hle⟩
    · obtain rfl : b = site.block := hb
      refine .single (mem_edges_of_exits hs ?_)
      rw [entry, if_pos rfl, exits_iff hook code hsite]
      exact Nat.le_antisymm (reach_le hook code hsite) hle
    · refine .tail hentered (mem_edges_of_exits hs (exits_mono ?_))
      rw [exits_iff hook code (Nat.zero_le _)]
      exact Nat.le_antisymm (reach_le hook code (Nat.zero_le _)) hle

/-- A block that the search gets to is on a path. -/
theorem onPath_of_entered
    (h : Entered hook code succ site b) : OnPath hook code succ site ⟨b, 0⟩ := by
  -- a path to the start of a block, or behind the call, goes on to an edge of the block
  have hstep : ∀ a x, OnPath hook code succ site ⟨a, entry site a⟩ →
      x ∈ edges hook code succ site a →
      OnPath hook code succ site ⟨x, 0⟩ := by
    intro a x hpath hx
    rw [edges] at hx
    split_ifs at hx with hexits
    · have hreach := (exits_iff hook code (entry_le hsite a)).mp hexits
      exact (hpath.walk (entry_le hsite a) (Nat.le_of_eq hreach.symm)).jump hx
    · exact absurd hx List.not_mem_nil
  have hfirst : OnPath hook code succ site ⟨site.block, entry site site.block⟩ := by
    rw [entry, if_pos rfl]
    exact .first
  induction h with
  | single hedge => exact hstep _ _ hfirst hedge
  | @tail a x _ hedge ih =>
    by_cases ha : a = site.block
    · exact hstep a x (ha ▸ hfirst) hedge
    · refine hstep a x ?_ hedge
      rw [entry, if_neg ha]
      exact ih

/-- **Paths by blocks**: an instruction is on a path if it stands behind the library call in its
    block, or in a block that the search gets to, with no sentinel in front of it there. -/
theorem onPath_iff {pos : Pos n} :
    OnPath hook code succ site pos ↔
      (pos.block = site.block ∧ site.idx < pos.idx ∧
        pos.idx ≤ reach hook code site.block (site.idx + 1)) ∨
      (Entered hook code succ site pos.block ∧
        pos.idx ≤ reach hook code pos.block 0) := by
  refine ⟨onPath_cases hsite, ?_⟩
  obtain ⟨b, j⟩ := pos
  rintro (⟨rfl, hlt, hle⟩ | ⟨hentered, hle⟩)
  · exact OnPath.first.walk hlt hle
  · exact (onPath_of_entered hsite hentered).walk (Nat.zero_le j) hle

/-- The `ltckpt_` calls on paths, by the scans of the blocks. -/
theorem onPath_ckpt_iff {pos : Pos n} :
    OnPath hook code succ site pos ∧ IsCkptAt hook code pos ↔
      pos ∈ part hook code site.block (site.idx + 1) ∨
      (Entered hook code succ site pos.block ∧
        pos ∈ part hook code pos.block 0) := by
  rw [onPath_iff hsite, mem_part, mem_part]
  constructor
  · rintro ⟨⟨hb, hlt, hle⟩ | ⟨hentered, hle⟩, hckpt⟩
    · exact .inl ⟨hb, hlt, hb ▸ lt_reach_of_isCkptAt hckpt (hb.symm ▸ hle), hckpt⟩
    · exact .inr ⟨hentered, rfl, Nat.zero_le _, lt_reach_of_isCkptAt hckpt hle, hckpt⟩
  · rintro (⟨hb, hlt, hle, hckpt⟩ | ⟨hentered, -, -, hle, hckpt⟩)
    · exact ⟨.inl ⟨hb, hlt, Nat.le_of_lt hle⟩, hckpt⟩
    · exact ⟨.inr ⟨hentered, Nat.le_of_lt hle⟩, hckpt⟩

end Paths

end Firestarter.Hybrid.RemoveCkpt
