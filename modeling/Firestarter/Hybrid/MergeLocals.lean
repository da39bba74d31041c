import Mathlib.Data.List.Find
import Mathlib.Data.List.Induction
import Mathlib.Data.List.Nodup
import Mathlib.Logic.Function.Basic

namespace Firestarter.MergeLocals

/-!
# Sharing the locals of the two variants

After inlining, a function holds two variants of its body with a set of stack slots each.
`HybRcvryPass::mergeLocals` redirects the uses of the second variant's slots to the first's, except
those in the basic block of the slot itself.

* `mergeLocals`: the pass, on a function with instruction identities and a map of locals;
* `mergeLocals_eq`: it maps every instruction by `retargetAll`;
* `exec_eq_lastStore`: a slot holds what the last store to it wrote;
* `shared_iff_contained`: which functions end up with shared locals.
-/

/-- The operation of an instruction.  Values are named by numbers; the result of an instruction is
    the value of its identity. -/
inductive Op
  | alloca (allocatedType : ℕ)
  | load (ptr : ℕ)
  | store (val ptr : ℕ)
  | user (operands : List ℕ)
  deriving DecidableEq, Repr

/-- The operands of an instruction. -/
def Op.operands : Op → List ℕ
  | .alloca _ => []
  | .load ptr => [ptr]
  | .store val ptr => [val, ptr]
  | .user operands => operands

/-- An instruction, with its basic block and type. -/
structure Inst where
  id : ℕ
  parent : ℕ
  type : ℕ
  op : Op
  deriving DecidableEq, Repr

/-- `User::replaceUsesOfWith`. -/
def Op.replaceUsesOfWith (source target : ℕ) : Op → Op
  | .alloca t => .alloca t
  | .load ptr => .load (if ptr = source then target else ptr)
  | .store val ptr =>
    .store (if val = source then target else val) (if ptr = source then target else ptr)
  | .user operands => .user (operands.map fun v => if v = source then target else v)

/-- The instruction with identity `v`. -/
def instOf (F : List Inst) (v : ℕ) : Option Inst := F.find? (·.id = v)

/-- The treatment of one user of the second slot `p.2`: it is redirected to the first, unless it is
    in the basic block of the second. -/
def retarget (block : ℕ) (p : ℕ × ℕ) (I : Inst) : Inst :=
  if I.parent ≠ block then { I with op := I.op.replaceUsesOfWith p.2 p.1 } else I

/-- One iteration of `mergeLocals`.  `none` stands for a failed assertion, or a local that is no
    instruction. -/
def mergePair (F : List Inst) (p : ℕ × ℕ) : Option (List Inst) := do
  let l₀ ← instOf F p.1
  let l₁ ← instOf F p.2
  if l₀.type ≠ l₁.type then none
  else match l₀.op, l₁.op with
    | .alloca t₀, .alloca t₁ => if t₀ = t₁ then some (F.map (retarget l₁.parent p)) else none
    | .alloca _, _ => none
    | _, _ => some F

/-- `mergeLocals`: the pairs of the map, in the order of its keys. -/
def mergeLocals (F : List Inst) (m : List (ℕ × ℕ)) : Option (List Inst) := m.foldlM mergePair F

/-! ### Corresponding locals -/

/-- A pair of stack slots. -/
def IsSlotPair (F : List Inst) (p : ℕ × ℕ) : Prop :=
  ∃ l ∈ F, l.id = p.1 ∧ ∃ t, l.op = .alloca t

/-- **A map of corresponding locals.**  Both locals of a pair are instructions of the same type and,
    if one is a stack slot, slots of the same type; no local occurs twice. -/
structure Corresponding (F : List Inst) (m : List (ℕ × ℕ)) : Prop where
  ids : (F.map Inst.id).Nodup
  locals : ∀ p ∈ m, ∃ l₀ ∈ F, ∃ l₁ ∈ F, l₀.id = p.1 ∧ l₁.id = p.2 ∧ l₀.type = l₁.type ∧
    ∀ t, l₀.op = .alloca t ↔ l₁.op = .alloca t
  once : (m.map Prod.fst ++ m.map Prod.snd).Nodup

/-! ### Executions -/

/-- An executed access: the instruction before and after the pass, and the value that a store
    writes. -/
structure Event where
  before : Inst
  after : Inst
  value : ℕ

/-- The slots after an access. -/
def execOne (slots : ℕ → ℕ) (e : Event) : ℕ → ℕ :=
  match e.after.op with
  | .store _ ptr => Function.update slots ptr e.value
  | _ => slots

/-- The slots after some accesses. -/
def exec (es : List Event) : ℕ → ℕ := es.foldl execOne fun _ => 0

/-- Whether an instruction is a store to `v`. -/
def storesTo (I : Inst) (v : ℕ) : Bool :=
  match I.op with
  | .store _ ptr => ptr = v
  | _ => false

/-- The value of the last store to the local `p`, in either variant. -/
def lastStore (p : ℕ × ℕ) (es : List Event) : ℕ :=
  ((es.reverse.find? fun e => storesTo e.before p.1 || storesTo e.before p.2).map
    Event.value).getD 0

/-- **The variants share their locals.**  All accesses to a pair of slots go to one of the two, and
    in every sequence of accesses, of whichever variant, a load gets what the last store to its
    local wrote. -/
structure Shared (F : List Inst) (m : List (ℕ × ℕ)) (F' : List Inst) : Prop where
  common : ∀ p ∈ m, IsSlotPair F p →
    ∃ slot, ∀ I ∈ F', ∀ v ∈ I.op.operands, v = p.1 ∨ v = p.2 → v = slot
  loads : ∀ p ∈ m, IsSlotPair F p → ∀ es : List Event,
    (∀ e ∈ es, (e.before, e.after) ∈ F.zip F') →
    ∀ I I', (I, I') ∈ F.zip F' → ∀ v v', I.op = .load v → I'.op = .load v' → v = p.1 ∨ v = p.2 →
      exec es v' = lastStore p es

/-- **The condition on a pair.**  No use of the second slot is in the slot's own block; or all are,
    and the first slot has no use. -/
def Contained (F : List Inst) (p : ℕ × ℕ) : Prop :=
  (∀ l ∈ F, l.id = p.2 → ∀ I ∈ F, p.2 ∈ I.op.operands → I.parent ≠ l.parent) ∨
  (∀ l ∈ F, l.id = p.2 → ∀ I ∈ F, p.1 ∉ I.op.operands ∧
    (p.2 ∈ I.op.operands → I.parent = l.parent))

/-! ### Operands -/

/-- The operation with its operands renamed. -/
def Op.map (f : ℕ → ℕ) : Op → Op
  | .alloca t => .alloca t
  | .load ptr => .load (f ptr)
  | .store val ptr => .store (f val) (f ptr)
  | .user operands => .user (operands.map f)

theorem replaceUsesOfWith_eq_map (source target : ℕ) (o : Op) :
    o.replaceUsesOfWith source target = o.map fun v => if v = source then target else v := by
  cases o <;> rfl

theorem operands_map (f : ℕ → ℕ) (o : Op) : (o.map f).operands = o.operands.map f := by
  cases o <;> rfl

theorem map_map (f g : ℕ → ℕ) (o : Op) : (o.map f).map g = o.map (g ∘ f) := by
  cases o <;> simp [Op.map]

@[simp] theorem map_eq_self (o : Op) : (o.map fun v => v) = o := by
  cases o <;> simp [Op.map]

@[simp] theorem map_eq_alloca {f : ℕ → ℕ} {o : Op} {t : ℕ} :
    o.map f = .alloca t ↔ o = .alloca t := by
  cases o <;> simp [Op.map]

/-! ### The pass as a renaming -/

/-- The block of the second slot, if the pair is one of slots. -/
def slotBlock (F : List Inst) (p : ℕ × ℕ) : Option ℕ :=
  match instOf F p.1, instOf F p.2 with
  | some l₀, some l₁ => match l₀.op with
    | .alloca _ => some l₁.parent
    | _ => none
  | _, _ => none

/-- What one pair makes of an operand of an instruction in `block`. -/
def redirectOne (F : List Inst) (block v : ℕ) (p : ℕ × ℕ) : ℕ :=
  match slotBlock F p with
  | some b => if block ≠ b ∧ v = p.2 then p.1 else v
  | none => v

/-- What all pairs make of it. -/
def redirect (F : List Inst) (m : List (ℕ × ℕ)) (block v : ℕ) : ℕ :=
  m.foldl (redirectOne F block) v

/-- The instruction with its operands redirected. -/
def retargetAll (F : List Inst) (m : List (ℕ × ℕ)) (I : Inst) : Inst :=
  { I with op := I.op.map (redirect F m I.parent) }

/-- Redirecting operands keeps what `slotBlock` looks at. -/
theorem instOf_retargetAll (F : List Inst) (m : List (ℕ × ℕ)) (v : ℕ) (G : List Inst) :
    instOf (G.map (retargetAll F m)) v = (instOf G v).map (retargetAll F m) := by
  rw [instOf, List.find?_map]
  rfl

theorem slotBlock_retargetAll (F : List Inst) (m : List (ℕ × ℕ)) (p : ℕ × ℕ) (G : List Inst) :
    slotBlock (G.map (retargetAll F m)) p = slotBlock G p := by
  rw [slotBlock, instOf_retargetAll, instOf_retargetAll, slotBlock]
  cases instOf G p.1 with
  | none => rfl
  | some l₀ =>
    cases instOf G p.2 with
    | none => rfl
    | some l₁ =>
      obtain ⟨-, -, -, op⟩ := l₀
      cases op <;> rfl

/-- The parts of a map of corresponding locals that `F` keeps under a renaming. -/
theorem Corresponding.retargetAll {F : List Inst} {m : List (ℕ × ℕ)} (h : Corresponding F m)
    (G : List Inst) (n : List (ℕ × ℕ)) : Corresponding (F.map (retargetAll G n)) m where
  ids := by
    rw [List.map_map]
    exact h.ids
  locals p hp := by
    obtain ⟨l₀, h₀, l₁, h₁, hid₀, hid₁, htype, hop⟩ := h.locals p hp
    refine ⟨_, List.mem_map_of_mem h₀, _, List.mem_map_of_mem h₁, hid₀, hid₁, htype, fun t => ?_⟩
    exact map_eq_alloca.trans ((hop t).trans map_eq_alloca.symm)
  once := h.once

/-- A list without repeated identities finds an instruction by its own. -/
theorem instOf_eq {F : List Inst} (hids : (F.map Inst.id).Nodup) {l : Inst} (hl : l ∈ F) :
    instOf F l.id = some l := by
  induction F with
  | nil => exact absurd hl List.not_mem_nil
  | cons J F ih =>
    obtain ⟨hJ, hids⟩ := List.nodup_cons.mp hids
    rcases List.mem_cons.mp hl with rfl | hl
    · exact List.find?_cons_of_pos (by simp)
    · have hne : J.id ≠ l.id := fun heq => hJ (heq ▸ List.mem_map_of_mem hl)
      rw [instOf, List.find?_cons_of_neg (by simpa using hne)]
      exact ih hids hl

/-- **One pair** redirects the operands. -/
theorem mergePair_eq {F : List Inst} {p : ℕ × ℕ} (h : Corresponding F [p]) :
    mergePair F p = some (F.map (retargetAll F [p])) := by
  obtain ⟨l₀, h₀, l₁, h₁, hid₀, hid₁, htype, hop⟩ := h.locals p List.mem_cons_self
  have hi₀ : instOf F p.1 = some l₀ := hid₀ ▸ instOf_eq h.ids h₀
  have hi₁ : instOf F p.2 = some l₁ := hid₁ ▸ instOf_eq h.ids h₁
  rw [mergePair, hi₀, hi₁]
  show (if l₀.type ≠ l₁.type then none else _) = _
  rw [if_neg (not_not.mpr htype)]
  by_cases hslot : ∃ t, l₀.op = .alloca t
  · obtain ⟨t, ht⟩ := hslot
    have hblock : slotBlock F p = some l₁.parent := by
      rw [slotBlock, hi₀, hi₁]
      simp only [ht]
    rw [ht, (hop t).mp ht]
    show (if t = t then _ else none) = _
    rw [if_pos rfl]
    refine congrArg some (List.map_congr_left fun I _ => ?_)
    have hred : redirect F [p] I.parent =
        fun v => if I.parent ≠ l₁.parent ∧ v = p.2 then p.1 else v := by
      funext v
      simp only [redirect, List.foldl_cons, List.foldl_nil, redirectOne, hblock]
    rw [retarget, MergeLocals.retargetAll, hred]
    split_ifs with hI
    · simp only [replaceUsesOfWith_eq_map, hI, ne_eq, not_false_eq_true, true_and]
    · simp only [hI, false_and, if_false, map_eq_self]
  · have hnone : slotBlock F p = none := by
      rw [slotBlock, hi₀, hi₁]
      cases hop₀ : l₀.op with
      | alloca t => exact absurd ⟨t, hop₀⟩ hslot
      | _ => simp only [hop₀]
    have hid : F.map (MergeLocals.retargetAll F [p]) = F := by
      refine (List.map_congr_left fun I _ => ?_).trans (List.map_id F)
      have hred : redirect F [p] I.parent = fun v => v := by
        funext v
        simp only [redirect, List.foldl_cons, List.foldl_nil, redirectOne, hnone]
      rw [MergeLocals.retargetAll, hred, map_eq_self]
      rfl
    rw [hid]
    cases hop₀ : l₀.op with
    | alloca t => exact absurd ⟨t, hop₀⟩ hslot
    | _ => rfl

/-- **The pass** redirects the operands of every instruction. -/
theorem mergeLocals_eq {F : List Inst} {m : List (ℕ × ℕ)} (h : Corresponding F m) :
    mergeLocals F m = some (F.map (retargetAll F m)) := by
  induction m generalizing F with
  | nil =>
    have hid : F.map (retargetAll F []) = F := by
      refine (List.map_congr_left fun I _ => ?_).trans (List.map_id F)
      exact congrArg (fun op => ({ I with op } : Inst)) (map_eq_self I.op)
    rw [hid]
    rfl
  | cons p m ih =>
    have hone : Corresponding F [p] := by
      refine ⟨h.ids, fun q hq => h.locals q ?_, ?_⟩
      · exact List.mem_cons.mpr (Or.inl (List.mem_singleton.mp hq))
      · refine h.once.sublist ?_
        exact ((List.nil_sublist _).cons_cons p.1).append ((List.nil_sublist _).cons_cons p.2)
    have hrest : Corresponding F m := by
      refine ⟨h.ids, fun q hq => h.locals q (List.mem_cons_of_mem p hq), ?_⟩
      exact h.once.sublist ((List.sublist_cons_self ..).append (List.sublist_cons_self ..))
    rw [mergeLocals, List.foldlM_cons, mergePair_eq hone]
    show mergeLocals (F.map (retargetAll F [p])) m = _
    rw [ih (hrest.retargetAll F [p]), List.map_map]
    refine congrArg some (List.map_congr_left fun I _ => ?_)
    have hblocks : ∀ block, redirect (F.map (retargetAll F [p])) m block = redirect F m block := by
      intro block
      have hone : redirectOne (F.map (retargetAll F [p])) block = redirectOne F block := by
        funext v q
        rw [redirectOne, slotBlock_retargetAll, redirectOne]
      funext v
      rw [redirect, hone, redirect]
    simp only [Function.comp, retargetAll, hblocks, map_map]
    rfl

/-! ### What becomes of an operand -/

theorem redirectOne_snd (F : List Inst) (block : ℕ) (p : ℕ × ℕ) :
    redirectOne F block p.2 p = p.1 ∨ redirectOne F block p.2 p = p.2 := by
  rw [redirectOne]
  split
  · split_ifs
    · exact Or.inl rfl
    · exact Or.inr rfl
  · exact Or.inr rfl

section Redirect

variable {F : List Inst} {m : List (ℕ × ℕ)}

/-- A value that is no second local stays. -/
theorem redirect_of_notMem {v : ℕ} (hv : v ∉ m.map Prod.snd) (block : ℕ) :
    redirect F m block v = v := by
  induction m with
  | nil => rfl
  | cons p m ih =>
    rw [List.map_cons, List.mem_cons, not_or] at hv
    have hone : redirectOne F block v p = v := by
      rw [redirectOne]
      split
      · exact if_neg fun h => hv.1 h.2
      · rfl
    rw [redirect, List.foldl_cons, hone]
    exact ih hv.2

variable (h : (m.map Prod.fst ++ m.map Prod.snd).Nodup) {p : ℕ × ℕ} (hp : p ∈ m)

include h hp

theorem redirect_fst (block : ℕ) : redirect F m block p.1 = p.1 := by
  refine redirect_of_notMem (fun hmem => ?_) block
  exact (List.nodup_append.mp h).2.2 p.1 (List.mem_map_of_mem hp) p.1 hmem rfl

theorem fst_ne_snd : p.1 ≠ p.2 :=
  (List.nodup_append.mp h).2.2 p.1 (List.mem_map_of_mem hp) p.2 (List.mem_map_of_mem hp)

/-- The second local of a pair is redirected by its own pair only. -/
theorem redirect_snd (block : ℕ) : redirect F m block p.2 = redirectOne F block p.2 p := by
  obtain ⟨m₁, m₂, rfl⟩ := List.append_of_mem hp
  obtain ⟨-, hsnd, -⟩ := List.nodup_append.mp h
  rw [List.map_append, List.map_cons] at hsnd
  have hmid := List.nodup_middle.mp hsnd
  obtain ⟨hnot, -⟩ := List.nodup_cons.mp hmid
  rw [List.mem_append, not_or] at hnot
  -- the pairs before leave `p.2` alone, the pairs after leave both locals
  have hbefore : m₁.foldl (redirectOne F block) p.2 = p.2 := redirect_of_notMem hnot.1 block
  have hafter : ∀ v, v = p.1 ∨ v = p.2 → m₂.foldl (redirectOne F block) v = v := by
    rintro v (rfl | rfl)
    · refine redirect_of_notMem (fun hmem => ?_) block
      refine (List.nodup_append.mp h).2.2 p.1 (List.mem_map_of_mem hp) p.1 ?_ rfl
      rw [List.map_append, List.map_cons]
      exact List.mem_append_right _ (List.mem_cons_of_mem _ hmem)
    · exact redirect_of_notMem hnot.2 block
  rw [redirect, List.foldl_append, hbefore, List.foldl_cons]
  exact hafter _ (redirectOne_snd F block p)

/-- Only the two locals of a pair are redirected to one of them. -/
theorem redirect_mem_pair {block v : ℕ} :
    redirect F m block v = p.1 ∨ redirect F m block v = p.2 ↔ v = p.1 ∨ v = p.2 := by
  obtain ⟨hfst, hsnd, hdisj⟩ := List.nodup_append.mp h
  constructor
  · intro hv
    by_contra hno
    rw [not_or] at hno
    by_cases hmem : v ∈ m.map Prod.snd
    · -- `v` is the second local of another pair `q`, and goes to one of its locals
      obtain ⟨q, hq, rfl⟩ := List.mem_map.mp hmem
      have hqp : q ≠ p := fun heq => hno.2 (heq ▸ rfl)
      have hq₁ : q.1 ≠ p.1 := fun heq => hqp (List.inj_on_of_nodup_map hfst hq hp heq)
      have hq₂ : q.1 ≠ p.2 :=
        hdisj q.1 (List.mem_map_of_mem hq) p.2 (List.mem_map_of_mem hp)
      rw [redirect_snd h hq] at hv
      rcases redirectOne_snd F block q with hto | hto
      · rw [hto] at hv
        exact hv.elim hq₁ hq₂
      · rw [hto] at hv
        exact hv.elim hno.1 hno.2
    · rw [redirect_of_notMem hmem] at hv
      exact hv.elim hno.1 hno.2
  · rintro (rfl | rfl)
    · exact Or.inl (redirect_fst h hp block)
    · rw [redirect_snd h hp]
      exact redirectOne_snd F block p

end Redirect

/-! ### Slots and stores -/

/-- **A slot holds what the last store to it wrote.** -/
theorem exec_eq_lastStore (es : List Event) (v : ℕ) :
    exec es v = ((es.reverse.find? fun e => storesTo e.after v).map Event.value).getD 0 := by
  induction es using List.reverseRecOn with
  | nil => rfl
  | append_singleton es e ih =>
    have hlast : exec (es ++ [e]) = execOne (exec es) e := List.foldl_append
    rw [hlast, List.reverse_append, List.reverse_singleton, List.singleton_append, execOne]
    cases hop : e.after.op with
    | store val ptr =>
      by_cases hv : ptr = v
      · rw [List.find?_cons_of_pos (by simp [storesTo, hop, hv])]
        simp [hv]
      · rw [List.find?_cons_of_neg (by simp [storesTo, hop, hv]), ← ih]
        exact Function.update_of_ne (Ne.symm hv) _ _
    | _ =>
      rw [List.find?_cons_of_neg (by simp [storesTo, hop])]
      exact ih

/-- A pair of slots, with the block of the second. -/
theorem slotBlock_eq {F : List Inst} {m : List (ℕ × ℕ)} (h : Corresponding F m) {p : ℕ × ℕ}
    (hp : p ∈ m) (hslot : IsSlotPair F p) :
    ∃ l ∈ F, l.id = p.2 ∧ slotBlock F p = some l.parent := by
  obtain ⟨l₀, h₀, l₁, h₁, hid₀, hid₁, -, -⟩ := h.locals p hp
  obtain ⟨l, hl, hid, t, ht⟩ := hslot
  have hi : instOf F p.1 = some l := hid ▸ instOf_eq h.ids hl
  have hi₁ : instOf F p.2 = some l₁ := hid₁ ▸ instOf_eq h.ids h₁
  refine ⟨l₁, h₁, hid₁, ?_⟩
  rw [slotBlock, hi, hi₁]
  simp only [ht]

/-- The instruction an instruction becomes. -/
theorem mem_zip_retargetAll {F G : List Inst} {m : List (ℕ × ℕ)} {I I' : Inst}
    (h : (I, I') ∈ F.zip (F.map (retargetAll G m))) : I ∈ F ∧ I' = retargetAll G m I := by
  induction F with
  | nil => exact absurd h List.not_mem_nil
  | cons J F ih =>
    rcases List.mem_cons.mp h with heq | h
    · obtain ⟨rfl, hI'⟩ := Prod.mk.inj heq
      exact ⟨List.mem_cons_self, hI'⟩
    · obtain ⟨hI, hI'⟩ := ih h
      exact ⟨List.mem_cons_of_mem J hI, hI'⟩

section Pair

variable {F : List Inst} {m : List (ℕ × ℕ)} {p : ℕ × ℕ}

/-- The slot is the only instruction with its identity. -/
theorem eq_of_id_eq (h : Corresponding F m) {l l' : Inst} (hl : l ∈ F) (hl' : l' ∈ F)
    (hid : l'.id = l.id) : l' = l :=
  List.inj_on_of_nodup_map h.ids hl' hl hid

variable (hp : p ∈ m) (h : Corresponding F m)
include hp h

/-- Where the uses of the second slot go. -/
theorem redirect_snd_slot {b : ℕ} (hb : slotBlock F p = some b)
    (block : ℕ) : redirect F m block p.2 = if block ≠ b then p.1 else p.2 := by
  rw [redirect_snd h.once hp, redirectOne, hb]
  simp

/-- A store to a local of the pair is a store to the common slot. -/
theorem storesTo_slot {slot : ℕ} (hpair : slot = p.1 ∨ slot = p.2) {I : Inst}
    (hslot : ∀ v ∈ (retargetAll F m I).op.operands, v = p.1 ∨ v = p.2 → v = slot) :
    storesTo (retargetAll F m I) slot = (storesTo I p.1 || storesTo I p.2) := by
  rw [Bool.eq_iff_iff, Bool.or_eq_true]
  obtain ⟨id, parent, type, op⟩ := I
  cases op with
  | store val ptr =>
    simp only [storesTo, retargetAll, Op.map, decide_eq_true_eq]
    constructor
    · rintro hto
      exact (redirect_mem_pair h.once hp).mp (hto ▸ hpair)
    · intro hptr
      refine hslot _ ?_ ((redirect_mem_pair h.once hp).mpr hptr)
      exact List.mem_cons_of_mem _ List.mem_cons_self
  | _ => simp [storesTo, retargetAll, Op.map]

/-- **Loads get the last store** of either variant when a pair has one common slot. -/
theorem exec_of_common {slot : ℕ}
    (hslot : ∀ I ∈ F.map (retargetAll F m), ∀ v ∈ I.op.operands, v = p.1 ∨ v = p.2 → v = slot)
    {es : List Event} (hes : ∀ e ∈ es, (e.before, e.after) ∈ F.zip (F.map (retargetAll F m)))
    {I I' : Inst} (hI : (I, I') ∈ F.zip (F.map (retargetAll F m))) {v v' : ℕ}
    (hload : I.op = .load v) (hload' : I'.op = .load v') (hpair : v = p.1 ∨ v = p.2) :
    exec es v' = lastStore p es := by
  obtain ⟨hmem, rfl⟩ := mem_zip_retargetAll hI
  have hv' : v' = redirect F m I.parent v := by
    rw [retargetAll, hload] at hload'
    exact (Op.load.inj hload').symm
  have hpair' : v' = p.1 ∨ v' = p.2 := by
    rw [hv']
    exact (redirect_mem_pair h.once hp).mpr hpair
  have hvslot : v' = slot := by
    refine hslot _ (List.mem_map_of_mem hmem) v' ?_ hpair'
    rw [hload']
    exact List.mem_cons_self
  rw [exec_eq_lastStore, lastStore]
  have hfind : es.reverse.find? (fun e => storesTo e.after v') =
      es.reverse.find? fun e => storesTo e.before p.1 || storesTo e.before p.2 := by
    refine List.find?_congr fun e he => ?_
    obtain ⟨hbefore, hafter⟩ := mem_zip_retargetAll (hes e (List.mem_reverse.mp he))
    rw [hafter, hvslot]
    exact storesTo_slot hp h (hvslot ▸ hpair') (hslot _ (List.mem_map_of_mem hbefore))
  rw [hfind]

/-- **One common slot** for a pair, if and only if its uses are contained. -/
theorem common_iff_contained {l : Inst} (hl : l ∈ F)
    (hid : l.id = p.2) (hb : slotBlock F p = some l.parent) :
    (∃ slot, ∀ I ∈ F.map (retargetAll F m), ∀ v ∈ I.op.operands, v = p.1 ∨ v = p.2 → v = slot) ↔
      Contained F p := by
  have hne := fst_ne_snd h.once hp
  have hto := redirect_snd_slot hp h hb
  have huse : ∀ I ∈ F, ∀ v ∈ I.op.operands, ∃ J ∈ F.map (retargetAll F m),
      redirect F m I.parent v ∈ J.op.operands := by
    intro I hI v hv
    refine ⟨_, List.mem_map_of_mem hI, ?_⟩
    rw [retargetAll, operands_map]
    exact List.mem_map_of_mem hv
  constructor
  · rintro ⟨slot, hslot⟩
    have hall : ∀ I ∈ F, ∀ v ∈ I.op.operands, v = p.1 ∨ v = p.2 →
        redirect F m I.parent v = slot := by
      intro I hI v hv hpair
      obtain ⟨J, hJ, hmem⟩ := huse I hI v hv
      exact hslot J hJ _ hmem ((redirect_mem_pair h.once hp).mpr hpair)
    by_cases hsame : ∃ I ∈ F, p.2 ∈ I.op.operands ∧ I.parent = l.parent
    · -- a use stays at the second slot, so all uses do
      obtain ⟨I, hI, hmem, hpar⟩ := hsame
      have hsnd : p.2 = slot := by
        have hI' := hall I hI p.2 hmem (Or.inr rfl)
        rwa [hto, if_neg (not_not.mpr hpar)] at hI'
      right
      intro l' hl' hid' J hJ
      rw [eq_of_id_eq h hl hl' (hid'.trans hid.symm)]
      refine ⟨fun hfst => ?_, fun hmem' => ?_⟩
      · have hJ' := hall J hJ p.1 hfst (Or.inl rfl)
        rw [redirect_fst h.once hp] at hJ'
        exact hne (hJ'.trans hsnd.symm)
      · by_contra hpar'
        have hJ' := hall J hJ p.2 hmem' (Or.inr rfl)
        rw [hto, if_pos hpar'] at hJ'
        exact hne (hJ'.trans hsnd.symm)
    · left
      intro l' hl' hid' I hI hmem hpar
      rw [eq_of_id_eq h hl hl' (hid'.trans hid.symm)] at hpar
      exact hsame ⟨I, hI, hmem, hpar⟩
  · intro hcont
    have hback : ∀ J ∈ F.map (retargetAll F m), ∀ w ∈ J.op.operands, w = p.1 ∨ w = p.2 →
        ∃ I ∈ F, ∃ v ∈ I.op.operands, (v = p.1 ∨ v = p.2) ∧ w = redirect F m I.parent v := by
      intro J hJ w hw hpair
      obtain ⟨I, hI, rfl⟩ := List.mem_map.mp hJ
      rw [retargetAll, operands_map] at hw
      obtain ⟨v, hv, rfl⟩ := List.mem_map.mp hw
      exact ⟨I, hI, v, hv, (redirect_mem_pair h.once hp).mp hpair, rfl⟩
    rcases hcont with hout | hin
    · refine ⟨p.1, fun J hJ w hw hpair => ?_⟩
      obtain ⟨I, hI, v, hv, rfl | rfl, rfl⟩ := hback J hJ w hw hpair
      · exact redirect_fst h.once hp _
      · rw [hto, if_pos (hout l hl hid I hI hv)]
    · refine ⟨p.2, fun J hJ w hw hpair => ?_⟩
      obtain ⟨I, hI, v, hv, rfl | rfl, rfl⟩ := hback J hJ w hw hpair
      · exact absurd hv (hin l hl hid I hI).1
      · rw [hto, if_neg (not_not.mpr ((hin l hl hid I hI).2 hv))]

end Pair

/-- **Which functions share the locals of their variants.**  For every map of corresponding locals:
    the pass succeeds, and the variants share their locals if and only if no pair of slots has a
    use of the second in the second's own block, or else only such uses. -/
theorem shared_iff_contained {F : List Inst} {m : List (ℕ × ℕ)} (h : Corresponding F m) :
    ∃ F', mergeLocals F m = some F' ∧
      (Shared F m F' ↔ ∀ p ∈ m, IsSlotPair F p → Contained F p) := by
  refine ⟨_, mergeLocals_eq h, fun hshared p hp hslot => ?_, fun hcont => ⟨?_, ?_⟩⟩
  · obtain ⟨l, hl, hid, hb⟩ := slotBlock_eq h hp hslot
    exact (common_iff_contained hp h hl hid hb).mp (hshared.common p hp hslot)
  · intro p hp hslot
    obtain ⟨l, hl, hid, hb⟩ := slotBlock_eq h hp hslot
    exact (common_iff_contained hp h hl hid hb).mpr (hcont p hp hslot)
  · intro p hp hslot es hes I I' hI v v' hload hload' hpair
    obtain ⟨l, hl, hid, hb⟩ := slotBlock_eq h hp hslot
    obtain ⟨slot, hcommon⟩ := (common_iff_contained hp h hl hid hb).mpr (hcont p hp hslot)
    exact exec_of_common hp h hcommon hes hI hload hload' hpair

/-- Slots in the entry block, as inlining leaves those of fixed size: the first variant stores to
    its slot in block 1, the second loads from its own in block 2. -/
def entrySlots : List Inst :=
  [⟨1, 0, 8, .alloca 4⟩, ⟨2, 0, 8, .alloca 4⟩, ⟨3, 1, 0, .store 9 1⟩, ⟨4, 1, 4, .load 1⟩,
    ⟨5, 2, 0, .store 9 2⟩, ⟨6, 2, 4, .load 2⟩]

/-- The two slots are allocated in the entry block, which has no other use of them. -/
theorem shared_iff_contained_entry :
    ∃ F', mergeLocals entrySlots [(1, 2)] = some F' ∧ Shared entrySlots [(1, 2)] F' := by
  have hcorr : Corresponding entrySlots [(1, 2)] := by
    refine ⟨by decide, fun p hp => ?_, by decide⟩
    obtain rfl := List.mem_singleton.mp hp
    exact ⟨⟨1, 0, 8, .alloca 4⟩, by decide, ⟨2, 0, 8, .alloca 4⟩, by decide, rfl, rfl, rfl,
      fun _ => Iff.rfl⟩
  obtain ⟨F', hmerge, hiff⟩ := shared_iff_contained hcorr
  refine ⟨F', hmerge, hiff.mpr fun p hp _ => ?_⟩
  obtain rfl := List.mem_singleton.mp hp
  unfold Contained
  decide

/-- Slots of variable size, which stay in the blocks that allocate them: both variants store in the
    same block and load in a later one. -/
def arraySlots : List Inst :=
  [⟨1, 1, 8, .alloca 4⟩, ⟨3, 1, 0, .store 9 1⟩, ⟨4, 3, 4, .load 1⟩,
    ⟨2, 2, 8, .alloca 4⟩, ⟨5, 2, 0, .store 9 2⟩, ⟨6, 4, 4, .load 2⟩]

/-- The store of the second variant, before and after the pass. -/
def arrayStore : Event := ⟨⟨5, 2, 0, .store 9 2⟩, ⟨5, 2, 0, .store 9 2⟩, 7⟩

/-- **The failure.**  The store of the second variant is in the block of its slot and stays there,
    the load is not and goes to the first slot: it misses the value just stored. -/
theorem variable_slot_split :
    ∃ F', mergeLocals arraySlots [(1, 2)] = some F' ∧
      (arrayStore.before, arrayStore.after) ∈ arraySlots.zip F' ∧
      ((⟨6, 4, 4, .load 2⟩, ⟨6, 4, 4, .load 1⟩) : Inst × Inst) ∈ arraySlots.zip F' ∧
      exec [arrayStore] 1 = 0 ∧ lastStore (1, 2) [arrayStore] = 7 ∧
      ¬ Shared arraySlots [(1, 2)] F' := by
  refine ⟨_, rfl, by decide, by decide, rfl, rfl, fun h => ?_⟩
  have hslot : IsSlotPair arraySlots (1, 2) :=
    ⟨⟨1, 1, 8, .alloca 4⟩, List.mem_cons_self, rfl, 4, rfl⟩
  have hload := h.loads (1, 2) List.mem_cons_self hslot [arrayStore]
    (List.forall_mem_singleton.mpr (by decide)) ⟨6, 4, 4, .load 2⟩ ⟨6, 4, 4, .load 1⟩ (by decide)
    2 1 rfl rfl (Or.inr rfl)
  exact absurd hload (by decide)

end Firestarter.MergeLocals
