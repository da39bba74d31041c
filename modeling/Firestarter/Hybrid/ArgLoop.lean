import Mathlib.Data.List.Induction
import Firestarter.Hybrid.EntryGate

namespace Firestarter.EntryGate

open Ssa

/-!
# The loop over the arguments

`fixupLibCallArgs` treats the arguments of a pair of calls one by one.  This module says what the
function looks like when it has treated some of them, if it moves no instruction twice.

* `Parts.merged`: the function then;
* `fixupArg_merged`: one iteration takes it one argument further;
* `foldlM_fixupArg`: the whole loop.
-/

variable {ι κ : Type}

theorem insertBeforeTerminator_concat [DecidableEq κ] (Js b : List (Inst κ)) (t : Inst κ) :
    insertBeforeTerminator Js (b ++ [t]) = b ++ Js ++ [t] := by
  simp [insertBeforeTerminator]

/-- The argument of a variant. -/
def side (v : Bool) (e : ArgPair (Name ι)) : Value (Name ι) :=
  if v then e.1.2 else e.1.1

section Loop

variable [DecidableEq ι] (asInst : Value (Name ι) → Option (Inst (Name ι)))

/-- The instruction that a differing argument makes the loop move, in a variant. -/
def movedBy (v : Bool) (e : ArgPair (Name ι)) : List (Inst (Name ι)) :=
  if e.1.1 = e.1.2 then [] else (asInst (side v e)).toList

/-- What the loop puts at the end of the split block of a variant, for an argument. -/
def tailOf (v : Bool) (e : ArgPair (Name ι)) : List (Inst (Name ι)) :=
  if e.1.1 = e.1.2 then [] else movedBy asInst v e ++ [argStoreOf v e.2 (side v e)]

/-- The names of what it moves, for an argument. -/
def movedNames (e : ArgPair (Name ι)) : List (Name ι) :=
  (movedBy asInst false e ++ movedBy asInst true e).map Inst.id

/-- What it puts before the call. -/
def loadOf (e : ArgPair (Name ι)) : List (Inst (Name ι)) :=
  if e.1.1 = e.1.2 then [] else [argLoadOf e.2]

/-- What it makes of the call. -/
def useLoad (C : Inst (Name ι)) (e : ArgPair (Name ι)) : Inst (Name ι) :=
  if e.1.1 = e.1.2 then C else replaceUsesOfWith e.1.1 (.inst (.argLoad e.2)) C

/-- Whether an instruction stays where it is. -/
def stays (es : List (ArgPair (Name ι))) (I : Inst (Name ι)) : Bool :=
  I.id ∉ es.flatMap (movedNames asInst)

/-- The parts of the blocks of a pair of calls: the split blocks without and with their terminators,
    and the block of the first call. -/
structure Parts (ι : Type) where
  thisBlock : Bool → Name ι
  body : Bool → List (Inst (Name ι))
  last : Bool → Inst (Name ι)
  libcallBlock : Name ι
  loads : List (Inst (Name ι))
  call : Inst (Name ι)
  rest : List (Inst (Name ι))

/-- The parts are those of a function, and the call is nowhere else. -/
structure Parts.Of (p : Parts ι) (G : Func (Name ι)) : Prop where
  this : ∀ v, G.block (p.thisBlock v) = p.body v ++ [p.last v]
  lib : G.block p.libcallBlock = p.loads ++ p.call :: p.rest
  apart : p.thisBlock false ≠ p.thisBlock true
  apart' : ∀ v, p.thisBlock v ≠ p.libcallBlock
  elsewhere : ∀ l, l ≠ p.libcallBlock → ∀ I ∈ G.block l, I.id ≠ p.call.id
  loads : ∀ I ∈ p.loads, I.id ≠ p.call.id
  rest : ∀ I ∈ p.rest, I.id ≠ p.call.id

/-- **The function** when the loop has treated the arguments `es`. -/
def Parts.merged (p : Parts ι) (G : Func (Name ι))
    (es : List (ArgPair (Name ι))) : Func (Name ι) :=
  { G with
    block := fun l =>
      if l = p.thisBlock false then
        (p.body false).filter (stays asInst es) ++ es.flatMap (tailOf asInst false) ++
          [p.last false]
      else if l = p.thisBlock true then
        (p.body true).filter (stays asInst es) ++ es.flatMap (tailOf asInst true) ++ [p.last true]
      else if l = p.libcallBlock then
        p.loads.filter (stays asInst es) ++ es.flatMap loadOf ++
          es.foldl useLoad p.call :: p.rest.filter (stays asInst es)
      else (G.block l).filter (stays asInst es) }

/-- What the loop may move: other instructions than those it adds and the call, each once, and in
    both variants or in none. -/
structure Movable (p : Parts ι) (es : List (ArgPair (Name ι))) : Prop where
  both : ∀ e ∈ es, (asInst e.1.1).isSome = (asInst e.1.2).isSome
  once : (es.flatMap (movedNames asInst)).Nodup
  call : p.call.id ∉ es.flatMap (movedNames asInst)
  last : ∀ v, (p.last v).id ∉ es.flatMap (movedNames asInst)
  new : ∀ v j, Name.argStore v j ∉ es.flatMap (movedNames asInst) ∧
    Name.argLoad j ∉ es.flatMap (movedNames asInst) ∧ p.call.id ≠ .argStore v j ∧
    p.call.id ≠ .argLoad j

variable {asInst} {p : Parts ι} {G : Func (Name ι)}
  {es : List (ArgPair (Name ι))} {e : ArgPair (Name ι)}

theorem movedNames_concat : (es ++ [e]).flatMap (movedNames asInst) =
    es.flatMap (movedNames asInst) ++ movedNames asInst e := by
  rw [List.flatMap_append, List.flatMap_singleton]

theorem Movable.of_append (hm : Movable asInst p (es ++ [e])) : Movable asInst p es := by
  obtain ⟨hboth, honce, hcall, hlast, hnew⟩ := hm
  rw [movedNames_concat] at honce hcall
  simp only [movedNames_concat, List.mem_append, not_or] at hlast hnew
  refine ⟨fun d hd => hboth d (List.mem_append_left _ hd), (List.nodup_append.mp honce).1,
    fun h => hcall (List.mem_append_left _ h), fun v => (hlast v).1, fun v j => ?_⟩
  obtain ⟨hs, hl, hc⟩ := hnew v j
  exact ⟨hs.1, hl.1, hc⟩

theorem id_useLoad (C : Inst (Name ι)) (es : List (ArgPair (Name ι))) :
    (es.foldl useLoad C).id = C.id := by
  induction es generalizing C with
  | nil => rfl
  | cons e es ih =>
    rw [List.foldl_cons, ih, useLoad]
    split_ifs <;> rfl

/-- Moving the instructions of one more argument leaves those that stay. -/
theorem filter_stays_concat (b : List (Inst (Name ι))) :
    (b.filter (stays asInst es)).filter (fun I => I.id ∉ movedNames asInst e) =
      b.filter (stays asInst (es ++ [e])) := by
  rw [List.filter_filter]
  refine List.filter_congr fun I _ => ?_
  simp only [stays, List.flatMap_append, List.flatMap_singleton, List.mem_append, not_or]
  exact Bool.and_comm .. |>.trans (Bool.decide_and ..).symm

variable {I : Inst (Name ι)} {F : Func (Name ι)} {thisBlock : Bool → Name ι}
  {X : Bool → List (Inst (Name ι))} {t : Bool → Inst (Name ι)}

/-- The names of what stands at the ends of the split blocks. -/
theorem mem_tailOf {v : Bool} (hI : I ∈ es.flatMap (tailOf asInst v)) :
    I.id ∈ es.flatMap (movedNames asInst) ∨ ∃ j, I.id = .argStore v j := by
  obtain ⟨e, he, hI⟩ := List.mem_flatMap.mp hI
  rw [tailOf] at hI
  split_ifs at hI
  · exact absurd hI List.not_mem_nil
  · rcases List.mem_append.mp hI with hI | hI
    · refine Or.inl (List.mem_flatMap.mpr ⟨e, he, List.mem_map_of_mem ?_⟩)
      cases v with
      | false => exact List.mem_append_left _ hI
      | true => exact List.mem_append_right _ hI
    · exact Or.inr ⟨e.2, by rw [List.mem_singleton.mp hI]; rfl⟩

theorem mem_loadOf (hI : I ∈ es.flatMap loadOf) : ∃ j, I.id = .argLoad j := by
  obtain ⟨e, -, hI⟩ := List.mem_flatMap.mp hI
  rw [loadOf] at hI
  split_ifs at hI
  · exact absurd hI List.not_mem_nil
  · exact ⟨e.2, by rw [List.mem_singleton.mp hI]; rfl⟩

/-! The blocks of the function after some iterations. -/

theorem block_merged_this (hp : p.Of G) (es : List (ArgPair (Name ι))) (v : Bool) :
    (p.merged asInst G es).block (p.thisBlock v) =
      (p.body v).filter (stays asInst es) ++ es.flatMap (tailOf asInst v) ++ [p.last v] := by
  rw [Parts.merged]
  cases v with
  | false => exact if_pos rfl
  | true => exact (if_neg hp.apart.symm).trans (if_pos rfl)

theorem block_merged_lib (hp : p.Of G) (es : List (ArgPair (Name ι))) :
    (p.merged asInst G es).block p.libcallBlock =
      p.loads.filter (stays asInst es) ++ es.flatMap loadOf ++
        es.foldl useLoad p.call :: p.rest.filter (stays asInst es) := by
  rw [Parts.merged]
  dsimp only
  rw [if_neg (hp.apart' false).symm, if_neg (hp.apart' true).symm, if_pos rfl]

theorem block_merged_other (es : List (ArgPair (Name ι))) {l : Name ι}
    (hthis : ∀ v, l ≠ p.thisBlock v) (hlib : l ≠ p.libcallBlock) :
    (p.merged asInst G es).block l = (G.block l).filter (stays asInst es) := by
  rw [Parts.merged]
  dsimp only
  rw [if_neg (hthis false), if_neg (hthis true), if_neg hlib]

theorem block_moveToEnd (F : Func (Name ι)) (I : Inst (Name ι)) (l m : Name ι) :
    (moveToEnd F I l).block m =
      if m = l then insertBeforeTerminator [I] ((F.block m).filter (·.id ≠ I.id))
      else (F.block m).filter (·.id ≠ I.id) := by
  rw [moveToEnd, modify, mapBlocks]
  dsimp only
  rw [Function.update_apply]
  split_ifs with h
  · rw [h]
  · rfl

/-- The moves for an argument that differs. -/
def moveBoth (asInst : Value (Name ι) → Option (Inst (Name ι))) (thisBlock : Bool → Name ι)
    (F : Func (Name ι)) (e : ArgPair (Name ι)) : Func (Name ι) :=
  { F with
    block := fun l =>
      let b := (F.block l).filter fun I => I.id ∉ movedNames asInst e
      if l = thisBlock false then insertBeforeTerminator (movedBy asInst false e) b
      else if l = thisBlock true then insertBeforeTerminator (movedBy asInst true e) b
      else b }

/-- The stores for it. -/
abbrev storeBoth (thisBlock : Bool → Name ι) (F : Func (Name ι)) (e : ArgPair (Name ι)) :
    Func (Name ι) :=
  modify (modify F (thisBlock false) (insertBeforeTerminator [argStoreOf false e.2 e.1.1]))
    (thisBlock true) (insertBeforeTerminator [argStoreOf true e.2 e.1.2])

/-- The moves of an iteration, when both arguments are instructions. -/
theorem moveToEnd_moveToEnd {J : Inst (Name ι)} (hthis : ∀ v, F.block (thisBlock v) = X v ++ [t v])
    (hapart : thisBlock false ≠ thisBlock true) (hne : e.1.1 ≠ e.1.2) (hI : asInst e.1.1 = some I)
    (hJ : asInst e.1.2 = some J) (hnames : (movedNames asInst e).Nodup)
    (hlast : ∀ v, (t v).id ∉ movedNames asInst e) :
    moveToEnd (moveToEnd F I (thisBlock false)) J (thisBlock true) =
      moveBoth asInst thisBlock F e := by
  have hm₀ : movedBy asInst false e = [I] := by
    rw [movedBy, if_neg hne, show side false e = e.1.1 from rfl, hI]
    rfl
  have hm₁ : movedBy asInst true e = [J] := by
    rw [movedBy, if_neg hne, show side true e = e.1.2 from rfl, hJ]
    rfl
  have hmoved : movedNames asInst e = [I.id, J.id] := by
    rw [movedNames, hm₀, hm₁]
    rfl
  have hIJ : I.id ≠ J.id := by
    rw [hmoved] at hnames
    simpa using hnames
  have ht : ∀ v, (t v).id ≠ I.id ∧ (t v).id ≠ J.id := by
    intro v
    have hv := hlast v
    rw [hmoved] at hv
    simpa using hv
  have hfilter : ∀ b : List (Inst (Name ι)),
      (b.filter (·.id ≠ I.id)).filter (·.id ≠ J.id) =
        b.filter fun K => K.id ∉ movedNames asInst e := by
    intro b
    rw [List.filter_filter, hmoved]
    refine List.filter_congr fun K _ => ?_
    simp [Bool.and_comm]
  -- the terminator of the first block stays
  have hkeep : (F.block (thisBlock false)).filter (·.id ≠ I.id) =
      (X false).filter (·.id ≠ I.id) ++ [t false] := by
    rw [hthis, List.filter_append, List.filter_singleton]
    simp [(ht false).1]
  have hkeep' : (F.block (thisBlock false)).filter (fun K => K.id ∉ movedNames asInst e) =
      (X false).filter (fun K => K.id ∉ movedNames asInst e) ++ [t false] := by
    rw [hthis, List.filter_append, List.filter_singleton]
    simp [hmoved, (ht false).1, (ht false).2]
  refine Func.ext rfl rfl (funext fun l => ?_)
  rw [block_moveToEnd, block_moveToEnd, moveBoth]
  dsimp only
  by_cases h₀ : l = thisBlock false
  · have h₁ : l ≠ thisBlock true := fun heq => hapart (h₀.symm.trans heq)
    rw [if_neg h₁, if_pos h₀, if_pos h₀, h₀, hkeep, hkeep', hm₀, insertBeforeTerminator_concat,
      insertBeforeTerminator_concat, List.filter_append, List.filter_append, hfilter]
    simp [hIJ, (ht false).2]
  · by_cases h₁ : l = thisBlock true
    · rw [if_pos h₁, if_neg h₀, if_neg h₀, if_pos h₁, hfilter, hm₁]
    · rw [if_neg h₁, if_neg h₀, if_neg h₀, if_neg h₁, hfilter]

/-- The moves of an iteration, when the arguments are no instructions. -/
theorem moveBoth_of_none (hthis : ∀ v, F.block (thisBlock v) = X v ++ [t v])
    (h₀ : movedBy asInst false e = []) (h₁ : movedBy asInst true e = []) :
    moveBoth asInst thisBlock F e = F := by
  have hnames : movedNames asInst e = [] := by
    rw [movedNames, h₀, h₁]
    rfl
  have hkeep : ∀ b : List (Inst (Name ι)), b.filter (fun I => I.id ∉ movedNames asInst e) = b := by
    intro b
    rw [hnames]
    exact List.filter_eq_self.mpr fun I _ => by simp
  have hins : ∀ v, insertBeforeTerminator [] (F.block (thisBlock v)) = F.block (thisBlock v) := by
    intro v
    rw [hthis, insertBeforeTerminator_concat, List.append_nil]
  refine Func.ext rfl rfl (funext fun l => ?_)
  rw [moveBoth]
  dsimp only
  rw [hkeep, h₀, h₁]
  split_ifs with hl₀ hl₁
  · rw [hl₀, hins]
  · rw [hl₁, hins]
  · rfl

/-- **The moves of an iteration.** -/
theorem moveArgs_eq {names : List (Name ι)} (hthis : ∀ v, F.block (thisBlock v) = X v ++ [t v])
    (hapart : thisBlock false ≠ thisBlock true) (hne : e.1.1 ≠ e.1.2)
    (hboth : (asInst e.1.1).isSome = (asInst e.1.2).isSome) (hnames : (movedNames asInst e).Nodup)
    (hlast : ∀ v, (t v).id ∉ movedNames asInst e) :
    moveArgs asInst thisBlock (F, names) e =
      some (moveBoth asInst thisBlock F e, names ++ movedNames asInst e) := by
  have hm : ∀ v, movedBy asInst v e = (asInst (side v e)).toList := fun v => if_neg hne
  have h₀ : movedBy asInst false e = (asInst e.1.1).toList := hm false
  have h₁ : movedBy asInst true e = (asInst e.1.2).toList := hm true
  rw [moveArgs]
  cases hI : asInst e.1.1 with
  | none =>
    rw [hI, Option.isSome_none, eq_comm, Option.isSome_eq_false_iff, Option.isNone_iff_eq_none]
      at hboth
    rw [hI] at h₀
    rw [hboth] at h₁
    rw [moveBoth_of_none hthis h₀ h₁, movedNames, h₀, h₁]
    simp
  | some I =>
    rw [hI, Option.isSome_some, eq_comm, Option.isSome_iff_exists] at hboth
    obtain ⟨J, hJ⟩ := hboth
    rw [hI] at h₀
    rw [hJ] at h₁
    rw [hJ]
    show some (moveToEnd (moveToEnd F I _) J _, _) = _
    rw [moveToEnd_moveToEnd hthis hapart hne hI hJ hnames hlast]
    have hnm : movedNames asInst e = [I.id, J.id] := by
      rw [movedNames, h₀, h₁]
      rfl
    rw [hnm]

/-- Where the call is not, an iteration inserts and replaces nothing. -/
theorem map_insertBefore_of_ne {c₀ : Name ι} {b Js : List (Inst (Name ι))} {a a' : Value (Name ι)}
    (h : ∀ I ∈ b, I.id ≠ c₀) :
    (insertBefore c₀ Js b).map (fun I => if I.id = c₀ then replaceUsesOfWith a a' I else I) =
      b := by
  rw [insertBefore_of_forall_ne h]
  exact (List.map_congr_left fun I hI => if_neg (h I hI)).trans (List.map_id b)

/-- Where it is, it stands behind the new load, and uses that. -/
theorem map_insertBefore_call {c₀ : Name ι} {A R : List (Inst (Name ι))} {C J : Inst (Name ι)}
    {a a' : Value (Name ι)} (hC : C.id = c₀) (hA : ∀ I ∈ A, I.id ≠ c₀) (hR : ∀ I ∈ R, I.id ≠ c₀)
    (hJ : J.id ≠ c₀) :
    (insertBefore c₀ [J] (A ++ C :: R)).map
        (fun I => if I.id = c₀ then replaceUsesOfWith a a' I else I) =
      A ++ [J] ++ replaceUsesOfWith a a' C :: R := by
  have hsame : ∀ b : List (Inst (Name ι)), (∀ I ∈ b, I.id ≠ c₀) →
      b.map (fun I => if I.id = c₀ then replaceUsesOfWith a a' I else I) = b := by
    intro b hb
    exact (List.map_congr_left fun I hI => if_neg (hb I hI)).trans (List.map_id b)
  have hload : ∀ I ∈ [J], I.id ≠ c₀ := fun I hI => by rwa [List.mem_singleton.mp hI]
  rw [insertBefore_split hC hA hR, List.map_append, List.map_append, hsame A hA, hsame [J] hload,
    List.map_cons, hsame R hR, if_pos hC]

/-- Equal arguments move nothing. -/
theorem movedNames_of_eq (heq : e.1.1 = e.1.2) : movedNames asInst e = [] := by
  rw [movedNames, movedBy, if_pos heq, movedBy, if_pos heq]
  rfl

/-- Equal arguments leave the function as it is. -/
theorem merged_concat_of_eq (heq : e.1.1 = e.1.2) :
    p.merged asInst G (es ++ [e]) = p.merged asInst G es := by
  have hstays : stays asInst (es ++ [e]) = stays asInst es := by
    funext I
    rw [stays, stays, List.flatMap_append, List.flatMap_singleton, movedNames_of_eq heq,
      List.append_nil]
  have htail : ∀ v, (es ++ [e]).flatMap (tailOf asInst v) = es.flatMap (tailOf asInst v) := by
    intro v
    rw [List.flatMap_append, List.flatMap_singleton, tailOf, if_pos heq, List.append_nil]
  have hload : (es ++ [e]).flatMap loadOf = es.flatMap loadOf := by
    rw [List.flatMap_append, List.flatMap_singleton, loadOf, if_pos heq, List.append_nil]
  have huse : (es ++ [e]).foldl useLoad p.call = es.foldl useLoad p.call := by
    rw [List.foldl_append, List.foldl_cons, List.foldl_nil, useLoad, if_pos heq]
  rw [Parts.merged, Parts.merged, hstays, htail, htail, hload, huse]

section Step

variable (hm : Movable asInst p (es ++ [e]))
include hm

/-- The names that an iteration moves are among those of the loop, but not moved before. -/
theorem movedNames_of_concat : (movedNames asInst e).Nodup ∧
    (∀ n ∈ movedNames asInst e, n ∉ es.flatMap (movedNames asInst)) ∧
    (∀ n ∈ movedNames asInst e, n ∈ (es ++ [e]).flatMap (movedNames asInst)) := by
  have honce := hm.once
  rw [movedNames_concat, List.nodup_append] at honce
  refine ⟨honce.2.1, fun n hn hmem => honce.2.2 n hmem n hn rfl, fun n hn => ?_⟩
  rw [movedNames_concat]
  exact List.mem_append_right _ hn

/-- What stands in the block of a variant after some iterations and is not a terminator, after the
    moves of the next. -/
theorem filter_body (v : Bool) :
    ((p.body v).filter (stays asInst es) ++ es.flatMap (tailOf asInst v) ++ [p.last v]).filter
        (fun I => I.id ∉ movedNames asInst e) =
      (p.body v).filter (stays asInst (es ++ [e])) ++ es.flatMap (tailOf asInst v) ++
        [p.last v] := by
  obtain ⟨-, hnew, hall⟩ := movedNames_of_concat hm
  rw [List.filter_append, List.filter_append, filter_stays_concat]
  congr 1
  · congr 1
    refine List.filter_eq_self.mpr fun I hI => ?_
    simp only [decide_eq_true_eq]
    intro hmoved
    rcases mem_tailOf hI with hbefore | ⟨j, hj⟩
    · exact hnew _ hmoved hbefore
    · exact (hm.new v j).1 (hj ▸ hall _ hmoved)
  · refine List.filter_eq_self.mpr fun I hI => ?_
    simp only [decide_eq_true_eq]
    intro hmoved
    rw [List.mem_singleton.mp hI] at hmoved
    exact hm.last v (hall _ hmoved)

/-- The same for the block of the call. -/
theorem filter_lib :
    (p.loads.filter (stays asInst es) ++ es.flatMap loadOf ++
        es.foldl useLoad p.call :: p.rest.filter (stays asInst es)).filter
        (fun I => I.id ∉ movedNames asInst e) =
      p.loads.filter (stays asInst (es ++ [e])) ++ es.flatMap loadOf ++
        es.foldl useLoad p.call :: p.rest.filter (stays asInst (es ++ [e])) := by
  obtain ⟨-, -, hall⟩ := movedNames_of_concat hm
  have hcall : (es.foldl useLoad p.call).id ∉ movedNames asInst e := by
    rw [id_useLoad]
    exact fun hmoved => hm.call (hall _ hmoved)
  have hloads : (es.flatMap loadOf).filter (fun I => I.id ∉ movedNames asInst e) =
      es.flatMap loadOf := by
    refine List.filter_eq_self.mpr fun I hI => ?_
    obtain ⟨j, hj⟩ := mem_loadOf hI
    simp only [decide_eq_true_eq]
    exact fun hmoved => (hm.new false j).2.1 (hall _ (hj ▸ hmoved))
  rw [List.filter_append, List.filter_append, List.filter_cons_of_pos (by simpa using hcall),
    filter_stays_concat, filter_stays_concat, hloads]

/-- The split blocks after the moves and stores of an iteration. -/
theorem block_stored_this (hp : p.Of G) (hne : e.1.1 ≠ e.1.2) (v : Bool) :
    (storeBoth p.thisBlock (moveBoth asInst p.thisBlock (p.merged asInst G es) e) e).block
        (p.thisBlock v) =
      (p.body v).filter (stays asInst (es ++ [e])) ++ (es ++ [e]).flatMap (tailOf asInst v) ++
        [p.last v] := by
  have hend : (es ++ [e]).flatMap (tailOf asInst v) =
      es.flatMap (tailOf asInst v) ++ (movedBy asInst v e ++ [argStoreOf v e.2 (side v e)]) := by
    rw [List.flatMap_append, List.flatMap_singleton, tailOf, if_neg hne]
  have hmoved : (moveBoth asInst p.thisBlock (p.merged asInst G es) e).block (p.thisBlock v) =
      insertBeforeTerminator (movedBy asInst v e) ((p.body v).filter (stays asInst (es ++ [e])) ++
        es.flatMap (tailOf asInst v) ++ [p.last v]) := by
    rw [moveBoth, ← filter_body hm v, ← block_merged_this hp es v]
    cases v with
    | false => exact if_pos rfl
    | true => exact (if_neg hp.apart.symm).trans (if_pos rfl)
  have hstored : (storeBoth p.thisBlock (moveBoth asInst p.thisBlock (p.merged asInst G es) e)
      e).block (p.thisBlock v) = insertBeforeTerminator [argStoreOf v e.2 (side v e)]
      ((moveBoth asInst p.thisBlock (p.merged asInst G es) e).block (p.thisBlock v)) := by
    rw [storeBoth, modify, modify]
    dsimp only
    cases v with
    | false => rw [Function.update_of_ne hp.apart, Function.update_self]; rfl
    | true => rw [Function.update_self, Function.update_of_ne hp.apart.symm]; rfl
  rw [hstored, hmoved, insertBeforeTerminator_concat, insertBeforeTerminator_concat, hend]
  simp only [List.append_assoc]

omit hm in
/-- The other blocks then. -/
theorem block_stored_other {l : Name ι} (hl : ∀ v, l ≠ p.thisBlock v) :
    (storeBoth p.thisBlock (moveBoth asInst p.thisBlock (p.merged asInst G es) e) e).block l =
      ((p.merged asInst G es).block l).filter fun I => I.id ∉ movedNames asInst e := by
  rw [storeBoth, modify, modify, moveBoth]
  dsimp only
  rw [Function.update_of_ne (hl true), Function.update_of_ne (hl false), if_neg (hl false),
    if_neg (hl true)]

/-- The call itself is in neither of the two blocks. -/
theorem id_ne_call_of_this (hp : p.Of G) (v : Bool) :
    ∀ I ∈ (p.body v).filter (stays asInst (es ++ [e])) ++
      (es ++ [e]).flatMap (tailOf asInst v) ++ [p.last v], I.id ≠ p.call.id := by
  intro I hI
  have hin : ∀ I ∈ p.body v ++ [p.last v], I.id ≠ p.call.id := by
    rw [← hp.this v]
    exact hp.elsewhere _ (hp.apart' v)
  rcases List.mem_append.mp hI with hI | hI
  · rcases List.mem_append.mp hI with hI | hI
    · exact hin I (List.mem_append_left _ (List.mem_of_mem_filter hI))
    · rcases mem_tailOf hI with hmoved | ⟨j, hj⟩
      · exact fun heq => hm.call (heq ▸ hmoved)
      · rw [hj]
        exact (hm.new v j).2.2.1.symm
  · exact hin I (List.mem_append_right _ hI)

/-- **An iteration.** -/
theorem fixupArg_merged (hp : p.Of G) :
    fixupArg asInst p.call.id p.thisBlock
        (p.merged asInst G es, es.flatMap (movedNames asInst)) e =
      some (p.merged asInst G (es ++ [e]), (es ++ [e]).flatMap (movedNames asInst)) := by
  by_cases hne : e.1.1 = e.1.2
  · rw [fixupArg, if_pos hne, merged_concat_of_eq hne, movedNames_concat, movedNames_of_eq hne,
      List.append_nil]
  · obtain ⟨hnodup, -, hall⟩ := movedNames_of_concat hm
    have hthis : ∀ v, (p.merged asInst G es).block (p.thisBlock v) =
        (p.body v).filter (stays asInst es) ++ es.flatMap (tailOf asInst v) ++ [p.last v] :=
      block_merged_this hp es
    rw [fixupArg, if_neg hne, moveArgs_eq hthis hp.apart hne
      (hm.both e (List.mem_append_right _ List.mem_cons_self)) hnodup
      fun v hmoved => hm.last v (hall _ hmoved)]
    simp only [Option.bind_eq_bind, Option.bind_some, movedNames_concat]
    refine congrArg (fun F => some (F, _)) (Func.ext rfl rfl (funext fun l => ?_))
    rw [mapBlocks, mapBlocks]
    dsimp only
    by_cases hv : ∃ v, l = p.thisBlock v
    · obtain ⟨v, rfl⟩ := hv
      rw [block_stored_this hm hp hne, block_merged_this hp,
        map_insertBefore_of_ne (id_ne_call_of_this hm hp v)]
    · have hl : ∀ v, l ≠ p.thisBlock v := fun v heq => hv ⟨v, heq⟩
      rw [block_stored_other hl]
      by_cases hlib : l = p.libcallBlock
      · have hld : (es ++ [e]).flatMap loadOf = es.flatMap loadOf ++ [argLoadOf e.2] := by
          rw [List.flatMap_append, List.flatMap_singleton, loadOf, if_neg hne]
        have hbefore : ∀ I ∈ p.loads.filter (stays asInst (es ++ [e])) ++ es.flatMap loadOf,
            I.id ≠ p.call.id := by
          intro I hI
          rcases List.mem_append.mp hI with hI | hI
          · exact hp.loads I (List.mem_of_mem_filter hI)
          · obtain ⟨k, hk⟩ := mem_loadOf hI
            rw [hk]
            exact (hm.new false k).2.2.2.symm
        rw [hlib, block_merged_lib hp, block_merged_lib hp, filter_lib hm, map_insertBefore_call
          (id_useLoad _ _) hbefore (fun I hI => hp.rest I (List.mem_of_mem_filter hI))
          (hm.new false e.2).2.2.2.symm, hld, List.foldl_append, List.foldl_cons, List.foldl_nil,
          useLoad, if_neg hne]
        simp only [List.append_assoc]
      · rw [block_merged_other es hl hlib, block_merged_other _ hl hlib, filter_stays_concat]
        exact map_insertBefore_of_ne fun I hI => hp.elsewhere l hlib I (List.mem_of_mem_filter hI)

end Step

/-- **The loop.** -/
theorem foldlM_fixupArg (hp : p.Of G) (hm : Movable asInst p es) :
    es.foldlM (fixupArg asInst p.call.id p.thisBlock) (G, []) =
      some (p.merged asInst G es, es.flatMap (movedNames asInst)) := by
  induction es using List.reverseRecOn with
  | nil =>
    have hall : ∀ b : List (Inst (Name ι)), b.filter (stays asInst []) = b :=
      fun b => List.filter_eq_self.mpr fun I _ => by simp [stays]
    refine congrArg (fun F => some (F, [])) (Func.ext rfl rfl (funext fun l => ?_))
    by_cases hv : ∃ v, l = p.thisBlock v
    · obtain ⟨v, rfl⟩ := hv
      rw [block_merged_this hp, hall, hp.this]
      simp
    · by_cases hlib : l = p.libcallBlock
      · rw [hlib, block_merged_lib hp, hall, hall, hp.lib]
        simp
      · rw [block_merged_other [] (fun v heq => hv ⟨v, heq⟩) hlib, hall]
  | append_singleton es e ih =>
    rw [List.foldlM_append, ih hm.of_append, Option.bind_eq_bind, Option.bind_some,
      List.foldlM_cons, fixupArg_merged hm hp]
    rfl

end Loop
end Firestarter.EntryGate
