import Mathlib.Data.List.Count
import Firestarter.Hybrid.MergedPair

namespace Firestarter.EntryGate

open Ssa

/-!
# The blocks around a merged library call

A merged call gets the arguments that differ between its copies from slots, which each variant fills
at the end of its split block.

* `block_other`, `block_this`, `block_lib`: the blocks of the function after the pass;
* `op_merged`: the operands of the merged call;
* `tailOf_cases`: what stands at the end of a split block for an argument;
* `moved_comesFirst`: the instructions that are moved come before their uses.
-/

variable {ι : Type} [DecidableEq ι]

section Function

variable (site : Site) (p : CallPair ι) (G : Func (Name ι)) (R : List (Inst (Name ι)))

/-- The arguments as the loop over them meets them. -/
def items : List (ArgPair (Name ι)) := (argPairs p).map (sentPair site p)

/-- The function after the pass. -/
def merged : Func (Name ι) :=
  (pairParts site p R).merged (asInstruction G) G (items site p)

/-- What the pass moves. -/
def moved : List (Name ι) := (items site p).flatMap (movedNames (asInstruction G))

end Function

/-- The setting: a pair of calls, and the function with the gate. -/
structure Setting (site : Site) (F : Func ι) (p : CallPair ι) (G : Func (Name ι))
    (R : List (Inst (Name ι))) : Prop where
  placed : Placed F p
  fit : ArgsFit F p
  gated : Gated site F p (OnlyPassed F p) G
  parts : (pairParts site p R).Of G
  clean : ∀ J ∈ R, p.Clean (OnlyPassed F p) J

variable {site : Site} {F : Func ι} {p : CallPair ι} {G : Func (Name ι)} {R : List (Inst (Name ι))}

/-! ### The blocks of the merged function -/

omit [DecidableEq ι] in
theorem count_le_one_of_pairwise {α : Type} [DecidableEq α] {a : α} {l : List α}
    (h : l.Pairwise fun x y => x = a → y ≠ a) : l.count a ≤ 1 := by
  induction l with
  | nil => exact Nat.zero_le 1
  | cons x l ih =>
    obtain ⟨hx, h⟩ := List.pairwise_cons.mp h
    by_cases hxa : x = a
    · have hnot : a ∉ l := fun hmem => hx a hmem hxa rfl
      rw [hxa, List.count_cons_self, List.count_eq_zero.mpr hnot]
    · rw [List.count_cons_of_ne hxa]
      exact ih h

/-- What the loop over the arguments makes of an operand of the call. -/
def replaced (es : List (ArgPair (Name ι))) (x : Value (Name ι)) :
    Value (Name ι) :=
  es.foldl (fun x e => if e.1.1 = e.1.2 then x
    else if x = e.1.1 then .inst (.argLoad e.2) else x) x

theorem op_foldl_useLoad (es : List (ArgPair (Name ι)))
    (C : Inst (Name ι)) : (es.foldl useLoad C).op = C.op.bimap (replaced es) id := by
  induction es generalizing C with
  | nil => exact (bimap_self C.op).symm
  | cons e es ih =>
    rw [List.foldl_cons, ih, useLoad]
    by_cases heq : e.1.1 = e.1.2
    · rw [if_pos heq]
      refine bimap_congr fun x _ => ?_
      rw [replaced, replaced, List.foldl_cons, if_pos heq]
    · rw [if_neg heq, replaceUsesOfWith, bimap_bimap]
      refine bimap_congr fun x _ => ?_
      show replaced es _ = _
      rw [replaced, replaced, List.foldl_cons, if_neg heq]

/-- An operand that differs in no pair stays. -/
theorem replaced_of_forall_ne {es : List (ArgPair (Name ι))}
    {x : Value (Name ι)} (h : ∀ e ∈ es, e.1.1 ≠ e.1.2 → x ≠ e.1.1) : replaced es x = x := by
  induction es with
  | nil => rfl
  | cons e es ih =>
    have hx : (if e.1.1 = e.1.2 then x else if x = e.1.1 then .inst (.argLoad e.2) else x) = x := by
      by_cases heq : e.1.1 = e.1.2
      · exact if_pos heq
      · rw [if_neg heq, if_neg (h e List.mem_cons_self heq)]
    rw [replaced, List.foldl_cons, hx]
    exact ih fun e' he' => h e' (List.mem_cons_of_mem e he')

/-- An operand that differs in one pair becomes a load. -/
theorem replaced_fst {es : List (ArgPair (Name ι))}
    (hpair : es.Pairwise fun e e' => e.1.1 ≠ e.1.2 ∨ e'.1.1 ≠ e'.1.2 → e.1.1 ≠ e'.1.1)
    (hnew : ∀ e ∈ es, ∀ j, e.1.1 ≠ .inst (.argLoad j)) {e : ArgPair (Name ι)} (he : e ∈ es) :
    replaced es e.1.1 = if e.1.1 = e.1.2 then e.1.1 else .inst (.argLoad e.2) := by
  induction es with
  | nil => exact absurd he List.not_mem_nil
  | cons d es ih =>
    obtain ⟨hd, hpair⟩ := List.pairwise_cons.mp hpair
    rcases List.mem_cons.mp he with rfl | he
    · by_cases heq : e.1.1 = e.1.2
      · rw [if_pos heq]
        refine replaced_of_forall_ne fun e' he' hne => ?_
        rcases List.mem_cons.mp he' with rfl | he'
        · exact absurd heq hne
        · exact hd e' he' (Or.inr hne)
      · rw [if_neg heq, replaced, List.foldl_cons, if_neg heq, if_pos rfl]
        refine replaced_of_forall_ne fun e' he' _ => ?_
        exact (hnew e' (List.mem_cons_of_mem e he') e.2).symm
    · have hx : (if d.1.1 = d.1.2 then e.1.1
          else if e.1.1 = d.1.1 then .inst (.argLoad d.2) else e.1.1) = e.1.1 := by
        by_cases heq : d.1.1 = d.1.2
        · exact if_pos heq
        · rw [if_neg heq, if_neg (hd e he (Or.inl heq)).symm]
      rw [replaced, List.foldl_cons, hx]
      exact ih hpair (fun e' he' => hnew e' (List.mem_cons_of_mem d he')) he

section Blocks

variable (hs : Setting site F p G R)
include hs

theorem Setting.onlyPassed {n : Name ι} (hn : n ∈ moved site p G) : OnlyPassed F p n :=
  onlyPassed_of_moved hs.placed hs.fit hs.gated hn

theorem Setting.stays_of_clean {J : Inst (Name ι)} (hJ : p.Clean (OnlyPassed F p) J) :
    stays (asInstruction G) (items site p) J :=
  decide_eq_true fun hmem => hJ.id (hs.onlyPassed hmem)

theorem Setting.block_other {l : ι} (hl : ∀ v, l ≠ p.block v) :
    (merged site p G R).block (.old l) =
      ((F.block l).map embedInst).filter (stays (asInstruction G) (items site p)) := by
  rw [merged, block_merged_other _ (fun v heq => hl v (Name.old.inj heq)) (fun heq => by cases heq),
    hs.gated.other l hl]

theorem Setting.block_this (v : Bool) :
    (merged site p G R).block (.old (p.block v)) =
      body site p v ++ (items site p).flatMap (tailOf (asInstruction G) v) ++
        [⟨.entryBr v, .br [] [.that false]⟩] := by
  have hblock : (merged site p G R).block (.old (p.block v)) =
      (body site p v).filter (stays (asInstruction G) (items site p)) ++
        (items site p).flatMap (tailOf (asInstruction G) v) ++
        [⟨.entryBr v, .br [] [.that false]⟩] := block_merged_this hs.parts (items site p) v
  have hbody : (body site p v).filter (stays (asInstruction G) (items site p)) = body site p v :=
    List.filter_eq_self.mpr fun J hJ =>
      hs.stays_of_clean (clean_body hs.placed (reserved hs.placed) hJ)
  rw [hblock, hbody]

/-- An argument that is computed in the block of a call is one that differs. -/
theorem Setting.local_differs {v : Bool} {a : Value ι} (ha : Local p v a) {e : Value ι × Value ι}
    (he : e ∈ (p.args false).zip (p.args true)) (hpick : pick v e = a) : e.1 ≠ e.2 := by
  intro heq
  have hsame := hs.fit.same e he heq v
  rw [← hpick] at ha
  cases v with
  | false => exact hsame ha
  | true =>
    rw [heq] at hsame
    exact hsame ha

/-- All loads for the arguments of the first call are moved. -/
theorem Setting.loads_moved :
    (argDeps site p false).filter (stays (asInstruction G) (items site p)) = [] := by
  rw [List.filter_eq_nil_iff]
  intro J hJ hstays
  obtain ⟨d, hd, n, hn, rfl⟩ := mem_argDeps hJ
  refine of_decide_eq_true hstays ?_
  -- the load is for an argument from the block of the call
  have hmem : d.value ∈ (embedInst (p.inst false)).op.operands :=
    List.count_pos_iff.mp (Nat.zero_lt_of_lt hn)
  rw [operands_embedInst] at hmem
  obtain ⟨a, harg, hvalue⟩ := List.mem_map.mp hmem
  have harg : a ∈ p.args false := harg
  have hlocal : ∃ I ∈ p.before false, I.value = a ∧ d = embedInst I := by
    have hname := name?_value d
    rw [← hvalue, name?_map_old, Option.map_eq_some_iff] at hname
    obtain ⟨i, -, hi⟩ := hname
    rcases id_code (List.mem_append_left _ (mem_deps hd)) with ⟨I, hI, rfl⟩ | h | h | h
    · rw [value_embedInst] at hvalue
      exact ⟨I, hI, (map_old_injective hvalue).symm, rfl⟩
    all_goals
      rw [← hi] at h
      cases h
  obtain ⟨I, hI, rfl, rfl⟩ := hlocal
  -- it is passed once
  have hcount : (p.args false).count I.value ≤ 1 := by
    refine count_le_one_of_pairwise ?_
    rw [← List.map_fst_zip hs.fit.length.le, List.pairwise_map]
    refine hs.fit.once.imp_of_mem fun {e e'} he _ hdistinct hx hy => ?_
    have hne := hs.local_differs (v := false) ⟨I, hI, rfl⟩ he hx
    exact (hdistinct (Or.inl hne)).1 (hx.trans hy.symm)
  have hn0 : n = 0 := by
    rw [value_embedInst, operands_embedInst,
      List.count_map_of_injective _ _ map_old_injective] at hn
    have hle : n < (p.args false).count I.value := hn
    omega
  subst hn0
  obtain ⟨e, he, hpick⟩ := exists_argPairs hs.fit.length harg
  have hne : e.1.1 ≠ e.1.2 :=
    hs.local_differs (v := false) ⟨I, hI, rfl⟩ (mem_argPairs he) hpick
  have hsent : Sent F p false (pick false e.1)
      ⟨.depLoad (.old (p.call false)) (.old I.id) 0, .load (depPtr (embedInst I))⟩ :=
    Or.inl ⟨I, hI, hpick.symm, rfl⟩
  refine List.mem_flatMap.mpr ⟨_, List.mem_map_of_mem he, List.mem_map.mpr ⟨_,
    List.mem_append_left _ ?_, rfl⟩⟩
  rw [movedBy, if_neg fun heq => hne ((sentPair_same_iff hs.placed hs.fit site he).mp heq),
    side_sentPair, hs.gated.asInstruction_eq hs.placed hsent (pick_mem (mem_argPairs he) false)]
  exact List.mem_cons_self

theorem Setting.block_lib :
    (merged site p G R).block (.that false) = (items site p).flatMap loadOf ++
      (items site p).foldl useLoad (sentCall site p false) :: R := by
  have hblock : (merged site p G R).block (.that false) =
      (argDeps site p false).filter (stays (asInstruction G) (items site p)) ++
        (items site p).flatMap loadOf ++
        (items site p).foldl useLoad (sentCall site p false) ::
          R.filter (stays (asInstruction G) (items site p)) :=
    block_merged_lib hs.parts (items site p)
  have hrest : R.filter (stays (asInstruction G) (items site p)) = R :=
    List.filter_eq_self.mpr fun J hJ => hs.stays_of_clean (hs.clean J hJ)
  rw [hblock, hs.loads_moved, hrest, List.nil_append]

/-- Different arguments are different operands of the calls with the gate. -/
theorem Setting.sentArg_injective {v : Bool} {a a' : Value ι} (ha : a ∈ p.args v)
    (ha' : a' ∈ p.args v) (heq : sentArg site p v a = sentArg site p v a') : a = a' := by
  by_cases hl : Local p v a
  · obtain ⟨I, hI, rfl⟩ := hl
    rw [sentArg_local hI ha] at heq
    by_cases hl' : Local p v a'
    · obtain ⟨J, hJ, rfl⟩ := hl'
      rw [sentArg_local hJ ha'] at heq
      have hid : I.id = J.id := Name.old.inj (Name.depLoad.inj (Value.inst.inj heq)).2.1
      exact congrArg Inst.value
        (hs.placed.inst_eq (hs.placed.mem_before hI) (hs.placed.mem_before hJ) hid)
    · rw [sentArg_of_not_local hl'] at heq
      cases a' <;> cases heq
  · rw [sentArg_of_not_local hl] at heq
    by_cases hl' : Local p v a'
    · obtain ⟨J, hJ, rfl⟩ := hl'
      rw [sentArg_local hJ ha'] at heq
      cases a <;> cases heq
    · rw [sentArg_of_not_local hl'] at heq
      exact map_old_injective heq

/-- **The merged call**: common arguments stay, the others are loads from their slots. -/
theorem Setting.op_merged :
    ((items site p).foldl useLoad (sentCall site p false)).op =
      .call (p.callee false) ((items site p).map fun e =>
        if e.1.1 = e.1.2 then e.1.1 else .inst (.argLoad e.2)) := by
  have hfst : (p.args false).map (sentArg site p false) = (items site p).map fun e => e.1.1 := by
    rw [items, List.map_map, ← map_pick_argPairs hs.fit.length false, List.map_map]
    rfl
  have hpair : (items site p).Pairwise fun e e' =>
      e.1.1 ≠ e.1.2 ∨ e'.1.1 ≠ e'.1.2 → e.1.1 ≠ e'.1.1 := by
    have honce := hs.fit.once
    rw [← List.zipIdx_map_fst 0 ((p.args false).zip (p.args true)), List.pairwise_map] at honce
    rw [items, List.pairwise_map]
    refine honce.imp_of_mem fun {e e'} he he' hdistinct hne heq => ?_
    rw [ne_eq, ne_eq, sentPair_same_iff hs.placed hs.fit site he,
      sentPair_same_iff hs.placed hs.fit site he'] at hne
    exact (hdistinct hne).1 (hs.sentArg_injective (v := false) (pick_mem (mem_argPairs he) false)
      (pick_mem (mem_argPairs he') false) heq)
  have hnew : ∀ e ∈ items site p, ∀ j, e.1.1 ≠ .inst (.argLoad j) := by
    intro e' he' j heq
    obtain ⟨e, he, rfl⟩ := List.mem_map.mp he'
    have heq : sentArg site p false e.1.1 = .inst (.argLoad j) := heq
    by_cases hl : Local p false e.1.1
    · obtain ⟨I, hI, hvalue⟩ := hl
      rw [← hvalue, sentArg_local hI (hvalue ▸ pick_mem (mem_argPairs he) false)] at heq
      cases heq
    · rw [sentArg_of_not_local hl] at heq
      cases hx : e.1.1 <;> rw [hx] at heq <;> cases heq
  rw [op_foldl_useLoad, op_sentCall]
  show Op.call _ (((p.args false).map (sentArg site p false)).map _) = _
  rw [hfst, List.map_map]
  exact congrArg _ (List.map_congr_left fun e he => replaced_fst hpair hnew he)

end Blocks

/-! ### Moved instructions come before their uses -/

section Order

omit [DecidableEq ι] in
/-- What is moved uses nothing that is only passed to the calls. -/
theorem Sent.names {v : Bool} {a : Value ι} {K : Inst (Name ι)} (hF : Placed F p)
    (h : Sent F p v a K) : ∀ x ∈ K.op.operands, ∀ n ∈ x.name?, ¬ OnlyPassed F p n := by
  intro x hx n hn
  rcases h with ⟨I, hI, -, rfl⟩ | ⟨I, hI, -, rfl⟩
  · have hclean := clean_embedInst (reserved hF) (hF.mem_before hI) (hF.before_ne_call hI)
    exact hclean.names x (mem_operands_depPtr hx).1 n hn
  · obtain ⟨l, -, hl, hmem⟩ := hI.block
    rw [operands_embedInst] at hx
    obtain ⟨y, hy, rfl⟩ := List.mem_map.mp hx
    rw [name?_map_old, Option.mem_def, Option.map_eq_some_iff] at hn
    obtain ⟨i, hi, rfl⟩ := hn
    exact (reserved hF).uses l I hmem (fun w => hF.id_ne_call hmem (hl w)) y hy i hi

variable (hs : Setting site F p G R)
include hs

/-- **What stands at the end of a split block** for an argument: nothing, a store, or an instruction
    and the store of its value. -/
theorem Setting.tailOf_cases (v : Bool) {e : ArgPair ι} (he : e ∈ argPairs p) :
    (e.1.1 = e.1.2 ∧ tailOf (asInstruction G) v (sentPair site p e) = []) ∨
    (e.1.1 ≠ e.1.2 ∧ (pick v e.1).name? = none ∧ tailOf (asInstruction G) v (sentPair site p e) =
      [argStoreOf v e.2 ((pick v e.1).map .old)]) ∨
    (e.1.1 ≠ e.1.2 ∧ ∃ K, Sent F p v (pick v e.1) K ∧
      tailOf (asInstruction G) v (sentPair site p e) = [K, argStoreOf v e.2 (.inst K.id)]) := by
  have hiff := sentPair_same_iff hs.placed hs.fit site he
  by_cases heq : e.1.1 = e.1.2
  · exact Or.inl ⟨heq, by rw [tailOf, if_pos (hiff.mpr heq)]⟩
  · have hdiff : ¬ (sentPair site p e).1.1 = (sentPair site p e).1.2 := fun h => heq (hiff.mp h)
    rw [tailOf, if_neg hdiff, movedBy, if_neg hdiff]
    rcases movedBy_sentPair hs.placed hs.fit hs.gated he heq with ⟨hnone, hname⟩ | ⟨K, hK⟩
    · have hlocal : ¬ Local p v (pick v e.1) := by
        rintro ⟨I, -, hI⟩
        have hv := hname v
        rw [← hI, name?_value] at hv
        cases hv
      rw [hnone, side_sentPair, sentArg_of_not_local hlocal]
      exact Or.inr (Or.inl ⟨heq, hname v, rfl⟩)
    · obtain ⟨hsent, hinst⟩ := hK v
      rw [hinst, side_sentPair, hsent.sentArg_eq hs.placed (pick_mem (mem_argPairs he) v)]
      exact Or.inr (Or.inr ⟨heq, K v, hsent, rfl⟩)

/-- At the end of a split block, what is moved comes before its uses. -/
theorem Setting.firstIn_tails (v : Bool) {m : Name ι} (hm : OnlyPassed F p m) :
    FirstIn m ((items site p).flatMap (tailOf (asInstruction G) v)) := by
  rw [items, List.flatMap_map]
  refine firstIn_flatMap fun e he => ?_
  rcases hs.tailOf_cases v he with ⟨-, hnil⟩ | ⟨-, hnone, hone⟩ | ⟨-, K, hK, htwo⟩
  · rw [hnil]
    exact firstIn_of_unused fun J hJ => absurd hJ List.not_mem_nil
  · rw [hone]
    refine firstIn_of_unused fun J hJ x hx hname => ?_
    rw [List.mem_singleton.mp hJ] at hx
    rw [List.mem_singleton.mp hx, name?_map_old, hnone] at hname
    cases hname
  · rw [htwo]
    have hunused : ∀ x ∈ K.op.operands, x.name? ≠ some m :=
      fun x hx hname => hK.names hs.placed x hx m hname hm
    by_cases hid : K.id = m
    · rw [← hid] at hunused ⊢
      exact firstIn_cons_self hunused
    · refine firstIn_of_unused fun J hJ x hx hname => ?_
      rcases List.mem_cons.mp hJ with rfl | hJ
      · exact hunused x hx hname
      · rw [List.mem_singleton.mp hJ] at hx
        rw [List.mem_singleton.mp hx] at hname
        exact hid (Option.some.inj hname)

/-- What stands at the ends of the split blocks leads nowhere. -/
theorem Setting.dests_tail {v : Bool} {J : Inst (Name ι)}
    (hJ : J ∈ (items site p).flatMap (tailOf (asInstruction G) v)) : J.op.dests = [] := by
  obtain ⟨e', he', hJ⟩ := List.mem_flatMap.mp hJ
  obtain ⟨e, he, rfl⟩ := List.mem_map.mp he'
  rcases hs.tailOf_cases v he with ⟨-, hnil⟩ | ⟨-, -, hone⟩ | ⟨-, K, hK, htwo⟩
  · rw [hnil] at hJ
    exact absurd hJ List.not_mem_nil
  · rw [hone] at hJ
    rw [List.mem_singleton.mp hJ]
    rfl
  · rw [htwo] at hJ
    rcases List.mem_cons.mp hJ with rfl | hJ
    · exact dests_of_isPure hK.isPure
    · rw [List.mem_singleton.mp hJ]
      rfl

/-- **The second call is out of reach.** -/
theorem Setting.not_dest {l : Name ι} {J : Inst (Name ι)} (hJ : J ∈ (merged site p G R).block l) :
    Name.that true ∉ J.op.dests := by
  by_cases hthis : ∃ v, l = .old (p.block v)
  · obtain ⟨v, rfl⟩ := hthis
    rw [hs.block_this] at hJ
    rcases List.mem_append.mp hJ with hJ | hJ
    · rcases List.mem_append.mp hJ with hJ | hJ
      · exact (clean_body hs.placed (reserved hs.placed) hJ).dests
      · rw [hs.dests_tail hJ]
        exact List.not_mem_nil
    · rw [List.mem_singleton.mp hJ]
      simp [Op.dests]
  · by_cases hlib : l = .that false
    · rw [hlib, hs.block_lib] at hJ
      rcases List.mem_append.mp hJ with hJ | hJ
      · obtain ⟨e, -, hJ⟩ := List.mem_flatMap.mp hJ
        rw [loadOf] at hJ
        split_ifs at hJ
        · exact absurd hJ List.not_mem_nil
        · rw [List.mem_singleton.mp hJ]
          exact List.not_mem_nil
      · rcases List.mem_cons.mp hJ with rfl | hJ
        · rw [hs.op_merged]
          exact List.not_mem_nil
        · exact (hs.clean J hJ).dests
    · have hother : J ∈ G.block l := by
        have hblock : (merged site p G R).block l = _ :=
          block_merged_other (items site p) (fun v heq => hthis ⟨v, heq⟩) hlib
        rw [hblock] at hJ
        exact List.mem_of_mem_filter hJ
      rcases hs.gated.cases hs.placed hother with
        ⟨i, -, -, I, -, rfl⟩ | hclean | ⟨w, -, hJ | rfl⟩ | ⟨w, -, rfl⟩
      · rw [embedInst, dests_bimap]
        simp
      · exact hclean.dests
      · obtain ⟨d, -, n, -, rfl⟩ := mem_argDeps hJ
        exact List.not_mem_nil
      · rw [op_sentCall]
        exact List.not_mem_nil
      · simp [Op.dests]

theorem Setting.not_reached {path : List (Name ι)} :
    ¬ (merged site p G R).cfg.IsPath (path ++ [.that true]) := by
  rintro ⟨hhead, hchain⟩
  rcases List.eq_nil_or_concat' path with rfl | ⟨path, l, rfl⟩
  · have hentry : Name.that true = G.entry := Option.some.inj hhead
    rw [hs.gated.entry] at hentry
    cases hentry
  · rw [List.append_assoc, List.singleton_append, List.isChain_split] at hchain
    obtain ⟨t, ht, hdest⟩ := (List.isChain_cons_cons.mp hchain.2).1
    exact hs.not_dest (List.mem_of_getLast? ht) hdest

/-- A common argument is none that is moved. -/
theorem Setting.not_onlyPassed_common {e : ArgPair ι} (he : e ∈ argPairs p)
    (heq : e.1.1 = e.1.2) {i : ι} (hi : e.1.1.name? = some i) : ¬ OnlyPassed F p (.old i) := by
  rintro (⟨v, j, k, h⟩ | ⟨v, I, hI, h⟩)
  · cases h
  · rw [Name.old.inj h] at hi
    refine hI.not_common hs.placed (w := !v) (by simp) hi ?_
    have hmem := pick_mem (mem_argPairs he) (!v)
    rwa [pick_of_same heq] at hmem

/-- Where the merged call is made, nothing uses what is moved. -/
theorem Setting.names_lib {J : Inst (Name ι)} (hJ : J ∈ (merged site p G R).block (.that false)) :
    ∀ x ∈ J.op.operands, ∀ n ∈ x.name?, ¬ OnlyPassed F p n := by
  rw [hs.block_lib] at hJ
  intro x hx n hn
  rcases List.mem_append.mp hJ with hJ | hJ
  · obtain ⟨e, -, hJ⟩ := List.mem_flatMap.mp hJ
    rw [loadOf] at hJ
    split_ifs at hJ
    · exact absurd hJ List.not_mem_nil
    · rw [List.mem_singleton.mp hJ] at hx
      exact absurd hx List.not_mem_nil
  · rcases List.mem_cons.mp hJ with rfl | hJ
    · rw [hs.op_merged] at hx
      obtain ⟨e', he', rfl⟩ := List.mem_map.mp hx
      obtain ⟨e, he, rfl⟩ := List.mem_map.mp he'
      by_cases heq : e.1.1 = e.1.2
      · have hlocal := hs.fit.same e.1 (mem_argPairs he) heq false
        rw [if_pos ((sentPair_same_iff hs.placed hs.fit site he).mpr heq)] at hn
        have hn : n ∈ (sentArg site p false e.1.1).name? := hn
        rw [sentArg_of_not_local hlocal, name?_map_old, Option.mem_def,
          Option.map_eq_some_iff] at hn
        obtain ⟨i, hi, rfl⟩ := hn
        exact hs.not_onlyPassed_common he heq hi
      · rw [if_neg fun h => heq ((sentPair_same_iff hs.placed hs.fit site he).mp h)] at hn
        obtain rfl := Option.some.inj hn
        exact (reserved hs.placed).not_new (by simp) (by simp)
    · exact (hs.clean J hJ).names x hx n hn

/-- **The instructions that are moved come before all their uses.** -/
theorem Setting.moved_comesFirst {m : Name ι} (hm : m ∈ moved site p G) :
    (merged site p G R).ComesFirst m := by
  have hbad := hs.onlyPassed hm
  refine comesFirst_of_firstIn fun path l hpath => ?_
  by_cases hthis : ∃ v, l = .old (p.block v)
  · obtain ⟨v, rfl⟩ := hthis
    rw [hs.block_this]
    refine (FirstIn.append (firstIn_of_unused fun J hJ x hx hname => ?_)
      (hs.firstIn_tails v hbad)).append (firstIn_of_unused fun J hJ x hx => ?_)
    · exact (clean_body hs.placed (reserved hs.placed) hJ).names x hx m hname hbad
    · rw [List.mem_singleton.mp hJ] at hx
      exact absurd hx List.not_mem_nil
  · refine firstIn_of_unused fun J hJ x hx hname => ?_
    by_cases hlib : l = .that false
    · rw [hlib] at hJ
      exact hs.names_lib hJ x hx m hname hbad
    · have hother : J ∈ G.block l := by
        rw [merged, block_merged_other _ (fun v heq => hthis ⟨v, heq⟩) hlib] at hJ
        exact List.mem_of_mem_filter hJ
      rcases hs.gated.cases hs.placed hother with
        ⟨i, -, hi, I, hI, rfl⟩ | hclean | ⟨w, hl, -⟩ | ⟨w, hl, -⟩
      · rw [operands_embedInst] at hx
        obtain ⟨y, hy, rfl⟩ := List.mem_map.mp hx
        rw [name?_map_old, Option.map_eq_some_iff] at hname
        obtain ⟨j, hj, rfl⟩ := hname
        exact (reserved hs.placed).uses i I hI (fun w => hs.placed.id_ne_call hI (hi w)) y hy j hj
          hbad
      · exact hclean.names x hx m hname hbad
      · cases w with
        | false => exact hlib hl
        | true => exact hs.not_reached (hl ▸ hpath)
      · exact hthis ⟨w, hl⟩

end Order

end Firestarter.EntryGate
