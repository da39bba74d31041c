import Firestarter.Hybrid.LibCallArgs

namespace Firestarter.EntryGate

open Ssa

/-!
# What a merged library call receives

Up to the calls the function does the same as before the pass.  There, each variant stores what it
passes in the slots of the arguments, and the merged call loads it.

* `Reread`: the arguments that are loaded or computed once more at the end of the split block;
* `walk_agree`: the way to the calls;
* `ready_body`, `ready_tails`: the split block of a variant;
* `merged_args_iff`: when the merged call receives the arguments of the call it replaces.
-/

variable {ι : Type}

section Conditions

variable (F : Func ι) (p : CallPair ι)

/-- The values that the function has before and after the pass, wherever it is. -/
def Shown (n : Name ι) : Prop := (∃ i, n = .old i) ∧ ¬ OnlyPassed F p n

/-- A slot that the function had before the pass. -/
def OldSlot (t : Name ι) : Prop := ∃ i, t = .old i

/-- A block of the pair. -/
def PairBlock (l : Name ι) : Prop := ∃ v, l = .old (p.block v)

/-- **An argument that is read again** when the call is reached: one that was loaded from an alloca,
    or comes from another block. -/
def Reread (v : Bool) (I : Inst ι) : Prop :=
  (I ∈ p.before v ∧ (reusedSlot I).isSome) ∨ Remote F p v I

/-- **What a variant passes** for an argument, if the call is reached in the state `s`. -/
inductive Passes (W : World (Name ι)) (v : Bool) (s : State (Name ι)) : Value ι → ℕ → Prop
  | reread {I : Inst ι} (h : Reread F p v I) : Passes W v s I.value ((embedInst I).op.value W s)
  | kept {a : Value ι} (h : ∀ I, I.value = a → ¬ Reread F p v I) :
    Passes W v s a (W.eval s.env (a.map .old))

/-- A state of the function after the pass, when the state before it was `s`: what the call needs
    has been saved. -/
structure Ready (v : Bool) (s s' : State (Name ι)) : Prop where
  agree : Agree (Shown F p) OldSlot s s'
  saved : ∀ I ∈ p.before v, I.value ∈ p.args v → ¬ (reusedSlot I).isSome →
    s'.slots (.depSlot (.old I.id)) = s.env (.old I.id)

end Conditions

variable {F : Func ι} {p : CallPair ι}

/-! ### The way to the calls -/

variable {I : Inst ι} {k : Config (Name ι)} {v : Bool} {s : State (Name ι)}

theorem within_embedInst (hF : Placed F p) {l : ι} (hI : I ∈ F.block l)
    (hcall : ∀ w, I.id ≠ p.call w) : (embedInst I).op.Within (Shown F p) OldSlot where
  names x hx n hn := by
    rw [operands_embedInst] at hx
    obtain ⟨y, hy, rfl⟩ := List.mem_map.mp hx
    rw [name?_map_old, Option.mem_def, Option.map_eq_some_iff] at hn
    obtain ⟨i, hi, rfl⟩ := hn
    exact ⟨⟨i, rfl⟩, (reserved hF).uses l I hI hcall y hy i hi⟩
  slots t ht := by
    rw [embedInst, slot?_bimap, Option.mem_def, Option.map_eq_some_iff] at ht
    obtain ⟨i, -, rfl⟩ := ht
    exact ⟨i, rfl⟩

/-- An instruction that is only passed to a call is a load or computation. -/
theorem isPure_of_onlyPassed (hF : Placed F p) {l : ι} (hI : I ∈ F.block l)
    (h : OnlyPassed F p (.old I.id)) : (embedInst I).op.isPure := by
  rcases h with ⟨v, i, k, h⟩ | ⟨v, J, hJ, h⟩
  · cases h
  · obtain ⟨l', -, -, hmem⟩ := hJ.block
    rw [hF.inst_eq hI hmem (Name.old.inj h)]
    exact (isPure_bimap _ _ _).trans hJ.pure

variable [DecidableEq ι] {site : Site} {G : Func (Name ι)} {R : List (Inst (Name ι))}

/-- **Outside of the blocks of the pair** the function does the same. -/
theorem Setting.walk_agree (hs : Setting site F p G R) (W : World (Name ι))
    {k' k₁ : Config (Name ι)} (h : k.Agree (Shown F p) OldSlot k')
    (hwalk : (embed F).Walk W (PairBlock p) k k₁) :
    ∃ k₁', (merged site p G R).Walk W (PairBlock p) k' k₁' ∧ k₁.Agree (Shown F p) OldSlot k₁' := by
  -- a block outside of the pair, with code
  have hold : ∀ l, ¬ PairBlock p l → ∀ J ∈ (embed F).block l,
      ∃ i, l = .old i ∧ (∀ w, i ≠ p.block w) ∧ ∃ I ∈ F.block i, J = embedInst I := by
    intro l hl J hJ
    cases l with
    | old i =>
      obtain ⟨I, hI, rfl⟩ := List.mem_map.mp hJ
      exact ⟨i, rfl, fun w heq => hl ⟨w, congrArg Name.old heq⟩, I, hI, rfl⟩
    | _ => exact absurd hJ List.not_mem_nil
  refine walk_filter W (stays (asInstruction G) (items site p)) (fun l hl hne => ?_)
    (fun l hl J hJ => ?_) (fun l hl J hJ hgone => ?_) h hwalk
  · obtain ⟨J, hJ⟩ := List.exists_mem_of_ne_nil _ hne
    obtain ⟨i, rfl, hi, -⟩ := hold l hl J hJ
    exact hs.block_other hi
  · obtain ⟨i, rfl, hi, I, hI, rfl⟩ := hold l hl J hJ
    exact within_embedInst hs.placed hI fun w => hs.placed.id_ne_call hI (hi w)
  · obtain ⟨i, rfl, hi, I, hI, rfl⟩ := hold l hl J hJ
    have hmoved : OnlyPassed F p (.old I.id) := by
      refine hs.onlyPassed ?_
      by_contra hnot
      exact of_decide_eq_false hgone hnot
    exact Or.inl ⟨isPure_of_onlyPassed hs.placed hI hmoved, fun hshown => hshown.2 hmoved⟩

/-! ### The split block of a variant -/

omit [DecidableEq ι] in
theorem isSome_reusedSlot_embedInst (I : Inst ι) :
    (reusedSlot (embedInst I)).isSome = (reusedSlot I).isSome := by
  obtain ⟨i, o⟩ := I
  cases o with
  | load ptr =>
    cases ptr with
    | val a => cases a <;> rfl
    | slot t => rfl
  | store x ptr => cases ptr <;> rfl
  | _ => rfl

/-- The announcement of the call is out of view, and leaves what has been saved. -/
theorem hidden_announce (F : Func ι) {ds : List (Inst (Name ι))} {J : Inst (Name ι)}
    (hJ : J ∈ (announce site v (p.retAlloca v)).flatMap (saveBehind ds)) :
    J.Hidden (Shown F p) OldSlot ∧ ∀ i : ι, J.op.slot? ≠ some (.depSlot (.old i)) := by
  have hcases : (∃ x t, J.op = .store x (.slot t) ∧ (∀ i, t ≠ .old i) ∧
        ∀ i, t ≠ .depSlot (.old i)) ∨
      J = ⟨.retCast v, .compute site.bitcast [.alloca (.old (p.retAlloca v))]⟩ := by
    obtain ⟨I, hI, hJ⟩ := List.mem_flatMap.mp hJ
    simp only [announce, List.mem_cons, List.not_mem_nil, or_false] at hI
    rw [saveBehind] at hJ
    split_ifs at hJ
    · simp only [List.mem_cons, List.not_mem_nil, or_false] at hJ
      rcases hI with rfl | rfl <;> rcases hJ with rfl | rfl
      · exact Or.inr rfl
      · exact Or.inl ⟨_, _, rfl, by simp, by simp⟩
      · exact Or.inl ⟨_, _, rfl, by simp, by simp⟩
      · exact Or.inl ⟨_, _, rfl, by simp, by simp⟩
    · rw [List.mem_singleton.mp hJ]
      rcases hI with rfl | rfl
      · exact Or.inr rfl
      · exact Or.inl ⟨_, _, rfl, by simp, by simp⟩
  rcases hcases with ⟨x, t, hop, hold, hdep⟩ | rfl
  · have hslot : ¬ OldSlot t := by
      rintro ⟨i, hi⟩
      exact hold i hi
    refine ⟨Or.inr ⟨x, t, hop, hslot⟩, fun i heq => hdep i ?_⟩
    rw [hop] at heq
    exact Option.some.inj heq
  · refine ⟨Or.inl ⟨rfl, ?_⟩, fun i heq => by cases heq⟩
    rintro ⟨⟨i, hi⟩, -⟩
    cases hi

/-- **The code before the call**: what it needs is saved. -/
theorem ready_body (hF : Placed F p) (site : Site) (W : World (Name ι)) {k' : Config (Name ι)}
    (h : k.Agree (Shown F p) OldSlot k') (v : Bool) :
    Ready F p v (k.behind W ((p.before v).map embedInst)) (k'.behind W (body site p v)) := by
  have hf : ∀ J ∈ (p.before v).map embedInst, saveBehind (deps site p v) J = [J] ∨
      saveBehind (deps site p v) J =
        [J, ⟨.depStore J.id, .store J.value (.slot (.depSlot J.id))⟩] := by
    intro J _
    rw [saveBehind]
    split_ifs
    · exact Or.inr rfl
    · exact Or.inl rfl
  have hwithin : ∀ J ∈ (p.before v).map embedInst, J.op.Within (Shown F p) OldSlot := by
    intro J hJ
    obtain ⟨I, hI, rfl⟩ := List.mem_map.mp hJ
    exact within_embedInst hF (hF.mem_before hI) (hF.before_ne_call hI)
  have hshown : ∀ J ∈ (p.before v).map embedInst, Shown F p J.id := by
    intro J hJ
    obtain ⟨I, hI, rfl⟩ := List.mem_map.mp hJ
    exact ⟨⟨I.id, rfl⟩, (reserved hF).block v I (hF.mem_before hI)⟩
  have hnodup : (((p.before v).map embedInst).map Inst.id).Nodup := by
    have hcode : ((code site p v ++ [thatBr v]).map Inst.id).Nodup := nodup_code hF v
    rw [code, List.append_assoc, List.map_append, List.nodup_append] at hcode
    exact hcode.1
  have hslot : ∀ n : Name ι, ¬ OldSlot (.depSlot n) := by
    rintro n ⟨i, hi⟩
    cases hi
  obtain ⟨hagree, hsaved⟩ := execInsts_save W k'.prev h.state.env h.state hf hwithin hshown hnodup
    (fun i j hij => Name.depSlot.inj hij) hslot
  have hbehind : k'.behind W (body site p v) = execInsts W k'.prev k'.state.env
      (execInsts W k'.prev k'.state.env k'.state
        (((p.before v).map embedInst).flatMap (saveBehind (deps site p v))))
      ((announce site v (p.retAlloca v)).flatMap (saveBehind (deps site p v))) := by
    rw [Config.behind, body, code, List.flatMap_append, execInsts_append]
  rw [hbehind, Config.behind, h.prev]
  refine ⟨execInsts_hidden W _ _ hagree fun J hJ => (hidden_announce F hJ).1,
    fun I hI harg hnot => ?_⟩
  rw [slots_execInsts_of_ne W _ _ _ fun J hJ => (hidden_announce F hJ).2 I.id]
  refine hsaved (embedInst I) (List.mem_map_of_mem hI) ?_
  rw [← isSome_reusedSlot_embedInst] at hnot
  rw [saveBehind, if_pos ⟨embedInst_mem_deps hI harg, hnot⟩]
  simp

omit [DecidableEq ι] in
/-- The load from an alloca that is used again is the load that there was. -/
theorem load_depPtr {J : Inst (Name ι)} (h : (reusedSlot J).isSome) : .load (depPtr J) = J.op := by
  obtain ⟨j, o⟩ := J
  cases o with
  | load ptr =>
    cases ptr with
    | val a =>
      cases a with
      | alloca x => rfl
      | _ => exact absurd h Bool.false_ne_true
    | slot t => rfl
  | _ => exact absurd h Bool.false_ne_true

omit [DecidableEq ι] in
theorem Reread.mem (hF : Placed F p) (h : Reread F p v I) : ∃ l, I ∈ F.block l := by
  rcases h with ⟨hI, -⟩ | hI
  · exact ⟨_, hF.mem_before hI⟩
  · obtain ⟨l, -, -, hmem⟩ := hI.block
    exact ⟨l, hmem⟩

omit [DecidableEq ι] in
/-- What a variant passes for an argument that is read again. -/
theorem Passes.eq_of_reread (hF : Placed F p) {W : World (Name ι)} {a : Value ι} {x : ℕ}
    (h : Passes F p W v s a x) (hI : Reread F p v I) (hvalue : I.value = a) :
    x = (embedInst I).op.value W s := by
  cases h with
  | @reread J hJ =>
    obtain ⟨l, hmem⟩ := hI.mem hF
    obtain ⟨l', hmem'⟩ := hJ.mem hF
    rw [hF.inst_eq hmem hmem' (id_eq_of_value hvalue)]
  | kept hnot => exact absurd hI (hnot I hvalue)

omit [DecidableEq ι] in
/-- What has been saved is not read again. -/
theorem not_reread_of_saved (hF : Placed F p) {J : Inst ι} (hI : I ∈ p.before v)
    (hnot : ¬ (reusedSlot I).isSome) (hvalue : J.value = I.value) : ¬ Reread F p v J := by
  intro hJ
  obtain ⟨l, hmem⟩ := hJ.mem hF
  obtain rfl : J = I := hF.inst_eq hmem (hF.mem_before hI) (id_eq_of_value hvalue)
  rcases hJ with ⟨-, hsome⟩ | hremote
  · exact hnot hsome
  · exact hremote.not_local hF ⟨J, hI, value_of_isPure hremote.pure⟩

omit [DecidableEq ι] in
/-- Code that changes nothing in view, and leaves what has been saved. -/
theorem Ready.trans {s' s'' : State (Name ι)} (h : Ready F p v s s')
    (hagree : Agree (Shown F p) OldSlot s' s'')
    (hslots : ∀ i : ι, s''.slots (.depSlot (.old i)) = s'.slots (.depSlot (.old i))) :
    Ready F p v s s'' where
  agree := h.agree.trans hagree
  saved I hI harg hnot := (hslots I.id).trans (h.saved I hI harg hnot)

section Tails

variable (hs : Setting site F p G R) (W : World (Name ι)) (prev : Name ι) (entry : Name ι → ℕ)

variable {v : Bool} {s s' : State (Name ι)}

/-- The store of an argument. -/
theorem Ready.argStore (h : Ready F p v s s') (j : ℕ) (a : Value (Name ι)) :
    Ready F p v s (execInst W prev entry s' (argStoreOf v j a)) := by
  have hhidden : (argStoreOf v j a).Hidden (Shown F p) OldSlot := by
    refine Or.inr ⟨a, .argSlot j, rfl, ?_⟩
    rintro ⟨i, hi⟩
    cases hi
  refine h.trans (execInst_hidden W prev entry s' hhidden) fun i => ?_
  exact slots_execInst_of_ne W prev entry s' fun heq => by cases heq

/-- The instruction that is moved for an argument. -/
theorem Ready.sent (h : Ready F p v s s') {a : Value ι} {K : Inst (Name ι)} (hK : Sent F p v a K) :
    Ready F p v s (s'.set K.id (K.op.value W s')) :=
  h.trans (agree_set (fun hshown => hshown.2 hK.onlyPassed) s' _) fun _ => rfl

include hs

/-- **What is moved for an argument** computes what the variant passes. -/
theorem Setting.passes_sent {a : Value ι} {K : Inst (Name ι)} (hready : Ready F p v s s')
    (hK : Sent F p v a K) (harg : a ∈ p.args v) : Passes F p W v s a (K.op.value W s') := by
  rcases hK with ⟨I, hI, rfl, rfl⟩ | ⟨I, hI, rfl, rfl⟩
  · have hwithin := within_embedInst hs.placed (hs.placed.mem_before hI)
      (hs.placed.before_ne_call hI)
    by_cases hreused : (reusedSlot I).isSome
    · have hop : Op.load (depPtr (embedInst I)) = (embedInst I).op :=
        load_depPtr (isSome_reusedSlot_embedInst I ▸ hreused)
      show Passes F p W v s I.value (Op.value W s' (.load (depPtr (embedInst I))))
      rw [hop, ← value_agree W hready.agree hwithin]
      exact Passes.reread (Or.inl ⟨hI, hreused⟩)
    · have hptr : depPtr (embedInst I) = .slot (.depSlot (.old I.id)) := by
        rw [← isSome_reusedSlot_embedInst, Option.not_isSome_iff_eq_none] at hreused
        rw [depPtr, hreused]
        rfl
      show Passes F p W v s I.value (Op.value W s' (.load (depPtr (embedInst I))))
      have hvalue : Op.value W s' (.load (depPtr (embedInst I))) =
          W.eval s.env (I.value.map .old) := by
        rw [hptr, ← value_embedInst, eval_value]
        exact hready.saved I hI harg hreused
      rw [hvalue]
      exact Passes.kept fun J hJ => not_reread_of_saved hs.placed hI hreused hJ
  · obtain ⟨l, -, hl, hmem⟩ := hI.block
    have hwithin := within_embedInst hs.placed hmem fun w => hs.placed.id_ne_call hmem (hl w)
    rw [← value_agree W hready.agree hwithin, ← value_of_isPure hI.pure]
    exact Passes.reread (Or.inr hI)

/-- **The code for one argument** at the end of a split block. -/
theorem Setting.ready_tail (hready : Ready F p v s s') {e : ArgPair ι} (he : e ∈ argPairs p) :
    Ready F p v s (execInsts W prev entry s' (tailOf (asInstruction G) v (sentPair site p e))) ∧
      (∀ j, j ≠ e.2 → (execInsts W prev entry s'
        (tailOf (asInstruction G) v (sentPair site p e))).slots (.argSlot j) =
          s'.slots (.argSlot j)) ∧
      (e.1.1 ≠ e.1.2 → Passes F p W v s (pick v e.1) ((execInsts W prev entry s'
        (tailOf (asInstruction G) v (sentPair site p e))).slots (.argSlot e.2))) := by
  rcases hs.tailOf_cases v he with ⟨heq, hnil⟩ | ⟨hne, hnone, hone⟩ | ⟨hne, K, hK, htwo⟩
  · rw [hnil]
    exact ⟨hready, fun _ _ => rfl, fun hne => absurd heq hne⟩
  · rw [hone]
    refine ⟨hready.argStore W prev entry e.2 _, fun j hj => ?_, fun _ => ?_⟩
    · exact Function.update_of_ne (fun heq => hj (Name.argSlot.inj heq)) _ _
    · show Passes F p W v s _ (Function.update s'.slots (.argSlot e.2) _ (.argSlot e.2))
      rw [Function.update_self, eval_agree W hready.agree.symm.env fun i hi => ?_]
      · refine Passes.kept fun I hI => ?_
        rw [← hI, name?_value] at hnone
        cases hnone
      · rw [name?_map_old, hnone] at hi
        cases hi
  · rw [htwo]
    have hsent := hready.sent W hK
    have hexec : execInsts W prev entry s' [K, argStoreOf v e.2 (.inst K.id)] =
        execInst W prev entry (s'.set K.id (K.op.value W s')) (argStoreOf v e.2 (.inst K.id)) := by
      rw [execInsts, List.foldl_cons, List.foldl_cons, List.foldl_nil,
        execInst_pure W prev entry s' hK.isPure]
    rw [hexec]
    refine ⟨hsent.argStore W prev entry e.2 _, fun j hj => ?_, fun _ => ?_⟩
    · exact Function.update_of_ne (fun heq => hj (Name.argSlot.inj heq)) _ _
    · show Passes F p W v s _ (Function.update s'.slots (.argSlot e.2)
        (Function.update s'.env K.id _ K.id) (.argSlot e.2))
      rw [Function.update_self, Function.update_self]
      exact hs.passes_sent W hready hK (pick_mem (mem_argPairs he) v)

/-- **The end of a split block**: the slots have what the variant passes. -/
theorem Setting.ready_tails (hready : Ready F p v s s') {es : List (ArgPair ι)}
    (hes : ∀ e ∈ es, e ∈ argPairs p) (hnodup : (es.map Prod.snd).Nodup) :
    Ready F p v s (execInsts W prev entry s'
        ((es.map (sentPair site p)).flatMap (tailOf (asInstruction G) v))) ∧
      ∀ e ∈ es, e.1.1 ≠ e.1.2 → Passes F p W v s (pick v e.1) ((execInsts W prev entry s'
        ((es.map (sentPair site p)).flatMap (tailOf (asInstruction G) v))).slots
          (.argSlot e.2)) := by
  induction es using List.reverseRecOn with
  | nil => exact ⟨hready, fun e he => absurd he List.not_mem_nil⟩
  | append_singleton es e ih =>
    rw [List.map_append, List.nodup_append] at hnodup
    obtain ⟨hready', hpassed⟩ := ih (fun d hd => hes d (List.mem_append_left _ hd)) hnodup.1
    obtain ⟨hready'', hother, hthis⟩ := hs.ready_tail W prev entry hready'
      (hes e (List.mem_append_right _ List.mem_cons_self))
    rw [List.map_append, List.flatMap_append, List.map_singleton, List.flatMap_singleton,
      execInsts_append]
    refine ⟨hready'', fun d hd hne => ?_⟩
    rcases List.mem_append.mp hd with hd | hd
    · -- the store for `e` is to another slot
      have hj : d.2 ≠ e.2 :=
        hnodup.2.2 d.2 (List.mem_map_of_mem hd) e.2 List.mem_cons_self
      rw [hother d.2 hj]
      exact hpassed d hd hne
    · rw [List.mem_singleton.mp hd] at hne ⊢
      exact hthis hne

/-- **The split block** leads to the merged call. -/
theorem Setting.step_this {k k' : Config (Name ι)} (hlabel : k.label = .old (p.block v))
    (h : k.Agree (Shown F p) OldSlot k') :
    ∃ k₂, (merged site p G R).step W k' = some k₂ ∧ k₂.label = .that false ∧
      Ready F p v (k.behind W ((p.before v).map embedInst)) k₂.state ∧
      ∀ e ∈ argPairs p, e.1.1 ≠ e.1.2 → Passes F p W v
        (k.behind W ((p.before v).map embedInst)) (pick v e.1) (k₂.state.slots (.argSlot e.2)) := by
  have hblock : (merged site p G R).block k'.label = body site p v ++
      (items site p).flatMap (tailOf (asInstruction G) v) ++
        [⟨.entryBr v, .br [] [.that false]⟩] := by
    rw [← h.label, hlabel]
    exact hs.block_this v
  have hlast : ((merged site p G R).block k'.label).getLast? =
      some ⟨.entryBr v, .br [] [.that false]⟩ := by
    rw [hblock]
    exact List.getLast?_concat
  have hnodup : ((argPairs p).map Prod.snd).Nodup := by
    rw [argPairs, List.zipIdx_map_snd]
    exact List.nodup_range'
  obtain ⟨hready, hpasses⟩ := hs.ready_tails W k'.prev k'.state.env
    (ready_body hs.placed site W h v) (fun e he => he) hnodup
  have hbehind : k'.behind W ((merged site p G R).block k'.label) =
      execInsts W k'.prev k'.state.env (k'.behind W (body site p v))
        ((items site p).flatMap (tailOf (asInstruction G) v)) := by
    rw [hblock, Config.behind, execInsts_append, execInsts_append]
    rfl
  refine ⟨_, step_eq W hlast, rfl, ?_⟩
  rw [hbehind]
  exact ⟨hready, hpasses⟩

/-- An argument that is read again is one that differs. -/
theorem Setting.reread_differs {I : Inst ι} (hI : Reread F p v I) {e : ArgPair ι}
    (he : e ∈ argPairs p) (hpick : pick v e.1 = I.value) : e.1.1 ≠ e.1.2 := by
  rcases hI with ⟨hmem, -⟩ | hremote
  · exact hs.local_differs ⟨I, hmem, rfl⟩ (mem_argPairs he) hpick
  · intro heq
    rw [pick_of_same heq] at hpick
    have hname : e.1.1.name? = some I.id := hpick ▸ name?_value I
    exact hs.not_onlyPassed_common he heq hname (Or.inr ⟨v, I, hremote, rfl⟩)

end Tails

/-! ### The merged call -/

/-- The loads before the merged call. -/
theorem execInsts_loadOf (W : World (Name ι)) (prev : Name ι) (entry : Name ι → ℕ)
    (s : State (Name ι)) (es : List (ArgPair (Name ι))) :
    (execInsts W prev entry s (es.flatMap loadOf)).slots = s.slots ∧
      (∀ i : ι, (execInsts W prev entry s (es.flatMap loadOf)).env (.old i) = s.env (.old i)) ∧
      ∀ e ∈ es, e.1.1 ≠ e.1.2 → (execInsts W prev entry s (es.flatMap loadOf)).env (.argLoad e.2) =
        s.slots (.argSlot e.2) := by
  induction es using List.reverseRecOn with
  | nil => exact ⟨rfl, fun _ => rfl, fun e he => absurd he List.not_mem_nil⟩
  | append_singleton es e ih =>
    obtain ⟨hslots, hold, hload⟩ := ih
    rw [List.flatMap_append, List.flatMap_singleton, execInsts_append, loadOf]
    split_ifs with heq
    · refine ⟨hslots, hold, fun d hd hne => ?_⟩
      rcases List.mem_append.mp hd with hd | hd
      · exact hload d hd hne
      · rw [List.mem_singleton.mp hd] at hne
        exact absurd heq hne
    · have henv : (execInsts W prev entry (execInsts W prev entry s (es.flatMap loadOf))
          [argLoadOf e.2]).env =
            Function.update (execInsts W prev entry s (es.flatMap loadOf)).env (.argLoad e.2)
              ((execInsts W prev entry s (es.flatMap loadOf)).slots (.argSlot e.2)) := rfl
      rw [henv]
      refine ⟨hslots, fun i => ?_, fun d hd hne => ?_⟩
      · rw [Function.update_of_ne (by simp), hold i]
      · by_cases hj : d.2 = e.2
        · rw [hj, Function.update_self, hslots]
        · rw [Function.update_of_ne fun h => hj (Name.argLoad.inj h)]
          refine hload d ((List.mem_append.mp hd).resolve_right fun hd => hj ?_) hne
          rw [List.mem_singleton.mp hd]

/-- **What the merged call receives**: common arguments as they are, the others from their slots. -/
theorem Setting.argsAt_merged (hs : Setting site F p G R) (W : World (Name ι))
    (hlabel : k.label = .that false) (hready : Ready F p v s k.state) :
    (merged site p G R).argsAt W (.old (p.call false)) k = (argPairs p).map fun e =>
      if e.1.1 = e.1.2 then W.eval s.env (e.1.1.map .old) else k.state.slots (.argSlot e.2) := by
  have hblock : (merged site p G R).block k.label = (items site p).flatMap loadOf ++
      (items site p).foldl useLoad (sentCall site p false) :: R := by
    rw [hlabel]
    exact hs.block_lib
  have hcall : ((items site p).foldl useLoad (sentCall site p false)).id = .old (p.call false) :=
    id_useLoad _ _
  have hloads : ∀ I ∈ (items site p).flatMap loadOf,
      I.id ≠ ((items site p).foldl useLoad (sentCall site p false)).id := by
    intro I hI heq
    obtain ⟨j, hj⟩ := mem_loadOf hI
    rw [hj, hcall] at heq
    cases heq
  obtain ⟨-, hold, hload⟩ := execInsts_loadOf W k.prev k.state.env k.state (items site p)
  rw [← hcall, argsAt_eq W hblock hloads hs.op_merged, items, List.map_map, List.map_map]
  refine List.map_congr_left fun e he => ?_
  have hiff := sentPair_same_iff hs.placed hs.fit site he
  show W.eval _ (if (sentPair site p e).1.1 = (sentPair site p e).1.2 then _ else _) = _
  by_cases heq : e.1.1 = e.1.2
  · have harg : (sentPair site p e).1.1 = e.1.1.map .old :=
      sentArg_of_not_local (hs.fit.same e.1 (mem_argPairs he) heq false)
    rw [if_pos heq, if_pos (hiff.mpr heq), harg]
    refine eval_agree W (V := Shown F p) ?_ fun n hn => ?_
    · rintro n ⟨⟨i, rfl⟩, hn⟩
      exact (hold i).trans (hready.agree.env _ ⟨⟨i, rfl⟩, hn⟩).symm
    · rw [name?_map_old, Option.mem_def, Option.map_eq_some_iff] at hn
      obtain ⟨i, hi, rfl⟩ := hn
      exact ⟨⟨i, rfl⟩, hs.not_onlyPassed_common he heq hi⟩
  · rw [if_neg heq, if_neg fun h => heq (hiff.mp h)]
    exact hload _ (List.mem_map_of_mem he) fun h => heq (hiff.mp h)

/-- **What the call received before the pass**, and the state it was reached in. -/
theorem argsAt_embed (hF : Placed F p) (hfit : ArgsFit F p) (W : World (Name ι))
    (hlabel : k.label = .old (p.block v)) :
    (embed F).stateAt W (.old (p.call v)) k = k.behind W ((p.before v).map embedInst) ∧
      (embed F).argsAt W (.old (p.call v)) k = (argPairs p).map fun e =>
        W.eval (k.behind W ((p.before v).map embedInst)).env ((pick v e.1).map .old) := by
  have hblock : (embed F).block k.label = (p.before v).map embedInst ++
      embedInst (p.inst v) :: (p.after v).map embedInst := by
    rw [hlabel]
    show (F.block (p.block v)).map embedInst = _
    rw [hF.block, List.map_append, List.map_cons]
  have hbefore : ∀ J ∈ (p.before v).map embedInst, J.id ≠ (embedInst (p.inst v)).id := by
    intro J hJ heq
    obtain ⟨I, hI, rfl⟩ := List.mem_map.mp hJ
    exact hF.before_ne_call hI v (Name.old.inj heq)
  have hop : (embedInst (p.inst v)).op = .call (p.callee v) ((p.args v).map (Value.map .old)) := rfl
  refine ⟨stateAt_eq W hblock hbefore, (argsAt_eq W hblock hbefore hop).trans ?_⟩
  rw [← map_pick_argPairs hfit.length v, List.map_map, List.map_map]
  rfl

/-- **The values passed are the arguments** if those that are read again have not changed. -/
theorem Setting.passes_iff (hs : Setting site F p G R) (W : World (Name ι)) (slot : ℕ → ℕ)
    (hpasses : ∀ e ∈ argPairs p, e.1.1 ≠ e.1.2 → Passes F p W v s (pick v e.1) (slot e.2)) :
    (∀ e ∈ argPairs p, (if e.1.1 = e.1.2 then W.eval s.env (e.1.1.map .old) else slot e.2) =
        W.eval s.env ((pick v e.1).map .old)) ↔
      ∀ I, I.value ∈ p.args v → Reread F p v I →
        (embedInst I).op.value W s = s.env (.old I.id) := by
  constructor
  · intro heval I harg hI
    obtain ⟨e, he, hpick⟩ := exists_argPairs hs.fit.length harg
    have hne := hs.reread_differs hI he hpick
    have hslot := heval e he
    rw [if_neg hne, hpick, (hpasses e he hne).eq_of_reread hs.placed hI hpick.symm,
      ← value_embedInst, eval_value] at hslot
    exact hslot
  · intro hkept e he
    split_ifs with heq
    · rw [pick_of_same heq]
    · have harg := pick_mem (mem_argPairs he) v
      have hp := hpasses e he heq
      generalize pick v e.1 = a at harg hp ⊢
      generalize slot e.2 = x at hp ⊢
      cases hp with
      | reread hI =>
        rw [hkept _ harg hI, ← value_embedInst, eval_value]
        rfl
      | kept _ => rfl

/-- **The arguments of a merged call.**  If no phi is near the calls and their arguments can be
    merged, then the instructions that the pass moves come before their uses, and in every execution
    that reaches a call of the pair since it was last in their blocks, the merged call receives the
    same arguments if and only if those that are read again would be read as before. -/
theorem merged_args_iff (site : Site) (hF : Placed F p)
    (hsplit : ∀ v, locateTheSplit F (p.block v) = .inNonPhi) (hfit : ArgsFit F p) :
    ∃ F' moved, insertWindowEntryGate site F p.call p.retAlloca = some (F', moved) ∧
      (∀ m ∈ moved, F'.ComesFirst m) ∧
      ∀ (W : World (Name ι)) (v : Bool) (k k' k₁ : Config (Name ι)),
        k.Agree (fun n => (∃ i, n = .old i) ∧ n ∉ moved) OldSlot k' →
        (embed F).Walk W (PairBlock p) k k₁ → k₁.label = .old (p.block v) →
        ∃ k₁' k₂', F'.Walk W (PairBlock p) k' k₁' ∧ k₁'.label = k₁.label ∧
          F'.step W k₁' = some k₂' ∧ k₂'.label = .that false ∧
          (F'.argsAt W (.old (p.call false)) k₂' = (embed F).argsAt W (.old (p.call v)) k₁ ↔
            ∀ I, I.value ∈ p.args v → Reread F p v I →
              (embedInst I).op.value W ((embed F).stateAt W (.old (p.call v)) k₁) =
                ((embed F).stateAt W (.old (p.call v)) k₁).env (.old I.id)) := by
  obtain ⟨G, R, hG, hp, hR, hpass⟩ := insertWindowEntryGate_merged site hF hsplit hfit
  have hs : Setting site F p G R := ⟨hF, hfit, hG, hp, hR⟩
  refine ⟨merged site p G R, moved site p G, hpass, fun m hm => hs.moved_comesFirst hm, ?_⟩
  intro W v k k' k₁ hagree hwalk hlabel
  have hshown : k.Agree (Shown F p) OldSlot k' := by
    refine ⟨hagree.prev, hagree.label, fun n hn => ?_, hagree.state.mem, hagree.state.slots⟩
    exact hagree.state.env n ⟨hn.1, fun hmem => hn.2 (hs.onlyPassed hmem)⟩
  obtain ⟨k₁', hwalk', hagree'⟩ := hs.walk_agree W hshown hwalk
  obtain ⟨k₂', hstep, hlib, hready, hpasses⟩ := hs.step_this W hlabel hagree'
  refine ⟨k₁', k₂', hwalk', hagree'.label.symm, hstep, hlib, ?_⟩
  obtain ⟨hstate, hargs⟩ := argsAt_embed hF hfit W hlabel
  rw [hstate, hargs, hs.argsAt_merged W hlib hready, List.map_inj_left]
  exact hs.passes_iff W (fun j => k₂'.state.slots (.argSlot j)) hpasses

/-! ### A call with a loaded argument -/

/-- A copy of a call that passes a variable, which has changed since it was loaded if `post` is
    set, as in `f(i++)`. -/
def copyOf (post : Bool) (o : ℕ) : List (Inst ℕ) :=
  ⟨o, .load (.val (.alloca 0))⟩ ::
    (if post then [⟨o + 1, .compute 7 [.inst o, .other 1]⟩,
      ⟨o + 2, .store (.inst (o + 1)) (.val (.alloca 0))⟩] else []) ++
    [⟨o + 3, .call 9 [.inst o]⟩, ⟨o + 4, .store (.inst (o + 3)) (.val (.alloca 1))⟩,
      ⟨o + 5, .load (.val (.alloca 1))⟩, ⟨o + 6, .exit [] []⟩]

/-- A function with two copies of the call. -/
def copies (post : Bool) : Func ℕ where
  entry := 100
  labels := [100, 10, 20]
  block
    | 100 => [⟨0, .alloca (.other 1)⟩, ⟨1, .alloca (.other 1)⟩, ⟨2, .br [.other 2] [10, 20]⟩]
    | 10 => copyOf post 10
    | 20 => copyOf post 20
    | _ => []

/-- The pair of calls, if the variable does not change. -/
def copiedCalls : CallPair ℕ where
  call v := if v then 23 else 13
  block v := if v then 20 else 10
  callee _ := 9
  args v := [.inst (if v then 20 else 10)]
  before v := [⟨if v then 20 else 10, .load (.val (.alloca 0))⟩]
  after v := (copyOf false (if v then 20 else 10)).drop 2
  retAlloca _ := 1

def someSite : Site := ⟨0, 1, 2, 3, 4, 5, 6⟩

theorem copies_placed : Placed (copies false) copiedCalls := by
  -- the block of an instruction is told by its name
  have hhome : ∀ l, ∀ I ∈ (copies false).block l,
      l = if I.id < 10 then 100 else if I.id < 20 then 10 else 20 := by
    intro l I hI
    simp only [copies, copyOf] at hI
    split at hI
    all_goals simp at hI
    all_goals rcases hI with rfl | rfl | rfl | rfl | rfl <;> rfl
  refine ⟨by decide, by decide, by decide, fun l l' I hI J hJ hid => ?_, fun l => ?_, ?_, ?_,
    fun v => ⟨100, ⟨1, .alloca (.other 1)⟩, by decide, rfl, _, rfl⟩⟩
  · rw [hhome l I hI, hhome l' J hJ, hid]
  · simp only [copies]
    split <;> decide
  · intro v
    exact List.pairwise_singleton _ _
  · intro v
    cases v <;> decide

theorem copies_argsFit : ArgsFit (copies false) copiedCalls where
  length := rfl
  same := by
    intro e he heq
    rw [List.mem_singleton.mp he] at heq
    cases heq
  once := List.pairwise_singleton _ _
  kinds := by
    intro e he _
    rw [List.mem_singleton.mp he]
    exact Or.inr ⟨Or.inl ⟨_, List.mem_cons_self, rfl⟩, Or.inl ⟨_, List.mem_cons_self, rfl⟩⟩

/-- A variable that has not changed is passed as it was loaded. -/
theorem merged_args_iff_unchanged :
    ∃ F' moved, insertWindowEntryGate someSite (copies false) copiedCalls.call
        copiedCalls.retAlloca = some (F', moved) ∧ (∀ m ∈ moved, F'.ComesFirst m) ∧
      ∀ (W : World (Name ℕ)) (v : Bool) (k k₁ : Config (Name ℕ)),
        (embed (copies false)).Walk W (PairBlock copiedCalls) k k₁ →
        k₁.label = .old (copiedCalls.block v) →
        ∃ k₁' k₂', F'.Walk W (PairBlock copiedCalls) k k₁' ∧ F'.step W k₁' = some k₂' ∧
          F'.argsAt W (.old 13) k₂' =
            (embed (copies false)).argsAt W (.old (copiedCalls.call v)) k₁ := by
  obtain ⟨F', moved, hpass, hfirst, hargs⟩ :=
    merged_args_iff someSite copies_placed (fun v => by cases v <;> rfl) copies_argsFit
  refine ⟨F', moved, hpass, hfirst, fun W v k k₁ hwalk hlabel => ?_⟩
  obtain ⟨k₁', k₂', hwalk', -, hstep, -, hiff⟩ :=
    hargs W v k k k₁ ⟨rfl, rfl, fun _ _ => rfl, rfl, fun _ _ => rfl⟩ hwalk hlabel
  refine ⟨k₁', k₂', hwalk', hstep, hiff.mpr fun I harg hI => ?_⟩
  rw [(argsAt_embed copies_placed copies_argsFit W hlabel).1]
  rcases hI with ⟨hI, -⟩ | hI
  · rw [List.mem_singleton.mp hI]
    cases v <;> rfl
  · rw [value_of_isPure hI.pure] at harg
    exact absurd ⟨_, List.mem_cons_self, (List.mem_singleton.mp harg).symm⟩
      (hI.not_local copies_placed)

/-- A machine that adds, with the variables at fixed addresses. -/
def addingWorld : World (Name ℕ) where
  other n := n
  compute _ xs := xs.foldl Nat.add 0
  call _ _ m := (0, m)
  choose _ := 0
  frame
    | .old i, _, _ => 1000 + i
    | _, _, _ => 0

/-- The start of the function, with a five everywhere in memory. -/
def fives : Config (Name ℕ) := ⟨.old 2, .old 100, ⟨fun _ => 0, fun _ => 5, fun _ => 0⟩⟩

/-- **A changed variable is passed as it is at the call**: `f(i++)` receives six instead of five. -/
theorem post_increment_passed_late :
    ((embed (copies true)).step addingWorld fives).map
        ((embed (copies true)).argsAt addingWorld (.old 13)) = some [5] ∧
      (insertWindowEntryGate someSite (copies true) copiedCalls.call copiedCalls.retAlloca).bind
        (fun r => ((r.1.step addingWorld fives).bind (r.1.step addingWorld)).map
          fun k => (k.label, r.1.argsAt addingWorld (.old 13) k)) = some (.that false, [6]) := by
  decide +kernel

end Firestarter.EntryGate
