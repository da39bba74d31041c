import Firestarter.Hybrid.GatedPair

namespace Firestarter.EntryGate

open Ssa

/-!
# A merged pair of library calls

The first of two copies of a library call replaces both.  Arguments that differ between the copies
are passed in slots, which each variant fills at the end of its split block; the instructions that
compute them are moved there, or are loads from where `replaceUsesWithAlloca` kept the values.

* `ArgsFit`: which arguments the merging can handle;
* `Sent`: the instruction that is moved for an argument;
* `movable`: with such arguments, no instruction is moved twice;
* `insertWindowEntryGate_merged`: the function after the pass.
-/

variable {ι : Type}

/-! ### Which arguments are merged correctly -/

section Conditions

variable (F : Func ι) (p : CallPair ι)

/-- An argument that is computed in the block of the call. -/
def Local (v : Bool) (a : Value ι) : Prop := ∃ I ∈ p.before v, I.value = a

/-- **An argument from another block** can be moved to the call: it is loaded or computed, and used
    by nothing else. -/
structure Remote (v : Bool) (I : Inst ι) : Prop where
  block : ∃ l ∈ F.labels, (∀ w, l ≠ p.block w) ∧ I ∈ F.block l
  pure : I.op.isPure
  use : ∀ l, ∀ J ∈ F.block l, (∃ a ∈ J.op.operands, a.name? = some I.id) → J.id = p.call v

/-- An argument that a variant can pass in a slot. -/
def Carried (v : Bool) (a : Value ι) : Prop :=
  Local p v a ∨ ∃ I, Remote F p v I ∧ a = .inst I.id

/-- **Arguments that can be merged.**  A common argument is not computed in the block of a call.
    Arguments that differ are passed at no other position, and are both instructions or both
    none. -/
structure ArgsFit : Prop where
  length : (p.args false).length = (p.args true).length
  same : ∀ e ∈ (p.args false).zip (p.args true), e.1 = e.2 → ∀ v, ¬ Local p v e.1
  once : ((p.args false).zip (p.args true)).Pairwise fun e e' =>
    e.1 ≠ e.2 ∨ e'.1 ≠ e'.2 → e.1 ≠ e'.1 ∧ e.2 ≠ e'.2
  kinds : ∀ e ∈ (p.args false).zip (p.args true), e.1 ≠ e.2 →
    (e.1.name? = none ∧ e.2.name? = none) ∨ (Carried F p false e.1 ∧ Carried F p true e.2)

/-- The names of what is only passed to the calls: arguments from other blocks, and the loads for
    those from their own. -/
def OnlyPassed (n : Name ι) : Prop :=
  (∃ v i k, n = .depLoad (.old (p.call v)) i k) ∨ ∃ v I, Remote F p v I ∧ n = .old I.id

/-- The instruction that is moved for an argument. -/
def Sent (v : Bool) (a : Value ι) (K : Inst (Name ι)) : Prop :=
  (∃ I ∈ p.before v, I.value = a ∧
    K = ⟨.depLoad (.old (p.call v)) (.old I.id) 0, .load (depPtr (embedInst I))⟩) ∨
  ∃ I, Remote F p v I ∧ a = .inst I.id ∧ K = embedInst I

end Conditions

section Pair

variable {F : Func ι} {p : CallPair ι}

theorem reserved (hF : Placed F p) : Reserved F p (OnlyPassed F p) where
  uses l I hI hcall a ha i hi := by
    rintro (⟨v, j, k, h⟩ | ⟨v, J, hJ, h⟩)
    · cases h
    · exact hcall v (hJ.use l I hI ⟨a, ha, Name.old.inj h ▸ hi⟩)
  block v I hI := by
    rintro (⟨w, j, k, h⟩ | ⟨w, J, hJ, h⟩)
    · cases h
    · obtain ⟨l, -, hl, hmem⟩ := hJ.block
      exact hl v (hF.names l _ J hmem I hI (Name.old.inj h).symm)
  ret v := by
    rintro (⟨w, j, k, h⟩ | ⟨w, J, hJ, h⟩)
    · cases h
    · obtain ⟨l, I, hI, hid, size, hop⟩ := hF.ret v
      obtain ⟨l', -, -, hmem⟩ := hJ.block
      have heq : J = I := hF.inst_eq hmem hI ((Name.old.inj h).symm.trans hid.symm)
      have hpure := hJ.pure
      rw [heq, hop] at hpure
      exact Bool.false_ne_true hpure
  loads u i n := by
    constructor
    · rintro (⟨v, j, k, h⟩ | ⟨v, J, -, h⟩)
      · exact ⟨v, (Name.depLoad.inj h).1⟩
      · cases h
    · rintro ⟨v, rfl⟩
      exact Or.inl ⟨v, i, n, rfl⟩
  new n := by
    rintro (⟨v, j, k, h⟩ | ⟨v, J, -, h⟩)
    · exact Or.inr ⟨_, _, _, h⟩
    · exact Or.inl ⟨_, h⟩

variable {v : Bool} {a : Value ι}

/-- An argument from another block is passed in one variant only. -/
theorem Remote.not_common {w : Bool} {I : Inst ι} (hF : Placed F p) (hI : Remote F p v I)
    (hne : w ≠ v) (ha : a.name? = some I.id) : a ∉ p.args w := by
  intro harg
  exact hne (hF.call_injective (hI.use _ _ (hF.mem_block w) ⟨a, harg, ha⟩))

theorem not_local_of_name?_eq_none (ha : a.name? = none) : ¬ Local p v a := by
  rintro ⟨I, -, rfl⟩
  rw [name?_value] at ha
  cases ha

theorem Remote.not_local {w : Bool} {I : Inst ι} (hF : Placed F p) (hI : Remote F p v I) :
    ¬ Local p w (.inst I.id) := by
  rintro ⟨J, hJ, heq⟩
  have hname := name?_value J
  rw [heq] at hname
  obtain ⟨l, -, hl, hmem⟩ := hI.block
  exact hl w (hF.names l _ I hmem J (hF.mem_before hJ) (Option.some.inj hname))

theorem Sent.onlyPassed {K : Inst (Name ι)} (h : Sent F p v a K) : OnlyPassed F p K.id := by
  rcases h with ⟨I, -, -, rfl⟩ | ⟨I, hI, -, rfl⟩
  · exact Or.inl ⟨v, _, _, rfl⟩
  · exact Or.inr ⟨v, I, hI, rfl⟩

theorem Sent.isPure {K : Inst (Name ι)} (h : Sent F p v a K) : K.op.isPure := by
  rcases h with ⟨I, -, -, rfl⟩ | ⟨I, hI, -, rfl⟩
  · rfl
  · exact (isPure_bimap _ _ _).trans hI.pure

end Pair

/-! ### What is passed -/

section Sent

variable [DecidableEq ι] (site : Site) {F : Func ι} (p : CallPair ι)

/-- The operand of the call in place of the argument `a`, when the blocks are split. -/
def sentArg (v : Bool) (a : Value ι) : Value (Name ι) :=
  throughLoad (.old (p.call v)) (deps site p v) (a.map .old)

variable {site p}

theorem op_sentCall (v : Bool) :
    (sentCall site p v).op = .call (p.callee v) ((p.args v).map (sentArg site p v)) := by
  show Op.call _ (((p.args v).map _).map _) = _
  rw [List.map_map]
  rfl

variable {v : Bool}

/-- A dependency of the call is an argument of it. -/
theorem embedInst_mem_deps {I : Inst ι} (hI : I ∈ p.before v) (harg : I.value ∈ p.args v) :
    embedInst I ∈ deps site p v := by
  refine List.mem_filter.mpr ⟨?_, List.any_eq_true.mpr ⟨_, List.mem_cons_self, ?_⟩⟩
  · exact List.mem_append_left _ (List.mem_append_left _ (List.mem_map_of_mem hI))
  · refine decide_eq_true ?_
    rw [value_embedInst, operands_embedInst]
    exact List.mem_map_of_mem harg

/-- What is computed in the block of the call is loaded. -/
theorem sentArg_local {I : Inst ι} (hI : I ∈ p.before v) (harg : I.value ∈ p.args v) :
    sentArg site p v I.value = .inst (.depLoad (.old (p.call v)) (.old I.id) 0) := by
  have hsome : ((deps site p v).find? (·.value = I.value.map .old)).isSome := by
    refine List.find?_isSome.mpr ⟨_, embedInst_mem_deps hI harg, ?_⟩
    exact decide_eq_true (value_embedInst I)
  obtain ⟨d, hd⟩ := Option.isSome_iff_exists.mp hsome
  have hfind := List.find?_some hd
  have hvalue : d.value = I.value.map .old := of_decide_eq_true hfind
  have hname : d.id = .old I.id := by
    have h := name?_value d
    rw [hvalue, name?_map_old, name?_value] at h
    exact (Option.some.inj h).symm
  rw [sentArg, throughLoad, hd]
  show Value.inst (Name.depLoad _ d.id 0) = _
  rw [hname]

/-- What is not, stays. -/
theorem sentArg_of_not_local {a : Value ι} (ha : ¬ Local p v a) :
    sentArg site p v a = a.map .old := by
  have hnone : (deps site p v).find? (·.value = a.map .old) = none := by
    rw [List.find?_eq_none]
    intro d hd heq
    have heq : d.value = a.map .old := of_decide_eq_true heq
    have hname := name?_value d
    rw [heq, name?_map_old, Option.map_eq_some_iff] at hname
    obtain ⟨i, -, hi⟩ := hname
    rcases id_code (List.mem_append_left _ (mem_deps hd)) with ⟨J, hJ, rfl⟩ | h | h | h
    · rw [value_embedInst] at heq
      exact ha ⟨J, hJ, map_old_injective heq⟩
    all_goals
      rw [← hi] at h
      cases h
  rw [sentArg, throughLoad, hnone]

/-- The operand for an argument that is moved. -/
theorem Sent.sentArg_eq {a : Value ι} {K : Inst (Name ι)} (hF : Placed F p) (h : Sent F p v a K)
    (harg : a ∈ p.args v) : sentArg site p v a = .inst K.id := by
  rcases h with ⟨I, hI, rfl, rfl⟩ | ⟨I, hI, rfl, rfl⟩
  · exact sentArg_local hI harg
  · exact sentArg_of_not_local (hI.not_local hF)

/-- The instruction with a name that only one has. -/
theorem instOf_eq {G : Func (Name ι)} {l : Name ι} {I : Inst (Name ι)} (hl : l ∈ G.labels)
    (hI : I ∈ G.block l) (huniq : ∀ l', ∀ J ∈ G.block l', J.id = I.id → J = I) :
    instOf G I.id = some I := by
  have hsome : (instOf G I.id).isSome := by
    refine List.findSome?_isSome_iff.mpr ⟨l, hl, List.find?_isSome.mpr ⟨I, hI, ?_⟩⟩
    exact decide_eq_true rfl
  obtain ⟨J, hJ⟩ := Option.isSome_iff_exists.mp hsome
  obtain ⟨l', -, hfind⟩ := List.exists_of_findSome?_eq_some hJ
  have hid := List.find?_some hfind
  rw [hJ, huniq l' J (List.mem_of_find?_eq_some hfind) (of_decide_eq_true hid)]

end Sent

section Gated

variable [DecidableEq ι] {site : Site} {F : Func ι} {p : CallPair ι} {G : Func (Name ι)}
  (hF : Placed F p) (hG : Gated site F p (OnlyPassed F p) G)
include hF hG

variable {J : Inst (Name ι)} {v : Bool}

/-- **The code of the function with the gate**: that of another block, clean code, loads for the
    arguments, the calls, and the branches to the merged one. -/
theorem Gated.cases {l : Name ι} (hJ : J ∈ G.block l) :
    (∃ i, l = .old i ∧ (∀ v, i ≠ p.block v) ∧ ∃ I ∈ F.block i, J = embedInst I) ∨
    p.Clean (OnlyPassed F p) J ∨
    (∃ v, l = .that v ∧ (J ∈ argDeps site p v ∨ J = sentCall site p v)) ∨
    ∃ v, l = .old (p.block v) ∧ J = ⟨.entryBr v, .br [] [.that false]⟩ := by
  cases l with
  | old i =>
    by_cases hi : ∃ v, i = p.block v
    · obtain ⟨v, rfl⟩ := hi
      rw [hG.this] at hJ
      rcases List.mem_append.mp hJ with hJ | hJ
      · exact Or.inr (Or.inl (clean_body hF (reserved hF) hJ))
      · exact Or.inr (Or.inr (Or.inr ⟨v, rfl, List.mem_singleton.mp hJ⟩))
    · have hi : ∀ v, i ≠ p.block v := fun v heq => hi ⟨v, heq⟩
      rw [hG.other i hi] at hJ
      obtain ⟨I, hI, rfl⟩ := List.mem_map.mp hJ
      exact Or.inl ⟨i, rfl, hi, I, hI, rfl⟩
  | that v =>
    obtain ⟨R, hlib, hR⟩ := hG.lib v
    rw [hlib] at hJ
    rcases List.mem_append.mp hJ with hJ | hJ
    · exact Or.inr (Or.inr (Or.inl ⟨v, rfl, Or.inl hJ⟩))
    · rcases List.mem_cons.mp hJ with rfl | hJ
      · exact Or.inr (Or.inr (Or.inl ⟨v, rfl, Or.inr rfl⟩))
      · exact Or.inr (Or.inl (hR J hJ))
  | tol v => exact Or.inr (Or.inl (hG.tol v J hJ))
  | _ =>
    rw [hG.new _ (by simp) (by simp) (by simp)] at hJ
    exact absurd hJ List.not_mem_nil

/-- A name of a call is at the call only. -/
theorem Gated.eq_sentCall {l : Name ι} (hJ : J ∈ G.block l) (hid : J.id = .old (p.call v)) :
    l = .that v ∧ J = sentCall site p v := by
  rcases hG.cases hF hJ with ⟨i, -, hi, I, hI, rfl⟩ | hclean | ⟨w, hl, hJ | hJ⟩ | ⟨w, -, rfl⟩
  · exact absurd (Name.old.inj hid) (hF.id_ne_call hI (hi v))
  · exact absurd hid (hclean.call v)
  · obtain ⟨d, -, n, -, rfl⟩ := mem_argDeps hJ
    cases hid
  · rw [hJ] at hid
    obtain rfl := hF.call_injective (Name.old.inj hid)
    exact ⟨hl, hJ⟩
  · cases hid

theorem Gated.callArgs_eq (v : Bool) :
    callArgs G (.old (p.call v)) = (p.args v).map (sentArg site p v) := by
  obtain ⟨R, hlib, -⟩ := hG.lib v
  have hmem : sentCall site p v ∈ G.block (.that v) := by
    rw [hlib]
    exact List.mem_append_right _ List.mem_cons_self
  have hlabel : Name.that v ∈ G.labels := by
    rw [hG.labels]
    cases v <;> simp
  have hinst : instOf G (.old (p.call v)) = some (sentCall site p v) :=
    instOf_eq hlabel hmem fun l' J hJ hid => (hG.eq_sentCall hF hJ hid).2
  have hcall : sentCall site p v =
      ⟨.old (p.call v), .call (p.callee v) ((p.args v).map (sentArg site p v))⟩ := by
    rw [← op_sentCall]
    rfl
  rw [callArgs, hinst, hcall]

/-- **The instructions that are moved** are found. -/
theorem Gated.asInstruction_eq {a : Value ι} {K : Inst (Name ι)} (h : Sent F p v a K)
    (harg : a ∈ p.args v) : asInstruction G (sentArg site p v a) = some K := by
  have hname : (sentArg site p v a).name? = some K.id := by
    rw [h.sentArg_eq hF harg]
    rfl
  rw [asInstruction, hname]
  show instOf G K.id = some K
  have hcall : ∀ w, ¬ OnlyPassed F p (.old (p.call w)) :=
    fun w => (reserved hF).block w _ (hF.mem_block w)
  have hnew : ∀ w, ¬ OnlyPassed F p (Name.entryBr w) :=
    fun w => (reserved hF).not_new (by simp) (by simp)
  -- where a name that is only passed can be
  have hwhere : ∀ l, ∀ J ∈ G.block l, J.id = K.id →
      (∃ i, l = .old i ∧ (∀ v, i ≠ p.block v) ∧ ∃ I ∈ F.block i, J = embedInst I) ∨
      ∃ w, l = .that w ∧ J ∈ argDeps site p w := by
    intro l J hJ hid
    have hbad : OnlyPassed F p J.id := hid ▸ h.onlyPassed
    rcases hG.cases hF hJ with hother | hclean | ⟨w, hl, hJ | rfl⟩ | ⟨w, -, rfl⟩
    · exact Or.inl hother
    · exact absurd hbad hclean.id
    · exact Or.inr ⟨w, hl, hJ⟩
    · exact absurd hbad (hcall w)
    · exact absurd hbad (hnew w)
  rcases h with ⟨I, hI, rfl, rfl⟩ | ⟨I, hI, rfl, rfl⟩
  · obtain ⟨R, hlib, -⟩ := hG.lib v
    have hmem : (⟨.depLoad (.old (p.call v)) (.old I.id) 0, .load (depPtr (embedInst I))⟩ :
        Inst (Name ι)) ∈ G.block (.that v) := by
      rw [hlib]
      refine List.mem_append_left _ (List.mem_flatMap.mpr ⟨_, embedInst_mem_deps hI harg, ?_⟩)
      refine List.mem_map.mpr ⟨0, List.mem_range.mpr (List.count_pos_iff.mpr ?_), rfl⟩
      rw [value_embedInst, operands_embedInst]
      exact List.mem_map_of_mem harg
    refine instOf_eq ?_ hmem fun l J hJ hid => ?_
    · rw [hG.labels]
      cases v <;> simp
    · rcases hwhere l J hJ hid with ⟨i, -, -, I', -, rfl⟩ | ⟨w, -, hJ⟩
      · cases hid
      · obtain ⟨d, hd, n, -, rfl⟩ := mem_argDeps hJ
        obtain ⟨hcall, hdI, hn⟩ := Name.depLoad.inj hid
        obtain rfl := hF.call_injective (Name.old.inj hcall)
        have hcode : embedInst I ∈ code site p w :=
          List.mem_append_left _ (List.mem_map_of_mem hI)
        have hdeq : d = embedInst I :=
          List.inj_on_of_nodup_map (nodup_code hF w) (List.mem_append_left _ (mem_deps hd))
            (List.mem_append_left _ hcode) hdI
        rw [hdeq, hn]
        rfl
  · obtain ⟨l, hlabel, hl, hmem⟩ := hI.block
    have hin : embedInst I ∈ G.block (.old l) := by
      rw [hG.other l hl]
      exact List.mem_map_of_mem hmem
    refine instOf_eq ?_ hin fun l' J hJ hid => ?_
    · rw [hG.labels]
      exact List.mem_append_left _ (List.mem_map_of_mem hlabel)
    · rcases hwhere l' J hJ hid with ⟨i, -, -, I', hI', rfl⟩ | ⟨w, -, hJ⟩
      · rw [hF.inst_eq hI' hmem (Name.old.inj hid)]
      · obtain ⟨d, -, n, -, rfl⟩ := mem_argDeps hJ
        cases hid

end Gated

/-! ### The merged function -/

/-- The argument of a variant, of a pair of them. -/
def pick (v : Bool) (e : Value ι × Value ι) : Value ι := if v then e.2 else e.1

theorem pick_of_same {e : Value ι × Value ι} (h : e.1 = e.2) (v : Bool) : pick v e = e.1 := by
  cases v with
  | false => rfl
  | true => exact h.symm

section Merged

variable [DecidableEq ι] (site : Site) (p : CallPair ι)

/-- A pair of arguments, as the loop over them meets it. -/
def sentPair (e : ArgPair ι) : ArgPair (Name ι) :=
  ((sentArg site p false e.1.1, sentArg site p true e.1.2), e.2)

/-- The arguments of the two calls, with their positions. -/
def argPairs (p : CallPair ι) : List (ArgPair ι) :=
  ((p.args false).zip (p.args true)).zipIdx

variable {site p} {F : Func ι} {G : Func (Name ι)}

variable {e : ArgPair ι} {v : Bool} {a : Value ι}

omit [DecidableEq ι] in
theorem mem_argPairs (he : e ∈ argPairs p) : e.1 ∈ (p.args false).zip (p.args true) := by
  have h : e.1 ∈ (argPairs p).map Prod.fst := List.mem_map_of_mem he
  rwa [argPairs, List.zipIdx_map_fst] at h

omit [DecidableEq ι] in
theorem pick_mem {e : Value ι × Value ι} (he : e ∈ (p.args false).zip (p.args true)) (v : Bool) :
    pick v e ∈ p.args v := by
  obtain ⟨h₀, h₁⟩ := List.of_mem_zip he
  cases v with
  | false => exact h₀
  | true => exact h₁

omit [DecidableEq ι] in
/-- The pairs are those of all arguments. -/
theorem map_pick_argPairs (hlen : (p.args false).length = (p.args true).length) (v : Bool) :
    (argPairs p).map (fun e => pick v e.1) = p.args v := by
  show (argPairs p).map (pick v ∘ Prod.fst) = _
  rw [← List.map_map, argPairs, List.zipIdx_map_fst]
  cases v with
  | false => exact List.map_fst_zip hlen.le
  | true => exact List.map_snd_zip hlen.ge

omit [DecidableEq ι] in
/-- Every argument is in a pair. -/
theorem exists_argPairs (hlen : (p.args false).length = (p.args true).length) (ha : a ∈ p.args v) :
    ∃ e ∈ argPairs p, pick v e.1 = a := by
  rw [← map_pick_argPairs hlen v] at ha
  exact List.mem_map.mp ha

theorem side_sentPair (v : Bool) (e : ArgPair ι) :
    side v (sentPair site p e) = sentArg site p v (pick v e.1) := by
  cases v <;> rfl

omit [DecidableEq ι] in
theorem Carried.exists_sent (h : Carried F p v a) : ∃ K, Sent F p v a K := by
  rcases h with ⟨I, hI, ha⟩ | ⟨I, hI, ha⟩
  · exact ⟨_, Or.inl ⟨I, hI, ha, rfl⟩⟩
  · exact ⟨_, Or.inr ⟨I, hI, ha, rfl⟩⟩

omit [DecidableEq ι] in
/-- What is moved is moved for one argument of one variant. -/
theorem Sent.injective (hF : Placed F p) {w : Bool} {b : Value ι} {K K' : Inst (Name ι)}
    (h : Sent F p v a K) (h' : Sent F p w b K') (hb : b ∈ p.args w) (hid : K.id = K'.id) :
    v = w ∧ a = b := by
  rcases h with ⟨I, hI, rfl, rfl⟩ | ⟨I, hI, rfl, rfl⟩
  · rcases h' with ⟨J, hJ, rfl, rfl⟩ | ⟨J, hJ, rfl, rfl⟩
    · obtain ⟨hcall, hIJ, -⟩ := Name.depLoad.inj hid
      have hIJ : I.id = J.id := Name.old.inj hIJ
      have hvw : v = w := by
        by_contra hne
        exact hF.block_ne hne (hF.names _ _ I (hF.mem_before hI) J (hF.mem_before hJ) hIJ)
      exact ⟨hvw, congrArg Inst.value (hF.inst_eq (hF.mem_before hI) (hF.mem_before hJ) hIJ)⟩
    · cases hid
  · rcases h' with ⟨J, hJ, rfl, rfl⟩ | ⟨J, hJ, rfl, rfl⟩
    · cases hid
    · have hIJ : I.id = J.id := Name.old.inj hid
      refine ⟨?_, congrArg Value.inst hIJ⟩
      by_contra hne
      have hname : (Value.inst J.id).name? = some I.id := congrArg some hIJ.symm
      exact hI.not_common hF (fun heq => hne heq.symm) hname hb

variable (hF : Placed F p) (hfit : ArgsFit F p)
include hF hfit

/-- Arguments differ in the calls with the gate as they did before. -/
theorem sentPair_same_iff (site : Site) (he : e ∈ argPairs p) :
    (sentPair site p e).1.1 = (sentPair site p e).1.2 ↔ e.1.1 = e.1.2 := by
  have he := mem_argPairs he
  show sentArg site p false e.1.1 = sentArg site p true e.1.2 ↔ _
  constructor
  · intro heq
    by_contra hne
    rcases hfit.kinds e.1 he hne with ⟨h₀, h₁⟩ | ⟨h₀, h₁⟩
    · rw [sentArg_of_not_local (not_local_of_name?_eq_none h₀),
        sentArg_of_not_local (not_local_of_name?_eq_none h₁)] at heq
      exact hne (map_old_injective heq)
    · obtain ⟨K, hK⟩ := h₀.exists_sent
      obtain ⟨K', hK'⟩ := h₁.exists_sent
      rw [hK.sentArg_eq hF (pick_mem he false), hK'.sentArg_eq hF (pick_mem he true)] at heq
      exact Bool.false_ne_true
        (hK.injective hF hK' (pick_mem he true) (Value.inst.inj heq)).1
  · intro heq
    have hlocal := hfit.same e.1 he heq
    rw [sentArg_of_not_local (hlocal false), heq, sentArg_of_not_local (heq ▸ hlocal true)]

variable (hG : Gated site F p (OnlyPassed F p) G)
include hG

/-- **What an argument makes the loop move**: nothing, or an instruction in each variant. -/
theorem movedBy_sentPair (he : e ∈ argPairs p) (hne : e.1.1 ≠ e.1.2) :
    ((∀ v, (asInstruction G (side v (sentPair site p e))) = none) ∧
      ∀ v, (pick v e.1).name? = none) ∨
    ∃ K : Bool → Inst (Name ι), ∀ v, Sent F p v (pick v e.1) (K v) ∧
      asInstruction G (side v (sentPair site p e)) = some (K v) := by
  have hmem := mem_argPairs he
  rcases hfit.kinds e.1 hmem hne with ⟨h₀, h₁⟩ | ⟨h₀, h₁⟩
  · have hnone : ∀ v, (pick v e.1).name? = none := by
      intro v
      cases v with
      | false => exact h₀
      | true => exact h₁
    refine Or.inl ⟨fun v => ?_, hnone⟩
    rw [side_sentPair, sentArg_of_not_local (not_local_of_name?_eq_none (hnone v)), asInstruction,
      name?_map_old, hnone]
    rfl
  · obtain ⟨K₀, hK₀⟩ := h₀.exists_sent
    obtain ⟨K₁, hK₁⟩ := h₁.exists_sent
    refine Or.inr ⟨fun v => if v then K₁ else K₀, fun v => ?_⟩
    have hsent : Sent F p v (pick v e.1) (if v then K₁ else K₀) := by
      cases v with
      | false => exact hK₀
      | true => exact hK₁
    rw [side_sentPair]
    exact ⟨hsent, hG.asInstruction_eq hF hsent (pick_mem hmem v)⟩

theorem mem_movedNames (he : e ∈ argPairs p) {n : Name ι}
    (hn : n ∈ movedNames (asInstruction G) (sentPair site p e)) :
    e.1.1 ≠ e.1.2 ∧ ∃ v K, Sent F p v (pick v e.1) K ∧ n = K.id := by
  have hiff := sentPair_same_iff hF hfit site he
  obtain ⟨I, hI, rfl⟩ := List.mem_map.mp hn
  have hwhich : ∃ v, I ∈ movedBy (asInstruction G) v (sentPair site p e) := by
    rcases List.mem_append.mp hI with hI | hI
    · exact ⟨false, hI⟩
    · exact ⟨true, hI⟩
  obtain ⟨v, hI⟩ := hwhich
  have hne : e.1.1 ≠ e.1.2 := by
    intro heq
    rw [movedBy, if_pos (hiff.mpr heq)] at hI
    exact absurd hI List.not_mem_nil
  rw [movedBy, if_neg fun heq => hne (hiff.mp heq)] at hI
  refine ⟨hne, v, ?_⟩
  rcases movedBy_sentPair hF hfit hG he hne with ⟨hnone, -⟩ | ⟨K, hK⟩
  · rw [hnone] at hI
    exact absurd hI List.not_mem_nil
  · rw [(hK v).2] at hI
    exact ⟨K v, (hK v).1, congrArg Inst.id (List.mem_singleton.mp hI)⟩

/-- The parts of the blocks of the pair, for the loop. -/
def pairParts (site : Site) (p : CallPair ι) (R : List (Inst (Name ι))) : Parts ι where
  thisBlock v := .old (p.block v)
  body := body site p
  last v := ⟨.entryBr v, .br [] [.that false]⟩
  libcallBlock := .that false
  loads := argDeps site p false
  call := sentCall site p false
  rest := R

omit hfit in
theorem pairParts_of {R : List (Inst (Name ι))}
    (hlib : G.block (.that false) = argDeps site p false ++ sentCall site p false :: R)
    (hR : ∀ J ∈ R, p.Clean (OnlyPassed F p) J) : (pairParts site p R).Of G where
  this := hG.this
  lib := hlib
  apart heq := hF.apart (Name.old.inj heq)
  apart' v heq := by cases heq
  elsewhere l hl I hI hid := hl (hG.eq_sentCall hF hI hid).1
  loads I hI hid := by
    obtain ⟨d, -, n, -, rfl⟩ := mem_argDeps hI
    cases hid
  rest I hI := (hR I hI).call false

/-- What the loop moves is only passed to the calls. -/
theorem onlyPassed_of_moved {n : Name ι}
    (hn : n ∈ ((argPairs p).map (sentPair site p)).flatMap (movedNames (asInstruction G))) :
    OnlyPassed F p n := by
  obtain ⟨e', he', hn⟩ := List.mem_flatMap.mp hn
  obtain ⟨e, he, rfl⟩ := List.mem_map.mp he'
  obtain ⟨-, v, K, hK, rfl⟩ := mem_movedNames hF hfit hG he hn
  exact hK.onlyPassed

/-- **The loop moves no instruction twice.** -/
theorem movable (R : List (Inst (Name ι))) : Movable (asInstruction G) (pairParts site p R)
    ((argPairs p).map (sentPair site p)) := by
  have hnot : ∀ n, ¬ OnlyPassed F p n →
      n ∉ ((argPairs p).map (sentPair site p)).flatMap (movedNames (asInstruction G)) :=
    fun n hn hmem => hn (onlyPassed_of_moved hF hfit hG hmem)
  have hnew : ∀ n : Name ι, (∀ i, n ≠ .old i) → (∀ u i k, n ≠ .depLoad u i k) →
      ¬ OnlyPassed F p n := fun n => (reserved hF).not_new
  refine ⟨fun e' he' => ?_, ?_, ?_, fun v => ?_, fun v j => ⟨?_, ?_, ?_, ?_⟩⟩
  · obtain ⟨e, he, rfl⟩ := List.mem_map.mp he'
    by_cases heq : e.1.1 = e.1.2
    · rw [(sentPair_same_iff hF hfit site he).mpr heq]
    · rcases movedBy_sentPair hF hfit hG he heq with ⟨hnone, -⟩ | ⟨K, hK⟩
      · exact (congrArg Option.isSome (hnone false)).trans
          (congrArg Option.isSome (hnone true)).symm
      · exact (congrArg Option.isSome (hK false).2).trans
          (congrArg Option.isSome (hK true).2).symm
  · rw [List.flatMap_map, List.nodup_flatMap]
    refine ⟨fun e he => ?_, ?_⟩
    · by_cases heq : e.1.1 = e.1.2
      · have hsame := (sentPair_same_iff hF hfit site he).mpr heq
        rw [movedNames, movedBy, if_pos hsame, movedBy, if_pos hsame]
        exact List.nodup_nil
      · have hdiff := fun h => heq ((sentPair_same_iff hF hfit site he).mp h)
        rw [movedNames, movedBy, if_neg hdiff, movedBy, if_neg hdiff]
        rcases movedBy_sentPair hF hfit hG he heq with ⟨hnone, -⟩ | ⟨K, hK⟩
        · rw [hnone, hnone]
          exact List.nodup_nil
        · rw [(hK false).2, (hK true).2]
          have hne : (K false).id ≠ (K true).id := fun hid => Bool.false_ne_true
            ((hK false).1.injective hF (hK true).1 (pick_mem (mem_argPairs he) true) hid).1
          simpa using hne
    · -- two positions move different instructions
      have hpairs : (argPairs p).Pairwise fun e e' => e.1.1 ≠ e.1.2 ∨ e'.1.1 ≠ e'.1.2 →
          e.1.1 ≠ e'.1.1 ∧ e.1.2 ≠ e'.1.2 := by
        have honce := hfit.once
        rw [← List.zipIdx_map_fst 0 ((p.args false).zip (p.args true)), List.pairwise_map] at honce
        exact honce
      refine hpairs.imp_of_mem fun {e e'} he he' hdistinct => ?_
      intro n hn hn'
      obtain ⟨hne, v, K, hK, rfl⟩ := mem_movedNames hF hfit hG he hn
      obtain ⟨-, w, K', hK', hid⟩ := mem_movedNames hF hfit hG he' hn'
      obtain ⟨rfl, heq⟩ := hK.injective hF hK' (pick_mem (mem_argPairs he') w) hid
      cases v with
      | false => exact (hdistinct (Or.inl hne)).1 heq
      | true => exact (hdistinct (Or.inl hne)).2 heq
  · exact hnot _ ((reserved hF).block false _ (hF.mem_block false))
  · exact hnot _ (hnew _ (by simp [pairParts]) (by simp [pairParts]))
  · exact hnot _ (hnew _ (by simp) (by simp))
  · exact hnot _ (hnew _ (by simp) (by simp))
  · exact fun h => by cases h
  · exact fun h => by cases h

end Merged

/-- **The function after the pass.** -/
theorem insertWindowEntryGate_merged [DecidableEq ι] {F : Func ι} {p : CallPair ι} (site : Site)
    (hF : Placed F p) (hsplit : ∀ v, locateTheSplit F (p.block v) = .inNonPhi)
    (hfit : ArgsFit F p) :
    ∃ G R, Gated site F p (OnlyPassed F p) G ∧ (pairParts site p R).Of G ∧
      (∀ J ∈ R, p.Clean (OnlyPassed F p) J) ∧
      insertWindowEntryGate site F p.call p.retAlloca =
        some ((pairParts site p R).merged (asInstruction G) G ((argPairs p).map (sentPair site p)),
          ((argPairs p).map (sentPair site p)).flatMap (movedNames (asInstruction G))) := by
  obtain ⟨G, hpass, hG⟩ := insertWindowEntryGate_eq site hF (reserved hF) hsplit
  obtain ⟨R, hlib, hR⟩ := hG.lib false
  have hp := pairParts_of hF hG hlib hR
  refine ⟨G, R, hG, hp, hR, ?_⟩
  have hitems : ((callArgs G (.old (p.call false))).zip (callArgs G (.old (p.call true)))).zipIdx =
      (argPairs p).map (sentPair site p) := by
    rw [hG.callArgs_eq hF, hG.callArgs_eq hF, List.zip_map, List.zipIdx_map]
    rfl
  have hlen : (callArgs G (.old (p.call false))).length =
      (callArgs G (.old (p.call true))).length := by
    rw [hG.callArgs_eq hF, hG.callArgs_eq hF, List.length_map, List.length_map, hfit.length]
  rw [hpass, fixupLibCallArgs, if_pos hlen, hitems]
  have hloop := foldlM_fixupArg hp (movable hF hfit hG R)
  have hcall : (pairParts site p R).call.id = .old (p.call false) := rfl
  have hthis : (pairParts site p R).thisBlock = fun v => .old (p.block v) := rfl
  rwa [hcall, hthis] at hloop

end Firestarter.EntryGate
