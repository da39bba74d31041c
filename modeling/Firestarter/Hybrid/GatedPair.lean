import Firestarter.Hybrid.ArgLoop

namespace Firestarter.EntryGate

open Ssa

/-!
# A pair of library calls behind its gate

The blocks of a function when `insertWindowEntryGate` has split the blocks of a pair of calls and
put the gate behind the first call, before it merges the arguments.

* `CallPair`, `Placed`: a pair of corresponding calls in a function;
* `Gated`: the blocks of the function with the gate;
* `insertWindowEntryGate_eq`: the pass takes the function there, if no phi is near the calls.
-/

variable {ι : Type}

/-- **Two copies of a library call**: the calls, their blocks, and the code before and behind them
    in these; and the allocas that their return values are stored in. -/
structure CallPair (ι : Type) where
  call : Bool → ι
  block : Bool → ι
  callee : Bool → ℕ
  args : Bool → List (Value ι)
  before : Bool → List (Inst ι)
  after : Bool → List (Inst ι)
  retAlloca : Bool → ι

/-- The call of a variant. -/
def CallPair.inst (p : CallPair ι) (v : Bool) : Inst ι := ⟨p.call v, .call (p.callee v) (p.args v)⟩

/-- **The calls are in the function**, which is well formed: names are unique, and in the block of a
    call values are used behind their definitions.  Behind a call its return value is loaded. -/
structure Placed (F : Func ι) (p : CallPair ι) : Prop where
  block : ∀ v, F.block (p.block v) = p.before v ++ p.inst v :: p.after v
  listed : ∀ v, p.block v ∈ F.labels
  apart : p.block false ≠ p.block true
  names : ∀ l l', ∀ I ∈ F.block l, ∀ J ∈ F.block l', I.id = J.id → l = l'
  nodup : ∀ l, ((F.block l).map Inst.id).Nodup
  order : ∀ v, (p.before v).Pairwise fun I J => J.value ∉ I.op.operands
  load : ∀ v, ∃ I ∈ p.after v, isLoad I
  ret : ∀ v, ∃ l, ∃ I ∈ F.block l, I.id = p.retAlloca v ∧ ∃ size, I.op = .alloca size

section Placed

variable {F : Func ι} {p : CallPair ι} (hF : Placed F p)
include hF

theorem Placed.mem_block (v : Bool) : p.inst v ∈ F.block (p.block v) := by
  rw [hF.block]
  exact List.mem_append_right _ List.mem_cons_self

variable {v : Bool} {I : Inst ι}

theorem Placed.mem_before (hI : I ∈ p.before v) : I ∈ F.block (p.block v) := by
  rw [hF.block]
  exact List.mem_append_left _ hI

theorem Placed.mem_after (hI : I ∈ p.after v) : I ∈ F.block (p.block v) := by
  rw [hF.block]
  exact List.mem_append_right _ (List.mem_cons_of_mem _ hI)

/-- An instruction is determined by its name. -/
theorem Placed.inst_eq {l l' : ι} {J : Inst ι} (hI : I ∈ F.block l) (hJ : J ∈ F.block l')
    (heq : I.id = J.id) : I = J := by
  obtain rfl := hF.names l l' I hI J hJ heq
  exact List.inj_on_of_nodup_map (hF.nodup l) hI hJ heq

theorem Placed.block_ne {w : Bool} (hne : v ≠ w) : p.block v ≠ p.block w := by
  cases v <;> cases w
  · exact absurd rfl hne
  · exact hF.apart
  · exact hF.apart.symm
  · exact absurd rfl hne

/-- The calls are at their places only. -/
theorem Placed.id_ne_call {l : ι} (hI : I ∈ F.block l) {w : Bool} (hl : l ≠ p.block w) :
    I.id ≠ p.call w := by
  intro heq
  exact hl (hF.names l (p.block w) I hI _ (hF.mem_block w) heq)

theorem Placed.around_ne_call (hI : I ∈ p.before v ∨ I ∈ p.after v) (w : Bool) :
    I.id ≠ p.call w := by
  by_cases hvw : v = w
  · subst hvw
    have hnodup := hF.nodup (p.block v)
    rw [hF.block, List.map_append, List.map_cons, List.nodup_middle, List.nodup_cons,
      ← List.map_append] at hnodup
    exact fun heq => hnodup.1 (List.mem_map.mpr ⟨I, List.mem_append.mpr hI, heq⟩)
  · exact hF.id_ne_call (hI.elim hF.mem_before hF.mem_after) (hF.block_ne hvw)

theorem Placed.before_ne_call (hI : I ∈ p.before v) (w : Bool) : I.id ≠ p.call w :=
  hF.around_ne_call (.inl hI) w

theorem Placed.after_ne_call (hI : I ∈ p.after v) (w : Bool) : I.id ≠ p.call w :=
  hF.around_ne_call (.inr hI) w

theorem Placed.call_injective : Function.Injective p.call := by
  intro v w heq
  by_contra hne
  exact hF.id_ne_call (hF.mem_block v) (hF.block_ne hne) heq

end Placed

/-! ### Embedded code -/

theorem value_embedInst (I : Inst ι) : (embedInst I).value = I.value.map .old := by
  obtain ⟨i, o⟩ := I
  cases o with
  | load ptr | store _ ptr => cases ptr <;> rfl
  | _ => rfl

theorem map_old_injective : Function.Injective (Value.map (Name.old : ι → Name ι)) := by
  intro a b h
  cases a <;> cases b <;> simp_all [Value.map]

theorem operands_embedInst (I : Inst ι) :
    (embedInst I).op.operands = I.op.operands.map (Value.map .old) :=
  operands_bimap _ _ _

theorem name?_map_old (a : Value ι) : (a.map Name.old).name? = a.name?.map .old := by
  cases a <;> rfl

theorem isPhi_embedInst (I : Inst ι) : isPhi (embedInst I) = isPhi I := by
  obtain ⟨i, o⟩ := I
  cases o with
  | load ptr | store _ ptr => cases ptr <;> rfl
  | _ => rfl

theorem isLoad_embedInst (I : Inst ι) : isLoad (embedInst I) = isLoad I := by
  obtain ⟨i, o⟩ := I
  cases o with
  | load ptr | store _ ptr => cases ptr <;> rfl
  | _ => rfl

theorem firstPhi_eq_none_iff {κ : Type} {b : List (Inst κ)} :
    firstPhi b = none ↔ ∀ I ∈ b.head?, ¬ isPhi I := by
  cases b with
  | nil => simp [firstPhi]
  | cons I b =>
    obtain ⟨i, o⟩ := I
    cases o <;> simp [firstPhi, isPhi]

/-! ### The blocks of the pair -/

variable (site : Site) (F : Func ι) (p : CallPair ι)

/-- The code before the call of a variant, with the announcement. -/
def code (v : Bool) : List (Inst (Name ι)) :=
  (p.before v).map embedInst ++ announce site v (p.retAlloca v)

/-- The branch that the first split puts behind it. -/
def thatBr (v : Bool) : Inst (Name ι) := ⟨.thatBr v, .br [] [.that v]⟩

section Code

variable {site F p}

/-- The names in the split block of a variant. -/
theorem id_code {v : Bool} {I : Inst (Name ι)} (hI : I ∈ code site p v ++ [thatBr v]) :
    (∃ J ∈ p.before v, I = embedInst J) ∨ I.id = .retCast v ∨ I.id = .retStore v ∨
      I.id = .thatBr v := by
  rcases List.mem_append.mp hI with hI | hI
  · rcases List.mem_append.mp hI with hI | hI
    · obtain ⟨J, hJ, rfl⟩ := List.mem_map.mp hI
      exact Or.inl ⟨J, hJ, rfl⟩
    · rcases List.mem_cons.mp hI with rfl | hI
      · exact Or.inr (Or.inl rfl)
      · rw [List.mem_singleton.mp hI]
        exact Or.inr (Or.inr (Or.inl rfl))
  · rw [List.mem_singleton.mp hI]
    exact Or.inr (Or.inr (Or.inr rfl))

theorem nodup_code (hF : Placed F p) (v : Bool) :
    ((code site p v ++ [thatBr v]).map Inst.id).Nodup := by
  have hbefore : ((p.before v).map fun I => (Name.old I.id : Name ι)).Nodup := by
    have hnodup := hF.nodup (p.block v)
    rw [hF.block, List.map_append, List.nodup_append] at hnodup
    have := hnodup.1.map (f := (Name.old : ι → Name ι)) fun a b h => Name.old.inj h
    rwa [List.map_map] at this
  have hids : (code site p v ++ [thatBr v]).map Inst.id =
      ((p.before v).map fun I => (Name.old I.id : Name ι)) ++
        [.retCast v, .retStore v, .thatBr v] := by
    simp [code, announce, thatBr, embedInst, Function.comp_def]
  rw [hids, List.nodup_append]
  refine ⟨hbefore, by simp, ?_⟩
  intro a ha b hb heq
  obtain ⟨I, -, rfl⟩ := List.mem_map.mp ha
  simp [← heq] at hb

/-- In the split block, values are used behind their definitions. -/
theorem order_code (hF : Placed F p) (v : Bool) : (code site p v ++ [thatBr v]).Pairwise
    fun I J : Inst (Name ι) => J.value ∉ I.op.operands := by
  have hold : ∀ I : Inst ι, ∀ a ∈ (embedInst I).op.operands, ∃ x, a = Value.map .old x := by
    intro I a ha
    rw [operands_embedInst] at ha
    obtain ⟨x, -, rfl⟩ := List.mem_map.mp ha
    exact ⟨x, rfl⟩
  have hnew : ∀ n : Name ι, (∀ i, n ≠ .old i) → ∀ x : Value ι, .inst n ≠ x.map Name.old := by
    intro n hn x heq
    cases x with
    | inst i => exact hn i (Value.inst.inj heq)
    | _ => cases heq
  rw [code, announce, List.append_assoc, List.pairwise_append]
  refine ⟨?_, ?_, ?_⟩
  · rw [List.pairwise_map]
    refine (hF.order v).imp fun {I J} hIJ hmem => hIJ ?_
    rw [value_embedInst, operands_embedInst] at hmem
    exact (List.mem_map_of_injective map_old_injective).mp hmem
  · simp [thatBr, Inst.value, Op.operands, Ptr.operands]
  · intro I hI J hJ hmem
    obtain ⟨I', -, rfl⟩ := List.mem_map.mp hI
    obtain ⟨x, hx⟩ := hold I' _ hmem
    simp only [List.cons_append, List.nil_append, List.mem_cons, List.not_mem_nil, or_false] at hJ
    rcases hJ with rfl | rfl | rfl <;> exact hnew _ (fun i h => by cases h) x hx

end Code

variable [DecidableEq ι]

/-- What the call and the code behind it depend on. -/
def deps (v : Bool) : List (Inst (Name ι)) :=
  directDeps (code site p v ++ [thatBr v])
    (embedInst (p.inst v) :: (p.after v).map embedInst)

/-- The split block of a variant, without its terminator. -/
def body (v : Bool) : List (Inst (Name ι)) :=
  (code site p v).flatMap (saveBehind (deps site p v))

/-- The loads before the call. -/
def argDeps (v : Bool) : List (Inst (Name ι)) :=
  (deps site p v).flatMap (loadsFor (embedInst (p.inst v)))

/-- The code behind the call, with its loads. -/
def behind (v : Bool) : List (Inst (Name ι)) :=
  (deps site p v).foldl (fun b I => b.flatMap (loadBeforeUser I)) ((p.after v).map embedInst)

/-- The call with loaded arguments. -/
def sentCall (v : Bool) : Inst (Name ι) :=
  ⟨.old (p.call v), (embedInst (p.inst v)).op.bimap
    (throughLoad (.old (p.call v)) (deps site p v)) id⟩

/-- Clean code of the function with the gate. -/
abbrev CallPair.Clean (p : CallPair ι) (bad : Name ι → Prop) (J : Inst (Name ι)) : Prop :=
  EntryGate.Clean bad (fun v => .old (p.call v)) (.that true) J

/-- **Names that are only passed to the calls**: nothing else uses them, and what has such a name is
    not in the blocks of the calls, or is a load for an argument. -/
structure Reserved (bad : Name ι → Prop) : Prop where
  uses : ∀ l, ∀ I ∈ F.block l, (∀ v, I.id ≠ p.call v) → ∀ a ∈ I.op.operands,
    ∀ i ∈ a.name?, ¬ bad (.old i)
  block : ∀ v, ∀ I ∈ F.block (p.block v), ¬ bad (.old I.id)
  ret : ∀ v, ¬ bad (.old (p.retAlloca v))
  loads : ∀ u i n, bad (.depLoad u i n) ↔ ∃ v, u = .old (p.call v)
  new : ∀ n, bad n → (∃ i, n = .old i) ∨ ∃ u i k, n = .depLoad u i k

/-- **The function with the gate**, before the arguments are merged. -/
structure Gated (bad : Name ι → Prop) (G : Func (Name ι)) : Prop where
  entry : G.entry = .old F.entry
  labels : G.labels = F.labels.map .old ++ [.that false, .that true, .tol false, .tol true]
  other : ∀ l, (∀ v, l ≠ p.block v) → G.block (.old l) = (F.block l).map embedInst
  this : ∀ v, G.block (.old (p.block v)) =
    body site p v ++ [⟨.entryBr v, .br [] [.that false]⟩]
  lib : ∀ v, ∃ R, G.block (.that v) = argDeps site p v ++ sentCall site p v :: R ∧
    ∀ J ∈ R, p.Clean bad J
  tol : ∀ v, ∀ J ∈ G.block (.tol v), p.Clean bad J
  new : ∀ n, (∀ l, n ≠ .old l) → (∀ v, n ≠ .that v) → (∀ v, n ≠ .tol v) → G.block n = []

section First

variable {site F p}

theorem mem_deps {v : Bool} {I : Inst (Name ι)} (hI : I ∈ deps site p v) : I ∈ code site p v := by
  obtain ⟨hmem, huse⟩ := List.mem_filter.mp hI
  rcases List.mem_append.mp hmem with hmem | hmem
  · exact hmem
  · -- nothing uses the value of the branch
    rw [List.mem_singleton.mp hmem] at huse
    obtain ⟨u, hu, huse⟩ := List.any_eq_true.mp huse
    have huse : Value.inst (.thatBr v) ∈ u.op.operands := of_decide_eq_true huse
    have hu : ∃ J : Inst ι, u = embedInst J := by
      rcases List.mem_cons.mp hu with rfl | hu
      · exact ⟨_, rfl⟩
      · obtain ⟨J, -, rfl⟩ := List.mem_map.mp hu
        exact ⟨J, rfl⟩
    obtain ⟨J, rfl⟩ := hu
    rw [operands_embedInst] at huse
    obtain ⟨x, -, hx⟩ := List.mem_map.mp huse
    cases x <;> cases hx

theorem mem_argDeps {v : Bool} {J : Inst (Name ι)} (hJ : J ∈ argDeps site p v) :
    ∃ d ∈ deps site p v, ∃ n, n < (embedInst (p.inst v)).op.operands.count d.value ∧
      J = ⟨.depLoad (.old (p.call v)) d.id n, .load (depPtr d)⟩ := by
  obtain ⟨d, hd, hJ⟩ := List.mem_flatMap.mp hJ
  obtain ⟨n, hn, rfl⟩ := List.mem_map.mp hJ
  exact ⟨d, hd, n, List.mem_range.mp hn, rfl⟩

/-- The split block of a variant. -/
theorem first_fst (site : Site) (hF : Placed F p) (v : Bool) :
    (replaceUsesWithAlloca (code site p v ++ [thatBr v])
      (embedInst (p.inst v) :: (p.after v).map embedInst)).1 = body site p v ++ [thatBr v] := by
  have hnew : ∀ I ∈ code site p v ++ [thatBr v], ∀ n, I.id ≠ .depStore n := by
    intro I hI n heq
    rcases id_code hI with ⟨J, -, rfl⟩ | h | h | h
    · cases heq
    all_goals
      rw [heq] at h
      cases h
  have hlast : saveBehind (deps site p v) (thatBr v) = [thatBr v] := by
    refine if_neg fun h => ?_
    have hnodup : ((code site p v ++ [thatBr v]).map Inst.id).Nodup := nodup_code hF v
    rw [List.map_append, List.nodup_append] at hnodup
    exact hnodup.2.2 _ (List.mem_map_of_mem (mem_deps h.1)) _ List.mem_cons_self rfl
  rw [replaceUsesWithAlloca_fst _ (nodup_code hF v) hnew, List.flatMap_append,
    List.flatMap_singleton]
  exact congrArg _ hlast

/-- The block of the call of a variant. -/
theorem first_snd (site : Site) (hF : Placed F p) (v : Bool) :
    (replaceUsesWithAlloca (code site p v ++ [thatBr v])
      (embedInst (p.inst v) :: (p.after v).map embedInst)).2 =
      argDeps site p v ++ sentCall site p v :: behind site p v := by
  have hsub : (deps site p v).Sublist (code site p v ++ [thatBr v]) := List.filter_sublist
  have hcall := foldl_loadBeforeUser (u := embedInst (p.inst v))
    ((nodup_code hF v).sublist (hsub.map Inst.id)) ?_ ((order_code hF v).sublist hsub)
  · rw [replaceUsesWithAlloca, foldl_replaceDep_snd]
    show (deps site p v).foldl _ ([embedInst (p.inst v)] ++ _) = _
    rw [foldl_loads_append, hcall, List.append_assoc]
    rfl
  · intro I hI i n heq
    rcases id_code (List.mem_append_left _ (mem_deps hI)) with ⟨J, -, rfl⟩ | h | h | h
    · cases heq
    all_goals
      rw [heq] at h
      cases h

end First

omit [DecidableEq ι] in
theorem mem_tolFirst {site : Site} {b : List (Inst (Name ι))} {J : Inst (Name ι)} :
    J ∈ tolFirst site b ↔ J ∈ b := by
  rw [tolFirst.eq_def]
  split
  · split
    · split_ifs
      · simp only [List.mem_cons]
        tauto
      · rfl
    · rfl
  · rfl

section Reserved

variable {site F p} {bad : Name ι → Prop}

omit [DecidableEq ι] in
theorem Reserved.not_new (hbad : Reserved F p bad) {n : Name ι} (hold : ∀ i, n ≠ .old i)
    (hload : ∀ u i k, n ≠ .depLoad u i k) : ¬ bad n := by
  intro h
  rcases hbad.new n h with ⟨i, hi⟩ | ⟨u, i, k, hi⟩
  · exact hold i hi
  · exact hload u i k hi

variable {v : Bool}

omit [DecidableEq ι] in
/-- Code of the function other than the calls is clean, in their blocks. -/
theorem clean_embedInst (hbad : Reserved F p bad) {I : Inst ι} (hI : I ∈ F.block (p.block v))
    (hcall : ∀ w, I.id ≠ p.call w) : p.Clean bad (embedInst I) where
  id := hbad.block v I hI
  call w heq := hcall w (Name.old.inj heq)
  names a ha n hn := by
    rw [operands_embedInst] at ha
    obtain ⟨x, hx, rfl⟩ := List.mem_map.mp ha
    rw [name?_map_old, Option.mem_def, Option.map_eq_some_iff] at hn
    obtain ⟨i, hi, rfl⟩ := hn
    exact hbad.uses _ I hI hcall x hx i hi
  dests hmem := by
    rw [embedInst, dests_bimap] at hmem
    obtain ⟨l, -, heq⟩ := List.mem_map.mp hmem
    cases heq

variable (hF : Placed F p) (hbad : Reserved F p bad)
include hF hbad

omit [DecidableEq ι] in
theorem clean_code {I : Inst (Name ι)} (hI : I ∈ code site p v) : p.Clean bad I := by
  rcases List.mem_append.mp hI with hI | hI
  · obtain ⟨J, hJ, rfl⟩ := List.mem_map.mp hI
    exact clean_embedInst hbad (hF.mem_before hJ) (hF.before_ne_call hJ)
  · simp only [announce, List.mem_cons, List.not_mem_nil, or_false] at hI
    rcases hI with rfl | rfl
    · refine ⟨hbad.not_new (by simp) (by simp), by simp, fun a ha n hn => ?_, List.not_mem_nil⟩
      rw [List.mem_singleton.mp ha] at hn
      exact Option.some.inj hn ▸ hbad.ret v
    · refine ⟨hbad.not_new (by simp) (by simp), by simp, fun a ha n hn => ?_, List.not_mem_nil⟩
      rw [List.mem_singleton.mp ha] at hn
      exact Option.some.inj hn ▸ hbad.not_new (by simp) (by simp)

/-- The code behind the call stays clean. -/
theorem clean_after (v : Bool) : ∀ J ∈ behind site p v, p.Clean bad J := by
  refine clean_foldl (fun J hJ => ?_) (fun d hd a ha => ?_) (fun u i n hu h => ?_) (by simp)
  · obtain ⟨I, hI, rfl⟩ := List.mem_map.mp hJ
    exact clean_embedInst hbad (hF.mem_after hI) (hF.after_ne_call hI)
  · exact (clean_code hF hbad (mem_deps hd)).names a (mem_operands_depPtr ha).1
  · obtain ⟨v, rfl⟩ := (hbad.loads u i n).mp h
    exact hu v rfl

/-- So does the split block. -/
theorem clean_body {J : Inst (Name ι)} (hJ : J ∈ body site p v) : p.Clean bad J := by
  have hsaved : J ∈ code site p v ∨ p.Clean bad J :=
    clean_saveBehind (fun d hd => (clean_code hF hbad (mem_deps hd)).id)
      (fun i => hbad.not_new (by simp) (by simp)) (by simp) hJ
  exact hsaved.elim (clean_code hF hbad) id

omit hF in
/-- Saving what clean code uses leaves what stands before a call, and clean code behind it. -/
theorem foldl_insertAfter_call {L R ds : List (Inst (Name ι))} (C : Inst (Name ι))
    (hL : ∀ I ∈ L, bad I.id) (hds : ∀ d ∈ ds, ¬ bad d.id) (hne : R ≠ [])
    (hR : ∀ J ∈ R, p.Clean bad J) :
    ∃ R', ds.foldl (fun b I => if (reusedSlot I).isSome then b
        else insertAfter I.id (depStoreOf I) b) (L ++ C :: R) = L ++ C :: R' ∧ R' ≠ [] ∧
      ∀ J ∈ R', p.Clean bad J := by
  induction ds generalizing R with
  | nil => exact ⟨R, rfl, hne, hR⟩
  | cons d ds ih =>
    have hds' : ∀ e ∈ ds, ¬ bad e.id := fun e he => hds e (List.mem_cons_of_mem d he)
    rw [List.foldl_cons]
    split_ifs with hreused
    · exact ih hds' hne hR
    · have hd : ¬ bad d.id := hds d List.mem_cons_self
      have hstore : p.Clean bad (depStoreOf d) := by
        refine ⟨hbad.not_new (by simp [depStoreOf]) (by simp [depStoreOf]),
          (fun v heq => by cases heq), fun a ha n hn => ?_, List.not_mem_nil⟩
        rw [List.mem_singleton.mp ha, name?_value] at hn
        exact Option.some.inj hn ▸ hd
      have hsplit : insertAfter d.id (depStoreOf d) (L ++ C :: R) =
          L ++ C :: ((if C.id = d.id then [depStoreOf d] else []) ++
            insertAfter d.id (depStoreOf d) R) := by
        have hkeep : insertAfter d.id (depStoreOf d) L = L :=
          insertAfter_of_forall_ne fun I hI heq => hd (heq ▸ hL I hI)
        rw [insertAfter, List.flatMap_append, List.flatMap_cons]
        rw [insertAfter] at hkeep
        rw [hkeep]
        split_ifs <;> rfl
      rw [hsplit]
      refine ih hds' ?_ fun J hJ => ?_
      · obtain ⟨J, R, rfl⟩ := List.exists_cons_of_ne_nil hne
        rw [insertAfter, List.flatMap_cons]
        split_ifs <;> simp
      · rcases List.mem_append.mp hJ with hJ | hJ
        · split_ifs at hJ
          · rwa [List.mem_singleton.mp hJ]
          · exact absurd hJ List.not_mem_nil
        · obtain ⟨K, hK, hJ⟩ := List.mem_flatMap.mp hJ
          split_ifs at hJ
          · rcases List.mem_cons.mp hJ with rfl | hJ
            · exact hR J hK
            · rwa [List.mem_singleton.mp hJ]
          · exact List.mem_singleton.mp hJ ▸ hR K hK

/-- **The second split** of a variant. -/
theorem secondSplit_pair {G : Func (Name ι)} {T : List (Inst (Name ι))}
    (hblock : G.block (.that v) = argDeps site p v ++ sentCall site p v :: T)
    (hload : ∃ J ∈ T, isLoad J) (hT : ∀ J ∈ T, p.Clean bad J) :
    ∃ R N, secondSplit site (fun v => .old (p.call v)) (.that v) G v =
        some (cut G (.that v) (.tol v) (argDeps site p v ++ sentCall site p v :: R) N) ∧ R ≠ [] ∧
      (∀ J ∈ R, p.Clean bad J) ∧ ∀ J ∈ N, p.Clean bad J := by
  obtain ⟨M, N, rfl, hsecond⟩ := secondSplit_eq (c := fun v => Name.old (p.call v)) site hblock rfl
    (fun I hI heq => by obtain ⟨d, -, n, -, rfl⟩ := mem_argDeps hI; cases heq) Bool.false_ne_true
    hload (by simp)
  have hN : ∀ J ∈ tolFirst site N, p.Clean bad J :=
    fun J hJ => hT J (List.mem_append_right _ (mem_tolFirst.mp hJ))
  have hbr : p.Clean bad (⟨.tolBr v, .br [] [.tol v]⟩ : Inst (Name ι)) :=
    ⟨hbad.not_new (by simp) (by simp), by simp, fun a ha => absurd ha List.not_mem_nil, by
      simp [Op.dests]⟩
  have hM : ∀ J ∈ M ++ [⟨.tolBr v, .br [] [.tol v]⟩], p.Clean bad J := by
    intro J hJ
    rcases List.mem_append.mp hJ with hJ | hJ
    · exact hT J (List.mem_append_left _ hJ)
    · rwa [List.mem_singleton.mp hJ]
  rw [List.append_assoc, List.cons_append] at hsecond
  have hL : ∀ I ∈ argDeps site p v, bad I.id := by
    intro I hI
    obtain ⟨d, -, n, -, rfl⟩ := mem_argDeps hI
    exact (hbad.loads _ _ _).mpr ⟨v, rfl⟩
  -- what is saved, clean code uses
  have hds : ∀ b, ∀ d ∈ directDeps b (tolFirst site N), ¬ bad d.id := by
    intro b d hd
    obtain ⟨u, hu, huse⟩ := List.any_eq_true.mp (List.mem_filter.mp hd).2
    exact (hN u hu).names _ (of_decide_eq_true huse) d.id (name?_value d)
  obtain ⟨R, hR, hne, hclean⟩ : ∃ R, (replaceUsesWithAlloca (argDeps site p v ++
      sentCall site p v :: (M ++ [⟨.tolBr v, .br [] [.tol v]⟩])) (tolFirst site N)).1 =
      argDeps site p v ++ sentCall site p v :: R ∧ R ≠ [] ∧
      ∀ J ∈ R, p.Clean bad J := by
    rw [replaceUsesWithAlloca, foldl_replaceDep_fst]
    exact foldl_insertAfter_call hbad _ hL (hds _) (by simp) hM
  rw [hR] at hsecond
  refine ⟨R, _, hsecond, hne, hclean, ?_⟩
  rw [replaceUsesWithAlloca, foldl_replaceDep_snd]
  refine clean_foldl hN (fun d hd a ha => ?_) (fun u i n hu h => ?_) (by simp)
  · rcases List.mem_append.mp (List.mem_of_mem_filter hd) with hd | hd
    · obtain ⟨I, hI, n, -, rfl⟩ := mem_argDeps hd
      exact (clean_code hF hbad (mem_deps hI)).names a
        (mem_operands_depPtr (mem_operands_depPtr ha).1).1
    · rcases List.mem_cons.mp hd with rfl | hd
      · exact absurd ha List.not_mem_nil
      · exact (hM d hd).names a (mem_operands_depPtr ha).1
  · obtain ⟨v, rfl⟩ := (hbad.loads u i n).mp h
    exact hu v rfl

end Reserved

/-! ### The way to the gate -/

/-- The function with the announcements. -/
def announced : Func (Name ι) :=
  mapBlocks (mapBlocks (embed F)
    (insertBefore (.old (p.call false)) (announce site false (p.retAlloca false))))
    (insertBefore (.old (p.call true)) (announce site true (p.retAlloca true)))

section Way

variable {site F p}

omit [DecidableEq ι] in
theorem firstPhi_map_embedInst {b : List (Inst ι)} (hphi : firstPhi b = none) :
    firstPhi (b.map embedInst) = none := by
  rw [firstPhi_eq_none_iff] at hphi ⊢
  intro I hI
  rw [List.head?_map, Option.mem_def, Option.map_eq_some_iff] at hI
  obtain ⟨J, hJ, rfl⟩ := hI
  rw [isPhi_embedInst]
  exact hphi J hJ

variable (hF : Placed F p)
include hF

theorem block_announced_other {l : ι} (hl : ∀ v, l ≠ p.block v) :
    (announced site F p).block (.old l) = (F.block l).map embedInst := by
  have hne : ∀ v, ∀ I ∈ (F.block l).map embedInst, I.id ≠ .old (p.call v) := by
    intro v I hI heq
    obtain ⟨J, hJ, rfl⟩ := List.mem_map.mp hI
    exact hF.id_ne_call hJ (hl v) (Name.old.inj heq)
  show insertBefore _ _ (insertBefore _ _ ((F.block l).map embedInst)) = _
  rw [insertBefore_of_forall_ne (hne false), insertBefore_of_forall_ne (hne true)]

theorem block_announced_this (v : Bool) :
    (announced site F p).block (.old (p.block v)) =
      code site p v ++ embedInst (p.inst v) :: (p.after v).map embedInst := by
  have hblock : (F.block (p.block v)).map embedInst =
      (p.before v).map embedInst ++ embedInst (p.inst v) :: (p.after v).map embedInst := by
    rw [hF.block, List.map_append, List.map_cons]
  have hbefore : ∀ w, ∀ I ∈ (p.before v).map embedInst, I.id ≠ .old (p.call w) := by
    intro w I hI heq
    obtain ⟨J, hJ, rfl⟩ := List.mem_map.mp hI
    exact hF.before_ne_call hJ w (Name.old.inj heq)
  have hafter : ∀ w, ∀ I ∈ (p.after v).map embedInst, I.id ≠ .old (p.call w) := by
    intro w I hI heq
    obtain ⟨J, hJ, rfl⟩ := List.mem_map.mp hI
    exact hF.after_ne_call hJ w (Name.old.inj heq)
  -- the announcement for the other call is not put here
  have hother : ∀ w, w ≠ v → ∀ b, (∀ I ∈ b, I.id ≠ .old (p.call w)) → ∀ Js,
      insertBefore (.old (p.call w)) Js
        (b ++ embedInst (p.inst v) :: (p.after v).map embedInst) =
        b ++ embedInst (p.inst v) :: (p.after v).map embedInst := by
    intro w hw b hb Js
    refine insertBefore_of_forall_ne fun I hI => ?_
    rcases List.mem_append.mp hI with hI | hI
    · exact hb I hI
    · rcases List.mem_cons.mp hI with rfl | hI
      · exact fun heq => hw (hF.call_injective (Name.old.inj heq)).symm
      · exact hafter w I hI
  have hid : (embedInst (p.inst v)).id = .old (p.call v) := rfl
  show insertBefore _ _ (insertBefore _ _ ((F.block (p.block v)).map embedInst)) = _
  rw [hblock]
  cases v with
  | false =>
    rw [insertBefore_split hid (hbefore false) (hafter false)]
    refine hother true (by simp) _ (fun I hI => ?_) _
    rcases List.mem_append.mp hI with hI | hI
    · exact hbefore true I hI
    · simp only [announce, List.mem_cons, List.not_mem_nil, or_false] at hI
      rcases hI with rfl | rfl <;> simp
  | true =>
    rw [hother false (by simp) _ (hbefore false),
      insertBefore_split hid (hbefore true) (hafter true)]
    rfl

variable {v : Bool}

omit [DecidableEq ι] in
/-- The blocks of the calls do not start with a phi. -/
theorem firstPhi_code (hphi : firstPhi (F.block (p.block v)) = none)
    (b : List (Inst (Name ι))) : firstPhi (code site p v ++ b) = none := by
  rw [hF.block, firstPhi_eq_none_iff] at hphi
  rw [firstPhi_eq_none_iff, code]
  cases hb : p.before v with
  | nil =>
    intro I hI
    rw [← Option.some.inj hI]
    exact Bool.false_ne_true
  | cons J before =>
    rw [hb] at hphi
    intro I hI
    rw [← Option.some.inj hI, isPhi_embedInst]
    exact hphi J rfl

/-- The split is located as in the function before. -/
theorem locateTheSplit_embed {G : Func (Name ι)} (hblock : G.block (.old (p.block v)) =
      code site p v ++ embedInst (p.inst v) :: (p.after v).map embedInst)
    (hphi : ∀ l, firstPhi (F.block l) = none → firstPhi (G.block (.old l)) = none)
    (hsplit : locateTheSplit F (p.block v) = .inNonPhi) :
    locateTheSplit G (.old (p.block v)) = .inNonPhi := by
  rw [locateTheSplit_eq_inNonPhi_iff] at hsplit ⊢
  have hsucc : successors G (.old (p.block v)) = (successors F (p.block v)).map .old := by
    obtain ⟨I, hI, -⟩ := hF.load v
    have hne : p.after v ≠ [] := List.ne_nil_of_mem hI
    have hlast : (F.block (p.block v)).getLast? = (p.after v).getLast? := by
      rw [hF.block, List.getLast?_append_cons]
      exact List.getLast?_cons_of_ne_nil hne
    have hlast' : (G.block (.old (p.block v))).getLast? = ((p.after v).map embedInst).getLast? := by
      rw [hblock, List.getLast?_append_cons]
      exact List.getLast?_cons_of_ne_nil (by simpa using hne)
    rw [successors, successors, hlast, hlast', List.getLast?_map]
    cases (p.after v).getLast? with
    | none => rfl
    | some t => exact dests_bimap _ _ _
  refine ⟨hphi _ hsplit.1, fun s hs => ?_⟩
  rw [getSingleSuccessor, hsucc] at hs
  cases hsF : successors F (p.block v) with
  | nil => simp [hsF] at hs
  | cons l ls =>
    cases ls with
    | nil =>
      rw [hsF] at hs
      rw [← Option.some.inj hs]
      refine hphi l (hsplit.2 l ?_)
      rw [getSingleSuccessor, hsF]
    | cons l' ls => simp [hsF] at hs

theorem firstPhi_body (hphi : firstPhi (F.block (p.block v)) = none)
    (b : List (Inst (Name ι))) : firstPhi (body site p v ++ b) = none := by
  have hcode : firstPhi (code site p v ++ b) = none := firstPhi_code hF hphi b
  have hsave : ∀ I : Inst (Name ι), ∃ c, saveBehind (deps site p v) I = I :: c := by
    intro I
    rw [saveBehind]
    split_ifs
    · exact ⟨_, rfl⟩
    · exact ⟨_, rfl⟩
  rw [firstPhi_eq_none_iff] at hcode ⊢
  rw [body]
  cases hc : code site p v with
  | nil =>
    rw [hc] at hcode
    exact hcode
  | cons J c =>
    obtain ⟨d, hd⟩ := hsave J
    rw [hc] at hcode
    rw [List.flatMap_cons, hd]
    exact hcode

/-- The function when the block of the call of a variant is split. -/
def splitThat (site : Site) (p : CallPair ι) (G : Func (Name ι)) (v : Bool) : Func (Name ι) :=
  cut G (.old (p.block v)) (.that v) (body site p v ++ [thatBr v])
    (argDeps site p v ++ sentCall site p v :: behind site p v)

/-- **The first split** of a variant. -/
theorem firstSplit_pair {G : Func (Name ι)}
    (hsplit : locateTheSplit F (p.block v) = .inNonPhi) (hblock : G.block (.old (p.block v)) =
      code site p v ++ embedInst (p.inst v) :: (p.after v).map embedInst)
    (hphi : ∀ l, firstPhi (F.block l) = none → firstPhi (G.block (.old l)) = none)
    (hlisted : ∀ l ∈ F.labels, .old l ∈ G.labels) (hnew : .that v ∉ G.labels)
    (hother : ∀ l, l ≠ .old (p.block v) → ∀ I ∈ G.block l, I.id ≠ .old (p.call v)) :
    firstSplit (fun v => .old (p.call v)) G v =
      some (splitThat site p G v, .old (p.block v), .that v) := by
  have hcode : ∀ I ∈ code site p v, I.id ≠ .old (p.call v) := by
    intro I hI heq
    rcases id_code (List.mem_append_left _ hI) with ⟨J, hJ, rfl⟩ | h | h | h
    · exact hF.before_ne_call hJ v (Name.old.inj heq)
    all_goals
      rw [heq] at h
      cases h
  have hfirst := firstSplit_eq (c := fun v => Name.old (p.call v)) hblock rfl hcode
    Bool.false_ne_true (locateTheSplit_embed hF hblock hphi hsplit)
    (hlisted _ (hF.listed v)) hnew (by simp) fun l _ => hother l
  rw [hfirst]
  have h₁ := first_fst site hF v
  have h₂ := first_snd site hF v
  rw [thatBr] at h₁ h₂
  rw [h₁, h₂]
  rfl

/-- The announcements do not put a phi at the start of a block. -/
theorem firstPhi_announced {l : ι} (hphi : firstPhi (F.block l) = none) :
    firstPhi ((announced site F p).block (.old l)) = none := by
  by_cases hl : ∃ v, l = p.block v
  · obtain ⟨v, rfl⟩ := hl
    rw [block_announced_this hF]
    exact firstPhi_code hF hphi _
  · rw [block_announced_other hF fun v heq => hl ⟨v, heq⟩]
    exact firstPhi_map_embedInst hphi

theorem exists_isLoad_behind (v : Bool) : ∃ J ∈ behind site p v, isLoad J := by
  obtain ⟨I, hI, hload⟩ := hF.load v
  exact exists_isLoad_foldl _ ⟨embedInst I, List.mem_map_of_mem hI, by rwa [isLoad_embedInst]⟩

/-- The function when the block of the first call is split. -/
def onceSplit (site : Site) (F : Func ι) (p : CallPair ι) : Func (Name ι) :=
  splitThat site p (announced site F p) false

/-- The function when both blocks are split. -/
def twiceSplit (site : Site) (F : Func ι) (p : CallPair ι) : Func (Name ι) :=
  splitThat site p (onceSplit site F p) true

variable (site) in
/-- The blocks when both are split. -/
theorem block_twiceSplit :
    (∀ l, (∀ v, l ≠ p.block v) →
      (twiceSplit site F p).block (.old l) = (F.block l).map embedInst) ∧
    (∀ v, (twiceSplit site F p).block (.old (p.block v)) = body site p v ++ [thatBr v]) ∧
    (∀ v, (twiceSplit site F p).block (.that v) =
      argDeps site p v ++ sentCall site p v :: behind site p v) ∧
    ∀ n, (∀ l, n ≠ .old l) → (∀ v, n ≠ .that v) → (twiceSplit site F p).block n = [] := by
  have hkeep : ∀ l, (∀ v, l ≠ .old (p.block v)) → (∀ v, l ≠ .that v) →
      (twiceSplit site F p).block l = (announced site F p).block l := fun l hthis hthat =>
    (block_cut_of_ne (hthis true) (hthat true)).trans (block_cut_of_ne (hthis false) (hthat false))
  refine ⟨fun l hl => ?_, fun v => ?_, fun v => ?_, fun n hold hthat => ?_⟩
  · rw [hkeep _ (fun v heq => hl v (Name.old.inj heq)) (by simp), block_announced_other hF hl]
  · cases v with
    | false =>
      have hne : (Name.old (p.block false) : Name ι) ≠ .old (p.block true) :=
        fun heq => hF.apart (Name.old.inj heq)
      exact (block_cut_of_ne hne (by simp)).trans (block_cut_self (by simp))
    | true => exact block_cut_self (by simp)
  · cases v with
    | false => exact (block_cut_of_ne (by simp) (by simp)).trans block_cut_new
    | true => exact block_cut_new
  · rw [hkeep n (fun v => hold _) hthat]
    cases n with
    | old i => exact absurd rfl (hold i)
    | _ => rfl

/-- The function with the branches to the merged call and the gate behind it. -/
def withGate (site : Site) (p : CallPair ι) (H : Func (Name ι)) : Func (Name ι) :=
  modify (modify (modify H (.old (p.block false))
      (·.dropLast ++ [⟨.entryBr false, .br [] [.that false]⟩])) (.old (p.block true))
      (·.dropLast ++ [⟨.entryBr true, .br [] [.that false]⟩])) (.that false)
    (·.dropLast ++ gate site)

variable {bad : Name ι → Prop} (hbad : Reserved F p bad)
include hbad

/-- The announcements do not put a call into another block. -/
theorem announced_ne_call {l : Name ι} (hl : l ≠ .old (p.block v)) :
    ∀ I ∈ (announced site F p).block l, I.id ≠ .old (p.call v) := by
  intro I hI
  have hnew : ∀ n : Name ι, (∀ i, n ≠ .old i) → (announced site F p).block n = [] := by
    intro n hn
    cases n with
    | old i => exact absurd rfl (hn i)
    | _ => rfl
  by_cases hold : ∃ i, l = .old i
  · obtain ⟨i, rfl⟩ := hold
    by_cases hi : ∃ w, i = p.block w
    · obtain ⟨w, rfl⟩ := hi
      have hwv : p.block w ≠ p.block v := fun heq => hl (congrArg Name.old heq)
      rw [block_announced_this hF] at hI
      rcases List.mem_append.mp hI with hI | hI
      · exact (clean_code hF hbad hI).call v
      · rcases List.mem_cons.mp hI with rfl | hI
        · exact fun heq => hF.id_ne_call (hF.mem_block w) hwv (Name.old.inj heq)
        · obtain ⟨J, hJ, rfl⟩ := List.mem_map.mp hI
          exact fun heq => hF.after_ne_call hJ v (Name.old.inj heq)
    · have hi : ∀ w, i ≠ p.block w := fun w heq => hi ⟨w, heq⟩
      rw [block_announced_other hF hi] at hI
      obtain ⟨J, hJ, rfl⟩ := List.mem_map.mp hI
      exact fun heq => hF.id_ne_call hJ (hi v) (Name.old.inj heq)
  · rw [hnew l fun i heq => hold ⟨i, heq⟩] at hI
    exact absurd hI List.not_mem_nil

theorem firstSplit_false (hsplit : locateTheSplit F (p.block false) = .inNonPhi) :
    firstSplit (fun v => .old (p.call v)) (announced site F p) false =
      some (onceSplit site F p, .old (p.block false), .that false) := by
  refine firstSplit_pair hF hsplit (block_announced_this hF false)
    (fun l => firstPhi_announced hF) (fun l hl => List.mem_map_of_mem hl) (fun h => ?_)
    fun l hl => announced_ne_call hF hbad hl
  obtain ⟨l, -, hl⟩ := List.mem_map.mp h
  cases hl

theorem firstSplit_true (hsplit : locateTheSplit F (p.block true) = .inNonPhi) :
    firstSplit (fun v => .old (p.call v)) (onceSplit site F p) true =
      some (twiceSplit site F p, .old (p.block true), .that true) := by
  have hother : ∀ l, l ≠ .old (p.block false) → l ≠ .that false →
      (onceSplit site F p).block l = (announced site F p).block l := fun l => block_cut_of_ne
  have hne : (Name.old (p.block true) : Name ι) ≠ .old (p.block false) :=
    fun heq => hF.apart (Name.old.inj heq).symm
  have hthis : (onceSplit site F p).block (.old (p.block false)) =
      body site p false ++ [thatBr false] := block_cut_self (by simp)
  have hlib : (onceSplit site F p).block (.that false) =
      argDeps site p false ++ sentCall site p false :: behind site p false := block_cut_new
  refine firstSplit_pair hF hsplit ?_ (fun l hphi => ?_) (fun l hl => ?_) (fun h => ?_)
    fun l hl I hI => ?_
  · rw [hother _ hne (by simp), block_announced_this hF]
  · by_cases hl : l = p.block false
    · rw [hl] at hphi ⊢
      rw [hthis]
      exact firstPhi_body hF hphi _
    · rw [hother _ (fun heq => hl (Name.old.inj heq)) (by simp)]
      exact firstPhi_announced hF hphi
  · exact List.mem_append_left _ (List.mem_map_of_mem hl)
  · rcases List.mem_append.mp h with h | h
    · obtain ⟨l, -, hl⟩ := List.mem_map.mp h
      cases hl
    · cases List.mem_singleton.mp h
  · by_cases hthat : l = .that false
    · -- the first call, its loads, and the code behind it
      rw [hthat, hlib] at hI
      rcases List.mem_append.mp hI with hI | hI
      · obtain ⟨d, -, n, -, rfl⟩ := mem_argDeps hI
        exact fun heq => by cases heq
      · rcases List.mem_cons.mp hI with rfl | hI
        · exact fun heq => Bool.false_ne_true (hF.call_injective (Name.old.inj heq))
        · exact (clean_after hF hbad false I hI).call true
    · by_cases hl₀ : l = .old (p.block false)
      · rw [hl₀, hthis] at hI
        rcases List.mem_append.mp hI with hI | hI
        · exact (clean_body hF hbad hI).call true
        · rw [List.mem_singleton.mp hI]
          exact fun heq => by cases heq
      · rw [hother l hl₀ hthat] at hI
        exact announced_ne_call hF hbad hl I hI

omit hF [DecidableEq ι] in
/-- The gate is clean. -/
theorem clean_gate : ∀ J ∈ gate (ι := ι) site, p.Clean bad J := by
  have hnames : ∀ k, ∀ n ∈ (Value.inst (Name.gate k : Name ι)).name?, ¬ bad n :=
    fun k n hn => Option.some.inj hn ▸ hbad.not_new (by simp) (by simp)
  have hother : ∀ k, ∀ n ∈ (Value.other k : Value (Name ι)).name?, ¬ bad n :=
    fun k n hn => by cases hn
  intro J hJ
  simp only [gate, List.mem_cons, List.not_mem_nil, or_false] at hJ
  rcases hJ with rfl | rfl | rfl | rfl
  all_goals refine ⟨hbad.not_new (by simp) (by simp), by simp, ?_, by simp [Op.dests]⟩
  · simpa [Op.operands] using ⟨hother _, hother _⟩
  · simpa [Op.operands, Ptr.operands] using hnames 0
  · simpa [Op.operands] using ⟨hnames 1, hother _⟩
  · simpa [Op.operands] using hnames 2

/-- The function with the gate, from its parts. -/
theorem gated_withGate {H : Func (Name ι)} {R : Bool → List (Inst (Name ι))}
    (hentry : H.entry = .old F.entry) (hlabels : H.labels =
      F.labels.map .old ++ [.that false, .that true, .tol false, .tol true])
    (hother : ∀ l, (∀ v, l ≠ p.block v) → H.block (.old l) = (F.block l).map embedInst)
    (hthis : ∀ v, H.block (.old (p.block v)) = body site p v ++ [thatBr v])
    (hlib : ∀ v, H.block (.that v) = argDeps site p v ++ sentCall site p v :: R v)
    (hR : ∀ v, R v ≠ [] ∧ ∀ J ∈ R v, p.Clean bad J)
    (htol : ∀ v, ∀ J ∈ H.block (.tol v), p.Clean bad J)
    (hnew : ∀ n, (∀ l, n ≠ .old l) → (∀ v, n ≠ .that v) → (∀ v, n ≠ .tol v) → H.block n = []) :
    Gated site F p bad (withGate site p H) := by
  have hne : (Name.old (p.block false) : Name ι) ≠ .old (p.block true) :=
    fun heq => hF.apart (Name.old.inj heq)
  have hkeep : ∀ l, l ≠ .that false → (∀ v, l ≠ .old (p.block v)) →
      (withGate site p H).block l = H.block l := by
    intro l hthat hl
    rw [withGate, modify, modify, modify]
    dsimp only
    rw [Function.update_of_ne hthat, Function.update_of_ne (hl true),
      Function.update_of_ne (hl false)]
  refine ⟨hentry, hlabels, fun l hl => ?_, fun v => ?_, fun v => ?_, fun v => ?_,
    fun n hold hthat htol => ?_⟩
  · rw [hkeep _ (by simp) fun v heq => hl v (Name.old.inj heq), hother l hl]
  · rw [withGate, modify, modify, modify]
    dsimp only
    rw [Function.update_of_ne (by simp)]
    cases v with
    | false => rw [Function.update_of_ne hne, Function.update_self, hthis, List.dropLast_concat]
    | true =>
      rw [Function.update_self, Function.update_of_ne hne.symm, hthis, List.dropLast_concat]
  · cases v with
    | false =>
      refine ⟨(R false).dropLast ++ gate site, ?_, fun J hJ => ?_⟩
      · rw [withGate, modify, modify, modify]
        dsimp only
        rw [Function.update_self, Function.update_of_ne (by simp), Function.update_of_ne (by simp),
          hlib, List.dropLast_append_of_ne_nil (by simp), List.dropLast_cons_of_ne_nil (hR false).1,
          List.append_assoc, List.cons_append]
      · rcases List.mem_append.mp hJ with hJ | hJ
        · exact (hR false).2 J (List.dropLast_subset _ hJ)
        · exact clean_gate hbad J hJ
    | true =>
      refine ⟨R true, ?_, (hR true).2⟩
      rw [hkeep _ (by simp) (by simp), hlib]
  · rw [hkeep _ (by simp) (by simp)]
    exact htol v
  · rw [hkeep n (hthat false) fun v => hold _]
    exact hnew n hold hthat htol

variable (site) in
/-- **The way to the gate.**  If no phi is near the calls, the pass takes the function to one with
    the gate, whose arguments it merges. -/
theorem insertWindowEntryGate_eq (hsplit : ∀ v, locateTheSplit F (p.block v) = .inNonPhi) :
    ∃ G, insertWindowEntryGate site F p.call p.retAlloca =
        fixupLibCallArgs G (fun v => .old (p.call v)) (fun v => .old (p.block v)) ∧
      Gated site F p bad G := by
  have hT := block_twiceSplit site hF
  obtain ⟨R₀, N₀, hsecond₀, hne₀, hR₀, hN₀⟩ := secondSplit_pair hF hbad (hT.2.2.1 false)
    (exists_isLoad_behind hF false) (clean_after hF hbad false)
  -- the second split of the other variant starts from there
  obtain ⟨H, hH⟩ : ∃ H, H = cut (twiceSplit site F p) (.that false) (.tol false)
      (argDeps site p false ++ sentCall site p false :: R₀) N₀ := ⟨_, rfl⟩
  have hkeep : ∀ l, l ≠ .that false → l ≠ .tol false →
      H.block l = (twiceSplit site F p).block l := fun l hthat htol => by
    rw [hH, block_cut_of_ne hthat htol]
  have hlib : H.block (.that true) =
      argDeps site p true ++ sentCall site p true :: behind site p true := by
    rw [hkeep _ (by simp) (by simp), hT.2.2.1]
  obtain ⟨R₁, N₁, hsecond₁, hne₁, hR₁, hN₁⟩ := secondSplit_pair hF hbad hlib
    (exists_isLoad_behind hF true) (clean_after hF hbad true)
  refine ⟨withGate site p (cut H (.that true) (.tol true)
    (argDeps site p true ++ sentCall site p true :: R₁) N₁), ?_, ?_⟩
  · rw [insertWindowEntryGate]
    show (firstSplit _ (announced site F p) false).bind _ = _
    rw [firstSplit_false hF hbad (hsplit false), Option.bind_some]
    dsimp only
    rw [firstSplit_true hF hbad (hsplit true), Option.bind_eq_bind, Option.bind_some]
    dsimp only
    rw [hsecond₀, Option.bind_eq_bind, Option.bind_some, ← hH, hsecond₁, Option.bind_some]
    have hthis : (fun v => if v = true then Name.old (p.block true) else .old (p.block false)) =
        fun v => .old (p.block v) := by
      funext v
      cases v <;> rfl
    rw [hthis]
    rfl
  · have hkeep' : ∀ l, (∀ v, l ≠ .that v) → (∀ v, l ≠ .tol v) →
        (cut H (.that true) (.tol true) (argDeps site p true ++ sentCall site p true :: R₁)
          N₁).block l = (twiceSplit site F p).block l := fun l hthat htol =>
      (block_cut_of_ne (hthat true) (htol true)).trans (hkeep l (hthat false) (htol false))
    refine gated_withGate (R := fun v => if v then R₁ else R₀) hF hbad ?_ ?_ (fun l hl => ?_)
      (fun v => ?_) (fun v => ?_) (fun v => ?_) (fun v => ?_) (fun n hold hthat htol => ?_)
    · rw [hH]
      rfl
    · rw [hH]
      simp [twiceSplit, onceSplit, splitThat, announced, cut, mapBlocks, embed]
    · exact (hkeep' _ (by simp) (by simp)).trans (hT.1 l hl)
    · exact (hkeep' _ (by simp) (by simp)).trans (hT.2.1 v)
    · cases v with
      | false => exact (block_cut_of_ne (by simp) (by simp)).trans (hH ▸ block_cut_self (by simp))
      | true => exact block_cut_self (by simp)
    · cases v with
      | false => exact ⟨hne₀, hR₀⟩
      | true => exact ⟨hne₁, hR₁⟩
    · cases v with
      | false =>
        rw [block_cut_of_ne (by simp) (by simp), hH, block_cut_new]
        exact hN₀
      | true =>
        rw [block_cut_new]
        exact hN₁
    · exact (hkeep' n hthat htol).trans (hT.2.2.2 n hold hthat)

end Way

end Firestarter.EntryGate
