import Mathlib.Data.List.Count
import Firestarter.Ltckpt.StoreElim

namespace Firestarter.Ltckpt.DominationMap

/-!
# The chains of `ObjectStoreDomationMap` (`ltCkptPassBasic.cpp`)

The map collects the stores to an object in chains.  A store goes to the first chain whose leader
it is dominated by, at the end, or whose leader it dominates, in front; if there is none it starts
a chain of its own.

* `addStore` — one call, for any dominance relation and any objects;
* `addToList_led`, `addToList_perm` — what a call keeps, and what it adds;
* `chains_led_and_exact` — **every sequence of calls**: leaders dominate their chains, and every
  store is in one chain;
* `storeDominationMap_eq` — the map that `aggregateStores` builds is one of these.
-/

/-! ### The map -/

/-- A dominance relation, `DT->dominates`.  It is transitive, also with blocks that are not
    reachable; a store need not dominate itself. -/
structure Dominance (ι : Type*) where
  dominates : ι → ι → Bool
  trans : ∀ {a b c}, dominates a b = true → dominates b c = true → dominates a c = true

/-- `DominationChainTy`: stores with their offsets.  A chain is never empty, as its leader is read
    without a test. -/
structure Chain (ι : Type*) where
  leader : ι × ℤ
  rest : List (ι × ℤ)

/-- The stores of a chain with their offsets, in order. -/
def Chain.toList {ι : Type*} (dc : Chain ι) : List (ι × ℤ) := dc.leader :: dc.rest

/-- The stores of a chain. -/
def Chain.stores {ι : Type*} (dc : Chain ι) : List ι := dc.toList.map Prod.fst

/-- **The shape of a chain**: the first store dominates the others. -/
def Chain.Led {ι : Type*} (D : Dominance ι) (dc : Chain ι) : Prop :=
  ∀ e ∈ dc.rest, D.dominates dc.leader.1 e.1 = true

/-- The arguments of `addStore`. -/
structure AddStore (κ ι : Type*) where
  V : κ
  I : ι
  offset : ℤ

/-- `dcentry`. -/
def AddStore.entry {κ ι : Type*} (c : AddStore κ ι) : ι × ℤ := (c.I, c.offset)

section Map

variable {κ ι : Type*} [DecidableEq κ] (D : Dominance ι)

/-- The loop of `addStore` over the chains of an object, and what follows it. -/
def addToList (dcentry : ι × ℤ) : List (Chain ι) → List (Chain ι)
  | [] => [⟨dcentry, []⟩]
  | dc :: dcl =>
    if D.dominates dc.leader.1 dcentry.1 then
      -- `push_back`
      ⟨dc.leader, dc.rest ++ [dcentry]⟩ :: dcl
    else if D.dominates dcentry.1 dc.leader.1 then
      -- `push_front`
      ⟨dcentry, dc.leader :: dc.rest⟩ :: dcl
    else dc :: addToList dcentry dcl

/-- `ObjectStoreDomationMap::addStore`; `none` stands for objects without an entry. -/
def addStore (map : κ → Option (List (Chain ι))) (c : AddStore κ ι) : κ → Option (List (Chain ι)) :=
  match map c.V with
  | none => Function.update map c.V (some [⟨c.entry, []⟩])
  | some dcl => Function.update map c.V (some (addToList D c.entry dcl))

/-- The map behind a sequence of calls. -/
def addStores (calls : List (AddStore κ ι)) : κ → Option (List (Chain ι)) :=
  calls.foldl (addStore D) fun _ => none

/-- The chains of an object. -/
def chains (map : κ → Option (List (Chain ι))) (V : κ) : List (Chain ι) := (map V).getD []

variable {D}

/-! ### One call -/

/-- A call changes the chains of its object, whether or not the object had an entry. -/
theorem chains_addStore (map : κ → Option (List (Chain ι))) (c : AddStore κ ι) (V : κ) :
    chains (addStore D map c) V =
      if V = c.V then addToList D c.entry (chains map c.V) else chains map V := by
  unfold addStore chains
  by_cases hV : V = c.V
  · subst hV
    rw [if_pos rfl]
    cases hmap : map c.V with
    | none =>
      show (Function.update map c.V _ c.V).getD [] = _
      rw [Function.update_self]
      rfl
    | some dcl =>
      show (Function.update map c.V _ c.V).getD [] = _
      rw [Function.update_self]
      rfl
  · rw [if_neg hV]
    cases hmap : map c.V with
    | none =>
      show (Function.update map c.V _ V).getD [] = _
      rw [Function.update_of_ne hV]
    | some dcl =>
      show (Function.update map c.V _ V).getD [] = _
      rw [Function.update_of_ne hV]

/-- **A call keeps the shape**: what the old leader dominates, a new leader dominates, too. -/
theorem addToList_led (e : ι × ℤ) {dcl : List (Chain ι)} (h : ∀ dc ∈ dcl, dc.Led D) :
    ∀ dc ∈ addToList D e dcl, dc.Led D := by
  induction dcl with
  | nil =>
    intro dc hdc
    rw [List.mem_singleton.mp hdc]
    exact fun _ he => absurd he List.not_mem_nil
  | cons dc dcl ih =>
    rw [List.forall_mem_cons] at h
    obtain ⟨hdc, hdcl⟩ := h
    rw [addToList]
    split_ifs with hback hfront
    · refine List.forall_mem_cons.mpr ⟨fun e' he' => ?_, hdcl⟩
      rcases List.mem_append.mp he' with he' | he'
      · exact hdc e' he'
      · rw [List.mem_singleton.mp he']
        exact hback
    · refine List.forall_mem_cons.mpr ⟨fun e' he' => ?_, hdcl⟩
      rcases List.mem_cons.mp he' with rfl | he'
      · exact hfront
      · exact D.trans hfront (hdc e' he')
    · exact List.forall_mem_cons.mpr ⟨hdc, ih hdcl⟩

/-- **A call adds its store** to the chains, once. -/
theorem addToList_perm (e : ι × ℤ) (dcl : List (Chain ι)) :
    ((addToList D e dcl).flatMap Chain.toList).Perm (e :: dcl.flatMap Chain.toList) := by
  induction dcl with
  | nil => exact List.Perm.refl _
  | cons dc dcl ih =>
    rw [addToList]
    split_ifs
    · simp only [List.flatMap_cons, Chain.toList, List.cons_append, List.append_assoc]
      exact (List.Perm.cons _ List.perm_middle).trans (List.Perm.swap _ _ _)
    · exact List.Perm.refl _
    · simp only [List.flatMap_cons]
      exact (ih.append_left dc.toList).trans List.perm_middle

/-! ### A sequence of calls -/

variable (D)

/-- The chains of an object hold the stores of its calls. -/
theorem chains_foldl_perm (calls : List (AddStore κ ι)) (map : κ → Option (List (Chain ι)))
    (V : κ) : ((chains (calls.foldl (addStore D) map) V).flatMap Chain.toList).Perm
      ((calls.filter (·.V = V)).map AddStore.entry ++ (chains map V).flatMap Chain.toList) := by
  induction calls generalizing map with
  | nil => exact List.Perm.refl _
  | cons c calls ih =>
    refine (ih (addStore D map c)).trans ?_
    rw [chains_addStore]
    by_cases hV : V = c.V
    · subst hV
      rw [if_pos rfl, List.filter_cons_of_pos (by simp), List.map_cons, List.cons_append]
      exact ((addToList_perm c.entry _).append_left _).trans List.perm_middle
    · rw [if_neg hV, List.filter_cons_of_neg (by simpa using Ne.symm hV)]

/-- Every sequence of calls keeps the shape of all chains. -/
theorem chains_foldl_led (calls : List (AddStore κ ι)) {map : κ → Option (List (Chain ι))}
    (h : ∀ V, ∀ dc ∈ chains map V, dc.Led D) (V : κ) :
    ∀ dc ∈ chains (calls.foldl (addStore D) map) V, dc.Led D := by
  induction calls generalizing map with
  | nil => exact h V
  | cons c calls ih =>
    refine ih fun V => ?_
    rw [chains_addStore]
    split_ifs
    · exact addToList_led c.entry (h c.V)
    · exact h V

/-- The chains of an object hold what was added for it. -/
theorem entries_addStores (calls : List (AddStore κ ι)) (V : κ) :
    ((chains (addStores D calls) V).flatMap Chain.toList).Perm
      ((calls.filter (·.V = V)).map AddStore.entry) := by
  have h := chains_foldl_perm D calls (fun _ => none) V
  have hempty : chains (fun _ : κ => (none : Option (List (Chain ι)))) V = [] := rfl
  rwa [hempty, List.flatMap_nil, List.append_nil] at h

theorem stores_addStores (calls : List (AddStore κ ι)) (V : κ) :
    ((chains (addStores D calls) V).flatMap Chain.stores).Perm
      ((calls.filter (·.V = V)).map AddStore.I) := by
  have h := (entries_addStores D calls V).map Prod.fst
  rwa [List.map_map, List.map_flatMap] at h

end Map

/-! ### Exactly one chain -/

section Once

variable {α β : Type*} [DecidableEq β] {f : α → List β} {x : β}

/-- What two members of a list contribute is there twice. -/
theorem two_le_count_flatMap {l : List α} {i j : ℕ} {a b : α} (hij : i < j) (hi : l[i]? = some a)
    (hj : l[j]? = some b) (ha : x ∈ f a) (hb : x ∈ f b) : 2 ≤ (l.flatMap f).count x := by
  induction l generalizing i j with
  | nil => exact absurd hi (by simp)
  | cons c l ih =>
    obtain ⟨j, rfl⟩ := Nat.exists_eq_succ_of_ne_zero (Nat.ne_zero_of_lt hij)
    rw [List.flatMap_cons, List.count_append]
    rw [List.getElem?_cons_succ] at hj
    cases i with
    | zero =>
      obtain rfl := Option.some.inj hi
      have hc : 0 < (f c).count x := List.count_pos_iff.mpr ha
      have hl : 0 < (l.flatMap f).count x :=
        List.count_pos_iff.mpr (List.mem_flatMap.mpr ⟨b, List.mem_of_getElem? hj, hb⟩)
      omega
    | succ i =>
      have := ih (Nat.lt_of_succ_lt_succ hij) hi hj
      omega

/-- Members that contribute the same thing, which is there once, stand at the same place. -/
theorem index_unique_of_count {l : List α} (hcount : (l.flatMap f).count x ≤ 1) {i j : ℕ} {a b : α}
    (hi : l[i]? = some a) (hj : l[j]? = some b) (ha : x ∈ f a) (hb : x ∈ f b) : i = j := by
  rcases lt_trichotomy i j with hij | hij | hij
  · have := two_le_count_flatMap hij hi hj ha hb
    omega
  · exact hij
  · have := two_le_count_flatMap hij hj hi hb ha
    omega

end Once

/-- A call with the only mention of its store. -/
theorem exists_only_call {κ ι : Type*} [DecidableEq ι] {calls : List (AddStore κ ι)} {I : ι}
    (h : (calls.map AddStore.I).count I = 1) :
    ∃ c ∈ calls, c.I = I ∧ ∀ c' ∈ calls, c'.I = I → c' = c := by
  induction calls with
  | nil => exact absurd h (by simp)
  | cons c calls ih =>
    rw [List.map_cons, List.count_cons] at h
    by_cases hc : c.I = I
    · -- then the other calls do not mention it
      have hzero : (calls.map AddStore.I).count I = 0 := by simpa [hc] using h
      refine ⟨c, List.mem_cons_self, hc, fun c' hc' hI => ?_⟩
      rcases List.mem_cons.mp hc' with rfl | hc'
      · rfl
      · exact absurd (hI ▸ List.mem_map_of_mem hc') (List.count_eq_zero.mp hzero)
    · obtain ⟨d, hd, hI, honly⟩ := ih (by simpa [hc] using h)
      refine ⟨d, List.mem_cons_of_mem _ hd, hI, fun c' hc' hI' => ?_⟩
      rcases List.mem_cons.mp hc' with rfl | hc'
      · exact absurd hI' hc
      · exact honly c' hc' hI'

section Main

variable {κ ι : Type*} [DecidableEq κ]

/-- A store of one call is in one chain. -/
theorem exists_unique_chain [DecidableEq ι] (D : Dominance ι) {calls : List (AddStore κ ι)} {I : ι}
    (h : (calls.map AddStore.I).count I = 1) :
    ∃! p : κ × ℕ, ∃ dc, (chains (addStores D calls) p.1)[p.2]? = some dc ∧ I ∈ dc.stores := by
  obtain ⟨c, hc, rfl, honly⟩ := exists_only_call h
  have hmem : ∀ V, c.I ∈ (chains (addStores D calls) V).flatMap Chain.stores ↔ V = c.V := by
    intro V
    rw [(stores_addStores D calls V).mem_iff, List.mem_map]
    constructor
    · rintro ⟨c', hc', hI⟩
      obtain ⟨hc', hV⟩ := List.mem_filter.mp hc'
      rw [← honly c' hc' hI]
      exact (of_decide_eq_true hV).symm
    · rintro rfl
      exact ⟨c, List.mem_filter.mpr ⟨hc, decide_eq_true rfl⟩, rfl⟩
  obtain ⟨dc, hdc, hI⟩ := List.mem_flatMap.mp ((hmem c.V).mpr rfl)
  obtain ⟨i, hi⟩ := List.getElem?_of_mem hdc
  refine ⟨(c.V, i), ⟨dc, hi, hI⟩, ?_⟩
  rintro ⟨V, j⟩ ⟨dc', hj, hI'⟩
  obtain rfl := (hmem V).mp (List.mem_flatMap.mpr ⟨dc', List.mem_of_getElem? hj, hI'⟩)
  have hcount : ((chains (addStores D calls) c.V).flatMap Chain.stores).count c.I ≤ 1 := by
    rw [(stores_addStores D calls c.V).count_eq, ← h]
    exact (List.filter_sublist.map AddStore.I).count_le _
  exact Prod.ext rfl (index_unique_of_count hcount hj hi hI' hI)

/-- **Chains have a dominating leader, and hold every store.**  For every dominance relation and
    every sequence of `addStore` calls, the first store of a chain dominates the others; the
    chains of an object hold what was added for it, each call once; and a store that was added
    once is in exactly one chain of the map. -/
theorem chains_led_and_exact [DecidableEq ι] (D : Dominance ι) (calls : List (AddStore κ ι)) :
    (∀ V, ∀ dc ∈ chains (addStores D calls) V,
      ∀ e ∈ dc.rest, D.dominates dc.leader.1 e.1 = true) ∧
    (∀ V, ((chains (addStores D calls) V).flatMap Chain.toList).Perm
      ((calls.filter (·.V = V)).map AddStore.entry)) ∧
    ∀ I, (calls.map AddStore.I).count I = 1 →
      ∃! p : κ × ℕ, ∃ dc, (chains (addStores D calls) p.1)[p.2]? = some dc ∧ I ∈ dc.stores := by
  refine ⟨fun V => ?_, entries_addStores D calls, fun I hI => exists_unique_chain D hI⟩
  exact chains_foldl_led D calls (fun _ _ hdc => absurd hdc List.not_mem_nil) V

/-- Stores in a row. -/
def inARow : Dominance ℕ where
  dominates a b := decide (a < b)
  trans hab hbc := decide_eq_true ((of_decide_eq_true hab).trans (of_decide_eq_true hbc))

/-- The second store becomes the leader of the first, the third joins them. -/
theorem chains_led_and_exact_three :
    (chains (addStores inARow [⟨0, 5, 0⟩, ⟨0, 3, 8⟩, ⟨0, 7, 16⟩]) 0).map Chain.stores =
        [[3, 5, 7]] ∧
      ∃! p : ℕ × ℕ, ∃ dc, (chains (addStores inARow [⟨0, 5, 0⟩, ⟨0, 3, 8⟩, ⟨0, 7, 16⟩])
        p.1)[p.2]? = some dc ∧ 3 ∈ dc.stores :=
  ⟨by decide, (chains_led_and_exact inARow [⟨0, 5, 0⟩, ⟨0, 3, 8⟩, ⟨0, 7, 16⟩]).2.2 3 (by decide)⟩

end Main

/-! ### The map of `aggregateStores` -/

section Aggregate

variable {ι : Type*} {F : PassFunction ι} (DT : DominatorTree F.graph)

/-- The dominance relation of a function's dominator tree. -/
def ofTree : Dominance ι where
  dominates := DT.dominates
  trans hab hbc := (DT.dominates_iff _ _).mpr
    (((DT.dominates_iff _ _).mp hab).trans ((DT.dominates_iff _ _).mp hbc))

/-- The call of `addStore` for a member of the set, if it is a store. -/
def storeCall (F : PassFunction ι) (n : ι) : Option (AddStore ℕ ι) :=
  (F.storeAt n).map fun s => ⟨s.base, n, s.offset⟩

theorem addToChains_eq (I : ι) (off : ℤ) (dcl : List (Chain ι)) :
    addToChains F DT I off (dcl.map Chain.toList) =
      (addToList (ofTree DT) (I, off) dcl).map Chain.toList := by
  induction dcl with
  | nil => rfl
  | cons dc dcl ih =>
    obtain ⟨⟨leader, off'⟩, rest⟩ := dc
    rw [List.map_cons, Chain.toList, addToChains, addToList, ih]
    by_cases hback : DT.dominates leader I = true
    · rw [if_pos hback, if_pos (show (ofTree DT).dominates leader I = true from hback)]
      rfl
    · rw [if_neg hback, if_neg (show ¬ (ofTree DT).dominates leader I = true from hback)]
      by_cases hfront : DT.dominates I leader = true
      · rw [if_pos hfront, if_pos (show (ofTree DT).dominates I leader = true from hfront)]
        rfl
      · rw [if_neg hfront, if_neg (show ¬ (ofTree DT).dominates I leader = true from hfront)]
        rfl

/-- **The map of `aggregateStores`** is the map behind the calls for its stores. -/
theorem storeDominationMap_eq (L : List ι) (V : ℕ) :
    storeDominationMap F DT L V =
      (chains (addStores (ofTree DT) (L.filterMap (storeCall F))) V).map Chain.toList := by
  unfold storeDominationMap addStores
  -- the two loops keep equal chains, from any map on
  suffices h : ∀ (M : StoreDominationMap ι) (map : ℕ → Option (List (Chain ι))),
      (∀ V, M V = (chains map V).map Chain.toList) → ∀ V, L.foldl (Ltckpt.addStore F DT) M V =
        (chains ((L.filterMap (storeCall F)).foldl (addStore (ofTree DT)) map) V).map
          Chain.toList from h (fun _ => []) (fun _ => none) (fun _ => rfl) V
  induction L with
  | nil => exact fun _ _ h => h
  | cons n L ih =>
    intro M map hM
    rw [List.foldl_cons]
    cases hs : F.storeAt n with
    | none =>
      rw [List.filterMap_cons_none (by rw [storeCall, hs]; rfl)]
      refine ih _ _ fun V => ?_
      rw [Ltckpt.addStore, hs]
      exact hM V
    | some s =>
      rw [List.filterMap_cons_some (b := ⟨s.base, n, s.offset⟩) (by rw [storeCall, hs]; rfl),
        List.foldl_cons]
      refine ih _ _ fun V => ?_
      rw [Ltckpt.addStore, hs, chains_addStore]
      show Function.update M s.base (addToChains F DT n s.offset (M s.base)) V = _
      by_cases hV : V = s.base
      · subst hV
        rw [Function.update_self, if_pos rfl, hM, addToChains_eq]
        rfl
      · rw [Function.update_of_ne hV, if_neg hV, hM]

end Aggregate

end Firestarter.Ltckpt.DominationMap
