import Firestarter.Hybrid.RemoveCkpt

namespace Firestarter.Hybrid.RemoveCkpt

open Worklist
open HybRcvry (Callee isLibCallInst)

/-!
# When `removeCheckpointing` is exact

The outer loop visits the blocks in breadth-first order, and the block of the library call a second
time if a branch leads back to it.  That visit goes on from wherever the visit before it left the
iterator.

* `removeCheckpointing_eq` — the search is a loop over the blocks in breadth-first order;
* `removeCheckpointing_ends` — the search ends;
* `removes_exactly_iff` — when it deletes exactly the `ltckpt_` calls on paths from the call.
-/

/-! ### The search as a loop over blocks -/

section Search

variable {hook : Option Callee} {n : ℕ} {code : Code n} {site : Pos n}

variable {parent b : Fin n}

/-- The visit of a block other than that of the call. -/
theorem visit_of_ne (hb : b ≠ parent) (st : St n) :
    visit hook code parent st b =
      if derefsNull hook code b 0 then .error .undefinedBehaviour
      else .ok (⟨leaves hook code b 0,
        st.instsToRemove ++ part hook code b 0⟩,
        if exits hook code b 0 then branchSuccessors code b else []) := by
  rw [visit, if_pos hb, scanFrom_eq]
  simp

/-- A later visit of the block of the call: the iterator goes on in the block `b`, where it was
    left. -/
theorem visit_again (hb : b ≠ parent) (i : ℕ) (removed : List (Pos n)) :
    visit hook code parent ⟨⟨b, i⟩, removed⟩ parent =
      if (code b).body.length < i ∨ derefsNull hook code b (i + 1) = true ∨
          exits hook code b (i + 1) = true then .error .undefinedBehaviour
      else .ok (⟨leaves hook code b (i + 1),
        removed ++ part hook code b (i + 1)⟩, []) := by
  rw [visit, if_neg (not_not_intro rfl), scanFrom_eq]
  by_cases hlen : (code b).body.length < i
  · rw [if_pos hlen, if_pos (.inl hlen)]
  · rw [if_neg hlen]
    cases derefsNull hook code b (i + 1) <;>
      cases exits hook code b (i + 1) <;> simp [hlen, hb]

/-- The edges of the block of the call have been seen, and the iterator is not inside it. -/
def Behind (hook : Option Callee) (code : Code n) (site : Pos n) (seen : List (Fin n))
    (st : St n) : Prop :=
  (∀ x ∈ edges hook code (branchSuccessors code) site site.block, x ∈ seen) ∧
    (st.BI.block ≠ site.block ∨ (code site.block).body.length < st.BI.idx)

/-- Each visit returns the edges of the block, as far as they are new. -/
theorem visit_fresh {seen : List (Fin n)} {st st' : St n} {succs : List (Fin n)}
    (hI : Behind hook code site seen st) (hv : visit hook code site.block st b = .ok (st', succs)) :
    fresh seen succs =
        fresh seen (edges hook code (branchSuccessors code) site b) ∧
      Behind hook code site
        (seen ++ fresh seen (edges hook code (branchSuccessors code) site b)) st' := by
  obtain ⟨hseen, hBI⟩ := hI
  have hseen' := fun x hx => List.mem_append_left
    (fresh seen (edges hook code (branchSuccessors code) site b)) (hseen x hx)
  by_cases hb : b = site.block
  · subst hb
    obtain ⟨⟨b, i⟩, removed⟩ := st
    by_cases hblock : b = site.block
    · -- the iterator stands at the end of the block, and cannot be moved on
      subst hblock
      have hlen : (code site.block).body.length < i := hBI.resolve_left (not_not_intro rfl)
      rw [visit, if_neg (not_not_intro rfl), if_pos hlen] at hv
      exact absurd hv nofun
    · rw [visit_again hblock] at hv
      split_ifs at hv
      cases hv
      exact ⟨(fresh_eq_nil hseen).symm ▸ rfl, hseen', .inl hblock⟩
  · rw [visit_of_ne hb, ← edges_of_ne hb] at hv
    by_cases hnull : derefsNull hook code b 0 = true
    · rw [if_pos hnull] at hv
      exact absurd hv nofun
    · rw [if_neg hnull] at hv
      cases hv
      exact ⟨rfl, hseen', .inl hb⟩

/-- The visits of blocks other than that of the call. -/
theorem visitAll_of_not_mem {l : List (Fin n)} (hl : parent ∉ l) (st : St n) :
    visitAll (visit hook code parent) l st =
      if l.any (derefsNull hook code · 0) then .error .undefinedBehaviour
      else .ok ⟨l.foldl (fun _ b => leaves hook code b 0) st.BI,
        st.instsToRemove ++ l.flatMap (part hook code · 0)⟩ := by
  induction l generalizing st with
  | nil => simp [visitAll]
  | cons b l ih =>
    rw [List.mem_cons, not_or] at hl
    rw [visitAll, visit_of_ne (Ne.symm hl.1), List.any_cons]
    cases hnull : derefsNull hook code b 0 with
    | true => simp
    | false =>
      simp only [Bool.false_eq_true, if_false, Bool.false_or]
      rw [ih hl.2, List.foldl_cons, List.flatMap_cons, List.append_assoc]

/-- The blocks in the order of the search. -/
abbrev bfs (hook : Option Callee) (code : Code n) (site : Pos n) : Option (List (Fin n)) :=
  order (edges hook code (branchSuccessors code) site) (n + 1) [site.block] []

variable (hsite : site.idx < (code site.block).body.length)
include hsite

/-- The first visit of the block of the call. -/
theorem visit_first :
    visit hook code site.block ⟨site, []⟩ site.block =
      if derefsNull hook code site.block (site.idx + 1) then .error .undefinedBehaviour
      else .ok (⟨leaves hook code site.block (site.idx + 1),
        part hook code site.block (site.idx + 1)⟩,
        edges hook code (branchSuccessors code) site site.block) := by
  rw [visit, if_neg (not_not_intro rfl), if_neg (Nat.not_lt.mpr (Nat.le_of_lt hsite)),
    scanFrom_eq, edges, entry, if_pos rfl]
  simp

/-- **The search is a loop over the blocks in breadth-first order.** -/
theorem removeCheckpointing_eq {new : List (Fin n)}
    (horder : bfs hook code site = some (site.block :: new)) :
    removeCheckpointing hook code site =
      if derefsNull hook code site.block (site.idx + 1) then .error .undefinedBehaviour
      else (visitAll (visit hook code site.block) new
        ⟨leaves hook code site.block (site.idx + 1),
          part hook code site.block (site.idx + 1)⟩).map St.instsToRemove := by
  rw [removeCheckpointing, run, visit_first hsite]
  by_cases hnull : derefsNull hook code site.block (site.idx + 1) = true
  · rw [if_pos hnull, if_pos hnull]
    rfl
  · rw [if_neg hnull, if_neg hnull]
    obtain ⟨l, hl, hcons⟩ := Option.map_eq_some_iff.mp horder
    obtain rfl : l = new := List.tail_eq_of_cons_eq hcons
    simp only [List.nil_append] at hl ⊢
    by_cases hexits : exits hook code site.block (site.idx + 1) = true
    · rw [run_eq_visitAll (fun _ _ _ _ _ => visit_fresh) ?_ hl]
      refine ⟨fun x hx => mem_fresh.mpr ⟨hx, List.not_mem_nil⟩, .inr ?_⟩
      rw [leaves, if_pos hexits]
      exact Nat.lt_succ_self _
    · -- the search ends in the block of the call
      have hedges : edges hook code (branchSuccessors code) site site.block = [] := by
        rw [edges, entry, if_pos rfl, if_neg hexits]
      rw [hedges] at hl ⊢
      cases n with
      | zero => exact site.block.elim0
      | succ n =>
        obtain rfl := Option.some.inj hl
        rfl

/-- The search of a graph in which no edge leads back to the block of the call. -/
theorem removeCheckpointing_of_not_mem {new : List (Fin n)}
    (horder : bfs hook code site = some (site.block :: new)) (hnew : site.block ∉ new) :
    removeCheckpointing hook code site =
      if derefsNull hook code site.block (site.idx + 1) = true ∨
          new.any (derefsNull hook code · 0) = true then .error .undefinedBehaviour
      else .ok (part hook code site.block (site.idx + 1) ++
        new.flatMap (part hook code · 0)) := by
  rw [removeCheckpointing_eq hsite horder, visitAll_of_not_mem hnew]
  cases derefsNull hook code site.block (site.idx + 1) <;>
    cases new.any (derefsNull hook code · 0) <;> simp [Except.map]

/-- The iterator cannot be moved on behind the terminator of the call's own block. -/
theorem removeCheckpointing_self_loop {r : List (Fin n)}
    (horder : bfs hook code site = some (site.block :: site.block :: r)) :
    removeCheckpointing hook code site = .error .undefinedBehaviour := by
  rw [removeCheckpointing_eq hsite horder]
  have hexits : exits hook code site.block (site.idx + 1) = true := by
    by_contra hstop
    -- without an edge the order would end at the block of the call
    obtain ⟨l, hl, hcons⟩ := Option.map_eq_some_iff.mp horder
    rw [edges, entry, if_pos rfl, if_neg hstop] at hl
    cases n with
    | zero => exact site.block.elim0
    | succ n =>
      obtain rfl := Option.some.inj hl
      exact absurd hcons (by simp)
  have hvisit : visit hook code site.block
      ⟨leaves hook code site.block (site.idx + 1),
        part hook code site.block (site.idx + 1)⟩ site.block =
      .error .undefinedBehaviour := by
    rw [visit, if_neg (not_not_intro rfl), leaves, if_pos hexits, if_pos (Nat.lt_succ_self _)]
  rw [visitAll, hvisit]
  split_ifs <;> rfl

/-- The search of a graph in which an edge leads back to the block of the call; `b` is the block
    that is searched just before. -/
theorem removeCheckpointing_back {l r : List (Fin n)}
    (horder : bfs hook code site = some (site.block :: (l ++ [b] ++ site.block :: r)))
    (hl : site.block ∉ l ++ [b]) (hr : site.block ∉ r) :
    removeCheckpointing hook code site =
      if derefsNull hook code site.block (site.idx + 1) = true ∨
          (l ++ [b] ++ r).any (derefsNull hook code · 0) = true ∨
          exits hook code b 0 = true ∨
          derefsNull hook code b (reach hook code b 0 + 1) = true ∨
          exits hook code b (reach hook code b 0 + 1) = true then
        .error .undefinedBehaviour
      else .ok (part hook code site.block (site.idx + 1) ++
        (l ++ [b]).flatMap (part hook code · 0) ++
        part hook code b (reach hook code b 0 + 1) ++
        r.flatMap (part hook code · 0)) := by
  have hb : b ≠ site.block := fun h => hl (by simp [h])
  have hany : (l ++ [b] ++ r).any (derefsNull hook code · 0) =
      ((l ++ [b]).any (derefsNull hook code · 0) ||
        r.any (derefsNull hook code · 0)) := List.any_append
  rw [removeCheckpointing_eq hsite horder, visitAll_append, visitAll_of_not_mem hl, hany]
  cases derefsNull hook code site.block (site.idx + 1) with
  | true => simp
  | false =>
    cases (l ++ [b]).any (derefsNull hook code · 0) with
    | true => simp only [Bool.true_or, true_or, or_true, if_true, Except.bind, Except.map,
        Bool.false_eq_true, if_false]
    | false =>
      -- the iterator was left in `b`
      simp only [Bool.false_eq_true, if_false, Except.bind, List.foldl_append, List.foldl_cons,
        List.foldl_nil, visitAll, false_or, Bool.false_or]
      rw [leaves, visit_again hb]
      cases hexits : exits hook code b 0 with
      | true => simp [Except.map]
      | false =>
        have hlen : ¬ (code b).body.length < reach hook code b 0 :=
          Nat.not_lt.mpr (reach_le hook code (Nat.zero_le _))
        simp only [Bool.false_eq_true, if_false, false_or, hlen]
        by_cases hstop : derefsNull hook code b
            (reach hook code b 0 + 1) = true ∨
            exits hook code b (reach hook code b 0 + 1) = true
        · rw [if_pos hstop, if_pos (.inr hstop)]
          rfl
        · simp only [if_neg hstop, visitAll_of_not_mem hr, or_iff_left hstop]
          cases r.any (derefsNull hook code · 0) <;> simp [Except.map]

end Search

/-! ### When the search is exact -/

/-- Behind the first sentinel comes a second one, with neither `ltckpt_` nor indirect calls in
    between. -/
def Resumable (hook : Option Callee) (insts : List Inst) : Prop :=
  ∃ before first between second after,
    insts = before ++ first :: (between ++ second :: after) ∧
    (∀ inst ∈ before, inst.isSentinel hook = false) ∧
    first.isSentinel hook = true ∧ second.isSentinel hook = true ∧
    ∀ inst ∈ between, inst.isSentinel hook = false ∧ inst.isCkpt = false ∧
      inst.isIndirect = false

/-- No instruction that is met, on paths over branches, is an indirect call.  In the block of the
    library call only what is behind it is met. -/
def NoneIndirect (hook : Option Callee) {n : ℕ} (code : Code n) (site : Pos n) : Prop :=
  ∀ pos inst, OnPath hook code (branchSuccessors code) site pos →
    (pos.block = site.block → site.idx < pos.idx) →
    (code pos.block).body[pos.idx]? = some inst → inst.isIndirect = false

/-- **The condition**: no indirect call is met; `ltckpt_` calls are got to over branches; and where
    branches lead back to the block of the call, the block searched just before can be resumed, and
    no `ltckpt_` call stands in front of the library call. -/
structure Searchable (hook : Option Callee) {n : ℕ} (code : Code n) (site : Pos n) :
    Prop where
  direct : NoneIndirect hook code site
  branches : ∀ pos, OnPath hook code (successors code) site pos →
    IsCkptAt hook code pos →
    OnPath hook code (branchSuccessors code) site pos
  back : ∀ l r, bfs hook code site = some (site.block :: (l ++ site.block :: r)) →
    (∃ b, l.getLast? = some b ∧ Resumable hook (code b).body) ∧
    ∀ pos, OnPath hook code (branchSuccessors code) site pos →
      IsCkptAt hook code pos → pos.block = site.block → site.idx < pos.idx

section Scans

variable {hook : Option Callee} {n : ℕ} {code : Code n}

theorem clearPart_append {before after : List Inst} {sentinel : Inst}
    (hbefore : ∀ inst ∈ before, inst.isSentinel hook = false)
    (hsentinel : sentinel.isSentinel hook = true) :
    clearPart hook (before ++ sentinel :: after) = before := by
  rw [clearPart, List.takeWhile_append_of_pos (by simpa using hbefore),
    List.takeWhile_cons_of_neg (by simp [hsentinel]), List.append_nil]

/-- Instructions with a sentinel, split at the first one. -/
theorem eq_clearPart_append {insts : List Inst} (h : insts.any (Inst.isSentinel hook) = true) :
    ∃ sentinel after, insts = clearPart hook insts ++ sentinel :: after ∧
      sentinel.isSentinel hook = true := by
  induction insts with
  | nil => exact absurd h Bool.false_ne_true
  | cons inst insts ih =>
    cases hinst : inst.isSentinel hook with
    | true =>
      rw [clearPart, List.takeWhile_cons_of_neg (by simp [hinst])]
      exact ⟨inst, insts, rfl, hinst⟩
    | false =>
      rw [clearPart, List.takeWhile_cons_of_pos (by simp [hinst])]
      rw [List.any_cons, hinst, Bool.false_or] at h
      obtain ⟨sentinel, after, heq, hsentinel⟩ := ih h
      exact ⟨sentinel, after, congrArg (inst :: ·) heq, hsentinel⟩

variable {i : ℕ} {b : Fin n}

theorem ckptIdxs_eq_nil {insts : List Inst} :
    ckptIdxs i insts = [] ↔ ∀ inst ∈ insts, inst.isCkpt = false := by
  induction insts generalizing i with
  | nil => simp [ckptIdxs]
  | cons inst insts ih =>
    rw [ckptIdxs, List.forall_mem_cons, ← ih (i := i + 1)]
    cases inst.isCkpt <;> simp

/-- **A block that the iterator goes on in**: the scan from the first sentinel on meets neither
    `ltckpt_` nor indirect calls, and ends at a sentinel. -/
theorem resumable_iff :
    Resumable hook (code b).body ↔
      exits hook code b 0 = false ∧
      derefsNull hook code b (reach hook code b 0 + 1) = false ∧
      exits hook code b (reach hook code b 0 + 1) = false ∧
      part hook code b (reach hook code b 0 + 1) = [] := by
  simp only [exits, derefsNull, part, reach, List.drop_zero, Nat.zero_add, List.map_eq_nil_iff,
    ckptIdxs_eq_nil, Bool.not_eq_false', List.any_eq_false, Bool.not_eq_true]
  constructor
  · rintro ⟨before, first, between, second, after, hbody, hbefore, hfirst, hsecond, hbetween⟩
    have hclear : clearPart hook (code b).body = before := by
      rw [hbody, clearPart_append hbefore hfirst]
    have hdrop : (code b).body.drop (before.length + 1) = between ++ second :: after := by
      rw [hbody, List.append_cons, List.drop_left' (by simp)]
    rw [hclear, hdrop, clearPart_append (fun inst h => (hbetween inst h).1) hsecond]
    refine ⟨?_, fun inst h => (hbetween inst h).2.2, ?_, fun inst h => (hbetween inst h).2.1⟩
    · rw [hbody]
      simp [hfirst]
    · simp [hsecond]
  · rintro ⟨hexits, hnull, hstop, hpart⟩
    obtain ⟨first, rest, hbody, hfirst⟩ := eq_clearPart_append hexits
    have hdrop : (code b).body.drop ((clearPart hook (code b).body).length + 1) =
        rest := by
      generalize clearPart hook (code b).body = before at hbody
      rw [hbody, List.append_cons, List.drop_left' (by simp)]
    rw [hdrop] at hnull hstop hpart
    obtain ⟨second, after, hrest, hsecond⟩ := eq_clearPart_append hstop
    refine ⟨clearPart hook (code b).body, first, clearPart hook rest, second,
      after, ?_, ?_, hfirst, hsecond, ?_⟩
    · rw [← hrest]
      exact hbody
    · exact fun inst h => by simpa using List.mem_takeWhile_imp h
    · exact fun inst h => ⟨by simpa using List.mem_takeWhile_imp h, hpart inst h, hnull inst h⟩

/-- A scan that starts later, but in front of a sentinel, gets as far. -/
theorem le_reach_of_le {i' j : ℕ} (hi : i' ≤ i) (hj : j ≤ reach hook code b i') :
    j ≤ reach hook code b i := by
  by_contra hlt
  have hle : i ≤ reach hook code b i := Nat.le_add_right _ _
  obtain ⟨inst, hinst, hclear, -⟩ := clear_of_lt_reach hook code (b := b) (i := i')
    (j := reach hook code b i) (by omega) (by omega)
  exact absurd (isSentinel_reach hook code hinst) (by simp [hclear])

/-- An indirect call is not a sentinel. -/
theorem Inst.isIndirect_of_isSentinel {inst : Inst}
    (h : inst.isSentinel hook = true) : inst.isIndirect = false := by
  cases inst with
  | other => rfl
  | call callee =>
    cases callee with
    | some F => rfl
    | none => exact absurd h (by cases hook <;> exact Bool.false_ne_true)

/-- A scan that reads no indirect call. -/
theorem derefsNull_eq_false :
    derefsNull hook code b i = false ↔
      ∀ j inst, i ≤ j → j ≤ reach hook code b i → (code b).body[j]? = some inst →
        inst.isIndirect = false := by
  rw [derefsNull, List.any_eq_false]
  constructor
  · intro h j inst hij hj hinst
    rcases Nat.lt_or_eq_of_le hj with hlt | rfl
    · obtain ⟨inst', hinst', -, hclear⟩ := clear_of_lt_reach hook code hij hlt
      obtain rfl := Option.some.inj (hinst.symm.trans hinst')
      exact Bool.not_eq_true _ ▸ h inst (List.mem_of_getElem? hclear)
    · exact Inst.isIndirect_of_isSentinel (isSentinel_reach hook code hinst)
  · intro h inst hmem
    obtain ⟨m, hm⟩ := List.getElem?_of_mem hmem
    obtain ⟨hlt, -⟩ := List.getElem?_eq_some_iff.mp hm
    obtain ⟨hinst, -⟩ := drop_clear hook hm
    rw [List.getElem?_drop] at hinst
    simp [h (i + m) inst (Nat.le_add_right _ _) (by rw [reach]; omega) hinst]

end Scans

section Exact

variable {hook : Option Callee} {n : ℕ} {code : Code n} {site : Pos n}

/-- More edges give more paths. -/
theorem OnPath.mono {succ succ' : Fin n → List (Fin n)} (hsucc : ∀ b, succ b ⊆ succ' b)
    {pos : Pos n} (h : OnPath hook code succ site pos) : OnPath hook code succ' site pos := by
  induction h with
  | first => exact .first
  | next _ hinst hclear ih => exact ih.next hinst hclear
  | jump _ hs ih => exact ih.jump (hsucc _ hs)

theorem branchSuccessors_subset (b : Fin n) : branchSuccessors code b ⊆ successors code b := by
  rw [branchSuccessors, successors]
  cases (code b).term with
  | br successors => exact List.Subset.refl successors
  | other successors => exact List.nil_subset successors

variable {l others : List (Fin n)}

theorem mem_flatMap_part {pos : Pos n} :
    pos ∈ l.flatMap (part hook code · 0) ↔ pos.block ∈ l ∧ pos ∈ part hook code pos.block 0 := by
  rw [List.mem_flatMap]
  constructor
  · rintro ⟨b, hb, hpos⟩
    obtain rfl := ((mem_part hook code).mp hpos).1
    exact ⟨hb, hpos⟩
  · exact fun h => ⟨pos.block, h⟩

theorem nodup_flatMap_part (h : l.Nodup) : (l.flatMap (part hook code · 0)).Nodup := by
  refine List.nodup_flatMap.mpr ⟨fun b _ => nodup_part hook code b 0, h.imp ?_⟩
  intro a b hab pos ha hb
  exact hab (((mem_part hook code).mp ha).1.symm.trans
    ((mem_part hook code).mp hb).1)

theorem nodup_parts (hnodup : others.Nodup) (hothers : site.block ∉ others) :
    (part hook code site.block (site.idx + 1) ++ others.flatMap (part hook code · 0)).Nodup := by
  refine List.nodup_append.mpr ⟨nodup_part hook code _ _, nodup_flatMap_part hnodup, ?_⟩
  rintro pos hpos _ hmem rfl
  exact hothers (((mem_part hook code).mp hpos).1 ▸ (mem_flatMap_part.mp hmem).1)

theorem removesExactly_iff_of_eq {c : Prop} [Decidable c] {removed : List (Pos n)}
    (h : removeCheckpointing hook code site =
      if c then .error .undefinedBehaviour else .ok removed) :
    RemovesExactly hook code site ↔ ¬ c ∧ removed.Nodup ∧ ∀ pos, pos ∈ removed ↔
      OnPath hook code (successors code) site pos ∧
        IsCkptAt hook code pos := by
  rw [RemovesExactly, h]
  by_cases hc : c
  · simp [hc]
  · simp [hc]

theorem exists_order (hook : Option Callee) (code : Code n) (site : Pos n) :
    ∃ new, bfs hook code site = some (site.block :: new) ∧ new.Nodup ∧
      ∀ b, b ∈ new ↔ Entered hook code (branchSuccessors code) site b := by
  have hsome : (bfs hook code site).isSome :=
    order_isSome _ List.nodup_nil (by simp [Nat.add_comm])
  obtain ⟨l, hl⟩ := Option.isSome_iff_exists.mp hsome
  obtain ⟨new, rfl, hnodup, hnew⟩ := order_start hl
  exact ⟨new, hl, hnodup, hnew⟩

/-- The visits fail on undefined behaviour only. -/
theorem visitAll_error {parent : Fin n} {st : St n} {e : Fault}
    (h : visitAll (visit hook code parent) l st = .error e) : e = .undefinedBehaviour := by
  induction l generalizing st with
  | nil => exact absurd h nofun
  | cons b l ih =>
    have hvisit : ∀ e, visit hook code parent st b = .error e →
        e = .undefinedBehaviour := by
      intro e he
      rw [visit] at he
      split_ifs at he with hb hlen
      · rw [scanFrom_eq] at he
        split_ifs at he
        exact (Except.error.inj he).symm
      · exact (Except.error.inj he).symm
      · rw [scanFrom_eq] at he
        split_ifs at he
        exact (Except.error.inj he).symm
    rw [visitAll] at h
    cases hv : visit hook code parent st b with
    | error e' =>
      rw [hv] at h
      exact Except.error.inj h ▸ hvisit e' hv
    | ok r =>
      rw [hv] at h
      exact ih h

/-- A list without repetitions is split at one of its elements in one way. -/
theorem eq_of_append_cons_eq {α : Type} {l r l' r' : List α} {b : α}
    (hnodup : (l ++ b :: r).Nodup) (heq : l' ++ b :: r' = l ++ b :: r) : l' = l := by
  rw [← heq] at hnodup
  have hmiddle := (List.nodup_cons.mp (List.nodup_middle.mp hnodup)).1
  exact ((List.append_cons_inj_of_notMem (fun h => hmiddle (List.mem_append_left r' h))
    (fun h => hmiddle (List.mem_append_right l' h))).mp heq).1

variable (hsite : site.idx < (code site.block).body.length)
include hsite

/-- The instructions that the scans read. -/
theorem direct_iff :
    NoneIndirect hook code site ↔
    derefsNull hook code site.block (site.idx + 1) = false ∧
    ∀ b, Entered hook code (branchSuccessors code) site b → b ≠ site.block →
      derefsNull hook code b 0 = false := by
  constructor
  · intro h
    refine ⟨derefsNull_eq_false.mpr fun j inst hij hj => ?_, fun b hentered hb => ?_⟩
    · exact h ⟨site.block, j⟩ inst ((onPath_iff hsite).mpr (.inl ⟨rfl, hij, hj⟩)) fun _ => hij
    · refine derefsNull_eq_false.mpr fun j inst _ hj => ?_
      exact h ⟨b, j⟩ inst ((onPath_iff hsite).mpr (.inr ⟨hentered, hj⟩)) fun heq => absurd heq hb
  · rintro ⟨hfirst, hothers⟩ ⟨b, j⟩ inst hpath hidx hinst
    by_cases hb : b = site.block
    · subst hb
      refine derefsNull_eq_false.mp hfirst j inst (hidx rfl) ?_ hinst
      rcases (onPath_iff hsite).mp hpath with ⟨-, -, hj⟩ | ⟨-, hj⟩
      · exact hj
      · exact le_reach_of_le (Nat.zero_le _) hj
    · rcases (onPath_iff hsite).mp hpath with ⟨heq, -⟩ | ⟨hentered, hj⟩
      · exact absurd heq hb
      · exact derefsNull_eq_false.mp (hothers b hentered hb) j inst (Nat.zero_le _) hj hinst

section Others

variable (hothers : ∀ b, b ∈ others ↔
  Entered hook code (branchSuccessors code) site b ∧ b ≠ site.block)
include hothers

/-- **What the scans of the blocks delete**: the `ltckpt_` calls on paths over branches, except for
    those in front of the library call. -/
theorem mem_parts {pos : Pos n} :
    pos ∈ part hook code site.block (site.idx + 1) ++
        others.flatMap (part hook code · 0) ↔
      (OnPath hook code (branchSuccessors code) site pos ∧
        IsCkptAt hook code pos) ∧ (pos.block = site.block → site.idx < pos.idx) := by
  rw [List.mem_append, mem_flatMap_part, onPath_ckpt_iff hsite, hothers]
  constructor
  · rintro (hpart | ⟨⟨hentered, hne⟩, hpart⟩)
    · exact ⟨.inl hpart, fun _ => ((mem_part hook code).mp hpart).2.1⟩
    · exact ⟨.inr ⟨hentered, hpart⟩, fun heq => absurd heq hne⟩
  · rintro ⟨hpart | ⟨hentered, hpart⟩, hidx⟩
    · exact .inl hpart
    · by_cases hb : pos.block = site.block
      · obtain ⟨-, -, hlt, hckpt⟩ := (mem_part hook code).mp hpart
        refine .inl ((mem_part hook code).mpr ⟨hb, hidx hb, ?_, hckpt⟩)
        exact hb ▸ le_reach_of_le (Nat.zero_le _) hlt
      · exact .inr ⟨⟨hentered, hb⟩, hpart⟩

/-- The scans delete exactly the `ltckpt_` calls on paths if these are got to over branches, and
    none stands in front of the library call. -/
theorem parts_exact_iff :
    (∀ pos, pos ∈ part hook code site.block (site.idx + 1) ++
        others.flatMap (part hook code · 0) ↔
      OnPath hook code (successors code) site pos ∧
        IsCkptAt hook code pos) ↔
    (∀ pos, OnPath hook code (successors code) site pos →
      IsCkptAt hook code pos →
      OnPath hook code (branchSuccessors code) site pos) ∧
    ∀ pos, OnPath hook code (branchSuccessors code) site pos →
      IsCkptAt hook code pos → pos.block = site.block → site.idx < pos.idx := by
  simp only [mem_parts hsite hothers]
  constructor
  · intro h
    refine ⟨fun pos hpath hckpt => ((h pos).mpr ⟨hpath, hckpt⟩).1.1, fun pos hpath hckpt => ?_⟩
    exact ((h pos).mpr ⟨hpath.mono branchSuccessors_subset, hckpt⟩).2
  · rintro ⟨hbranches, hahead⟩ pos
    constructor
    · exact fun h => ⟨h.1.1.mono branchSuccessors_subset, h.1.2⟩
    · exact fun h => ⟨⟨hbranches pos h.1 h.2, h.2⟩, hahead pos (hbranches pos h.1 h.2) h.2⟩

/-- The instructions that the scans read, with the other blocks in a list. -/
theorem direct_iff_any :
    NoneIndirect hook code site ↔
    derefsNull hook code site.block (site.idx + 1) = false ∧
      others.any (derefsNull hook code · 0) = false := by
  simp only [direct_iff hsite, List.any_eq_false, hothers, and_imp, Bool.not_eq_true]

end Others

/-- **The search ends**: `n + 1` passes of the outer loop are enough for every graph. -/
theorem removeCheckpointing_ends :
    removeCheckpointing hook code site ≠ .error .outOfFuel := by
  obtain ⟨new, horder, -, -⟩ := exists_order hook code site
  rw [removeCheckpointing_eq hsite horder]
  split_ifs
  · exact nofun
  · intro h
    cases hvisits : visitAll (visit hook code site.block) new
        ⟨leaves hook code site.block (site.idx + 1),
          part hook code site.block (site.idx + 1)⟩ with
    | error e =>
      rw [hvisits, visitAll_error hvisits] at h
      exact absurd h nofun
    | ok st =>
      rw [hvisits] at h
      exact absurd h nofun

/-- The graphs in which no edge leads back to the block of the call. -/
theorem removesExactly_once {new : List (Fin n)}
    (horder : bfs hook code site = some (site.block :: new)) (hnodup : new.Nodup)
    (hnew : ∀ b, b ∈ new ↔ Entered hook code (branchSuccessors code) site b)
    (hback : site.block ∉ new) : RemovesExactly hook code site ↔ Searchable hook code site := by
  have hothers : ∀ b, b ∈ new ↔
      Entered hook code (branchSuccessors code) site b ∧ b ≠ site.block := fun b =>
    ⟨fun hb => ⟨(hnew b).mp hb, fun heq => hback (heq ▸ hb)⟩, fun hb => (hnew b).mpr hb.1⟩
  -- a path gets to the block of the call behind the library call only
  have hahead : ∀ pos, OnPath hook code (branchSuccessors code) site pos →
      pos.block = site.block → site.idx < pos.idx := by
    intro pos hpath hb
    rcases (onPath_iff hsite).mp hpath with ⟨-, hlt, -⟩ | ⟨hentered, -⟩
    · exact hlt
    · exact absurd ((hnew _).mpr (hb ▸ hentered)) hback
  rw [removesExactly_iff_of_eq (removeCheckpointing_of_not_mem hsite horder hback), not_or,
    Bool.not_eq_true, Bool.not_eq_true, ← direct_iff_any hsite hothers,
    parts_exact_iff hsite hothers]
  constructor
  · rintro ⟨hdirect, -, hbranches, -⟩
    refine ⟨hdirect, hbranches, fun l r hl => absurd ?_ hback⟩
    rw [List.tail_eq_of_cons_eq (Option.some.inj (horder.symm.trans hl))]
    simp
  · rintro ⟨hdirect, hbranches, -⟩
    exact ⟨hdirect, nodup_parts hnodup hback, hbranches, fun pos hpath _ => hahead pos hpath⟩

/-- What is met between the two sentinels of a block is on no path. -/
theorem resumed_eq_nil {b : Fin n}
    (hb : b ≠ site.block) (h : ∀ pos ∈ part hook code b (reach hook code b 0 + 1),
      OnPath hook code (successors code) site pos) :
    part hook code b (reach hook code b 0 + 1) = [] := by
  refine List.eq_nil_iff_forall_not_mem.mpr fun pos hpos => ?_
  obtain ⟨rfl, hlt, -⟩ := (mem_part hook code).mp hpos
  rcases (onPath_iff hsite).mp (h pos hpos) with ⟨heq, -⟩ | ⟨-, hle⟩
  · exact hb heq
  · omega

/-- The graphs in which an edge leads back to the block of the call. -/
theorem removesExactly_back {r : List (Fin n)}
    (horder : bfs hook code site = some (site.block :: (l ++ site.block :: r)))
    (hnodup : (l ++ site.block :: r).Nodup) (hnew : ∀ b, b ∈ l ++ site.block :: r ↔
      Entered hook code (branchSuccessors code) site b) :
    RemovesExactly hook code site ↔ Searchable hook code site := by
  obtain ⟨hblock, hnodup'⟩ := List.nodup_cons.mp (List.nodup_middle.mp hnodup)
  rcases List.eq_nil_or_concat' l with rfl | ⟨l, b, rfl⟩
  · -- the terminator of the call's own block leads straight back
    constructor
    · rintro ⟨removed, hremoved, -⟩
      rw [removeCheckpointing_self_loop hsite horder] at hremoved
      exact absurd hremoved nofun
    · intro h
      obtain ⟨⟨b, hb, -⟩, -⟩ := h.back [] r horder
      exact absurd hb nofun
  have hl : site.block ∉ l ++ [b] := fun h => hblock (List.mem_append_left r h)
  have hr : site.block ∉ r := fun h => hblock (List.mem_append_right (l ++ [b]) h)
  have hb : b ≠ site.block := fun h => hl (by simp [h])
  have hothers : ∀ x, x ∈ l ++ [b] ++ r ↔
      Entered hook code (branchSuccessors code) site x ∧ x ≠ site.block := by
    intro x
    rw [← hnew, List.mem_append (s := l ++ [b]), List.mem_append (s := l ++ [b]), List.mem_cons]
    refine ⟨fun h => ⟨h.imp_right .inr, ?_⟩, fun h => h.1.imp_right fun hx => hx.resolve_left h.2⟩
    rintro rfl
    exact hblock (List.mem_append.mpr h)
  have hparts : part hook code b (reach hook code b 0 + 1) = [] →
      part hook code site.block (site.idx + 1) ++
        (l ++ [b]).flatMap (part hook code · 0) ++
        part hook code b (reach hook code b 0 + 1) ++
        r.flatMap (part hook code · 0) =
      part hook code site.block (site.idx + 1) ++
        (l ++ [b] ++ r).flatMap (part hook code · 0) := by
    intro hnil
    simp only [hnil, List.append_nil, List.flatMap_append, List.append_assoc]
  rw [removesExactly_iff_of_eq (removeCheckpointing_back hsite horder hl hr)]
  simp only [not_or, Bool.not_eq_true]
  constructor
  · rintro ⟨⟨hfirst, hnull, hexits, hresumed, hstops⟩, -, hmem⟩
    have hnil := resumed_eq_nil hsite hb fun pos hpos => ((hmem pos).mp (by simp [hpos])).1
    rw [hparts hnil, parts_exact_iff hsite hothers] at hmem
    refine ⟨(direct_iff_any hsite hothers).mpr ⟨hfirst, hnull⟩, hmem.1, fun l' r' hl' =>
      ⟨⟨b, ?_, resumable_iff.mpr ⟨hexits, hresumed, hstops, hnil⟩⟩, hmem.2⟩⟩
    -- the block of the call comes once, so the order is split in one way
    have heq := List.tail_eq_of_cons_eq (Option.some.inj (hl'.symm.trans horder))
    rw [eq_of_append_cons_eq hnodup heq]
    simp
  · rintro ⟨hdirect, hbranches, hback⟩
    obtain ⟨⟨b', hlast, hresumable⟩, hahead⟩ := hback _ r horder
    obtain rfl : b = b' := by simpa using hlast
    obtain ⟨hfirst, hnull⟩ := (direct_iff_any hsite hothers).mp hdirect
    obtain ⟨hexits, hresumed, hstops, hnil⟩ := resumable_iff.mp hresumable
    rw [hparts hnil, parts_exact_iff hsite hothers]
    exact ⟨⟨hfirst, hnull, hexits, hresumed, hstops⟩, nodup_parts hnodup' hblock, hbranches,
      hahead⟩

end Exact

/-- **When `removeCheckpointing` is exact**: it deletes just the `ltckpt_` calls that it is for if
    and only if the search meets the condition. -/
theorem removes_exactly_iff (hook : Option Callee) {n : ℕ} (code : Code n)
    (libCallInst : Pos n) (hcall : libCallInst.idx < (code libCallInst.block).body.length) :
    RemovesExactly hook code libCallInst ↔
      Searchable hook code libCallInst := by
  obtain ⟨new, horder, hnodup, hnew⟩ := exists_order hook code libCallInst
  by_cases hback : libCallInst.block ∈ new
  · obtain ⟨l, r, rfl⟩ := List.append_of_mem hback
    exact removesExactly_back hcall horder hnodup hnew
  · exact removesExactly_once hcall horder hnodup hnew hback

/-! ### A branch and a loop -/

/-- A call of a library function. -/
def recvCall : Inst := .call (some ⟨"recv", false, true⟩)

/-- A call of a store hook that is linked in. -/
def storeCall : Inst := .call (some ⟨"ltckpt_store_hook", false, false⟩)

/-- A library call, and two ways to the next one, each with a store. -/
def branchCode : Code 3
  | 0 => ⟨[recvCall, storeCall], .br [1, 2]⟩
  | 1 => ⟨[storeCall, recvCall], .other []⟩
  | 2 => ⟨[storeCall], .br [1]⟩

/-- A store and a library call in a loop, and two library calls behind it. -/
def loopCode : Code 2
  | 0 => ⟨[storeCall, recvCall], .br [1, 0]⟩
  | 1 => ⟨[recvCall, recvCall], .other []⟩

/-- The search ends in a loop. -/
theorem removeCheckpointing_ends_loop :
    removeCheckpointing none loopCode ⟨0, 1⟩ ≠ .error .outOfFuel :=
  removeCheckpointing_ends (by decide)

/-- The search of `branchCode` deletes the three stores in front of the next library call. -/
theorem removes_exactly_iff_branch : RemovesExactly none branchCode ⟨0, 0⟩ := by
  have hdirect : ∀ b, ∀ inst ∈ (branchCode b).body, inst.isIndirect = false := by decide
  have hsucc : branchSuccessors branchCode = successors branchCode := by
    funext b
    revert b
    decide
  have horder : order (edges none branchCode (branchSuccessors branchCode) ⟨0, 0⟩) 4 [0] [] =
      some [0, 1, 2] := by decide
  refine (removes_exactly_iff none branchCode ⟨0, 0⟩ (by decide)).mpr ⟨?_, ?_, ?_⟩
  · exact fun pos inst _ _ hinst => hdirect pos.block inst (List.mem_of_getElem? hinst)
  · exact fun pos hpath _ => hsucc ▸ hpath
  · intro l r hback
    have hnew := List.tail_eq_of_cons_eq (Option.some.inj (horder.symm.trans hback))
    have hmem : (0 : Fin 3) ∈ [1, 2] := hnew ▸ by simp
    exact absurd hmem (by decide)

/-- In `loopCode` the branch leads back to the store, but the search goes on in the block behind
    the loop instead, and deletes nothing. -/
theorem loop_keeps_store : ¬ RemovesExactly none loopCode ⟨0, 1⟩ := by
  rintro ⟨removed, hremoved, -, hmem⟩
  have hnil : removeCheckpointing none loopCode ⟨0, 1⟩ = .ok [] := rfl
  obtain rfl := Except.ok.inj (hnil.symm.trans hremoved)
  refine List.not_mem_nil ((hmem ⟨0, 0⟩).mpr ⟨?_, storeCall, rfl, by decide, by decide⟩)
  exact OnPath.first.jump (b := 0) (by decide)

end Firestarter.Hybrid.RemoveCkpt
