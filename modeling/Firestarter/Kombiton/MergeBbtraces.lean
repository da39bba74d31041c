import Mathlib.Data.List.AList
import Mathlib.Data.List.Count
import Mathlib.Data.List.Dedup

namespace Firestarter.Kombiton

/-!
# Merging basic-block traces (`merge_bbtraces.py`)

A trace maps each call site to the list of the blocks that ran after it.  `merge_bbtraces` merges
the traces site by site, and `rm_startup_bbs` takes the blocks out that ran during startup.

* `mergeBbtraces`, `rmStartupBbs`: the two functions;
* `lookup_mergeBbtraces`: the list of a site is the first trace's, with the new blocks of the
  others behind it;
* `lookup_rmStartupBbs`: of each startup block one occurrence is taken out;
* `merged_exact_iff`: when exactly the other blocks are left.
-/

/-! ### Loops over keys -/

/-- A loop over distinct keys, each round of which changes the entry of its key only. -/
theorem foldl_keyed {σ κ ν : Type} [DecidableEq κ] (get : σ → κ → ν) (step : σ → κ → σ)
    (f : κ → ν → ν) (hsame : ∀ s k, get (step s k) k = f k (get s k))
    (hother : ∀ s k a, a ≠ k → get (step s k) a = get s a) {ks : List κ} (hks : ks.Nodup) (s : σ)
    (a : κ) : get (ks.foldl step s) a = if a ∈ ks then f a (get s a) else get s a := by
  induction ks generalizing s with
  | nil => rfl
  | cons k ks ih =>
    obtain ⟨hk, hks⟩ := List.nodup_cons.mp hks
    rw [List.foldl_cons, ih hks]
    by_cases hak : a = k
    · subst hak
      rw [if_neg hk, if_pos List.mem_cons_self, hsame]
    · simp only [hother s k a hak, List.mem_cons, hak, false_or]

/-! ### The source -/

section Source

variable {Site : Type} [DecidableEq Site]

/-- A dictionary from sites to lists of block ids. -/
abbrev Dict (Site : Type) := AList fun _ : Site => List ℤ

/-- **A trace**: its block ids are positive. -/
structure Trace (Site : Type) [DecidableEq Site] where
  blocks : Dict Site
  positive : ∀ site l, blocks.lookup site = some l → ∀ b ∈ l, 0 < b

/-- `for bb in bbt[site]: if not (bb in merged_bbtrace[site]): merged_bbtrace[site].append(bb)` -/
def appendNew (l bbs : List ℤ) : List ℤ := bbs.foldl (fun l bb => if bb ∈ l then l else l ++ [bb]) l

/-- The round of a site of the trace `bbt`. -/
def mergeSite (bbt merged : Dict Site) (site : Site) : Dict Site :=
  match bbt.lookup site with
  | none => merged
  | some bbs =>
    match merged.lookup site with
    | some l => merged.insert site (appendNew l bbs)
    | none => merged.insert site bbs

/-- `merge_bbtraces` -/
def mergeBbtraces (allTraces : List (Trace Site)) : Dict Site :=
  allTraces.foldl (fun merged t => t.blocks.keys.foldl (mergeSite t.blocks) merged) ∅

/-- The globals that `rm_startup_bbs` changes. -/
structure Globals (Site : Type) where
  mergedBbtrace : Dict Site
  numKeysAltered : ℕ
  numEmptyKeys : ℕ

/-- The blocks `rm_bbs` of a list; a set is listed by first occurrences here. -/
def rmBbs (startupBbs bbs : List ℤ) : List ℤ :=
  bbs.dedup.foldl (fun rm t =>
    startupBbs.foldl (fun rm s => if s ≠ 0 ∧ t = s then if s ∈ rm then rm else rm ++ [s] else rm)
      rm) []

/-- The round of a key; `altered` is set when a block is listed for removal. -/
def rmKey (startupBbs : List ℤ) (g : Globals Site) (k : Site) : Globals Site :=
  match g.mergedBbtrace.lookup k with
  | none => g
  | some bbs =>
    let rm := rmBbs startupBbs bbs
    if rm ≠ [] then
      { g with
        mergedBbtrace := g.mergedBbtrace.insert k (rm.foldl List.erase bbs)
        numKeysAltered := g.numKeysAltered + 1 }
    else g

/-- `del merged_bbtrace[e]` -/
def delKey (g : Globals Site) (e : Site) : Globals Site :=
  { g with mergedBbtrace := g.mergedBbtrace.erase e, numEmptyKeys := g.numEmptyKeys + 1 }

/-- `rm_startup_bbs` -/
def rmStartupBbs (startupBbs : List ℤ) (g : Globals Site) : Globals Site :=
  let g := g.mergedBbtrace.keys.foldl (rmKey startupBbs) g
  let emptyKeys := g.mergedBbtrace.keys.filter fun k => g.mergedBbtrace.lookup k = some [0]
  emptyKeys.foldl delKey g

/-- The two functions one after the other, from the globals the script starts with. -/
def run (allTraces : List (Trace Site)) (startupBbs : List ℤ) : Globals Site :=
  rmStartupBbs startupBbs ⟨mergeBbtraces allTraces, 0, 0⟩

end Source

/-! ### Appending what is new -/

theorem appendNew_append (l bs cs : List ℤ) :
    appendNew l (bs ++ cs) = appendNew (appendNew l bs) cs :=
  List.foldl_append

variable {bbs : List ℤ} {b : ℤ}

theorem mem_appendNew {l : List ℤ} : b ∈ appendNew l bbs ↔ b ∈ l ∨ b ∈ bbs := by
  induction bbs generalizing l with
  | nil => simp [appendNew]
  | cons c cs ih =>
    show b ∈ appendNew (if c ∈ l then l else l ++ [c]) cs ↔ _
    rw [ih, List.mem_cons]
    split
    · next hc =>
      constructor
      · exact Or.imp_right .inr
      · rintro (h | rfl | h)
        · exact .inl h
        · exact .inl hc
        · exact .inr h
    · rw [List.mem_append, List.mem_singleton, or_assoc]

/-- No occurrence of a block is added to a list that has it. -/
theorem count_appendNew (l bbs : List ℤ) (b : ℤ) :
    (appendNew l bbs).count b = if b ∈ l then l.count b else if b ∈ bbs then 1 else 0 := by
  induction bbs generalizing l with
  | nil =>
    split
    · rfl
    · next hb => exact List.count_eq_zero_of_not_mem hb
  | cons c cs ih =>
    show (appendNew (if c ∈ l then l else l ++ [c]) cs).count b = _
    rw [ih]
    by_cases hc : c ∈ l
    · have hbc : b = c → b ∈ l := fun h => h ▸ hc
      simp only [hc, if_true, List.mem_cons]
      split
      · rfl
      · next hb => simp only [mt hbc hb, false_or]
    · simp only [hc, if_false, List.mem_append, List.count_append, List.mem_cons]
      by_cases hbc : b = c
      · subst hbc
        simp [hc, List.count_eq_zero_of_not_mem hc]
      · simp [hbc, Ne.symm hbc]

theorem nodup_appendNew_nil (bbs : List ℤ) : (appendNew [] bbs).Nodup := by
  rw [List.nodup_iff_count_le_one]
  intro b
  rw [count_appendNew, if_neg List.not_mem_nil]
  split <;> omega

/-! ### The merged lists -/

section Merge

variable {Site : Type} [DecidableEq Site]

/-- What becomes of a site's list in the round of a trace. -/
def mergeLists : Option (List ℤ) → Option (List ℤ) → Option (List ℤ)
  | none, bbs => bbs
  | some l, none => some l
  | some l, some bbs => some (appendNew l bbs)

variable (bbt : Dict Site)

theorem lookup_mergeSite_self (merged : Dict Site) (site : Site) :
    (mergeSite bbt merged site).lookup site =
      mergeLists (merged.lookup site) (bbt.lookup site) := by
  unfold mergeSite
  cases hb : bbt.lookup site with
  | none => cases merged.lookup site <;> rfl
  | some bbs =>
    cases hm : merged.lookup site with
    | none => exact AList.lookup_insert _
    | some l => exact AList.lookup_insert _

theorem lookup_mergeSite_ne (merged : Dict Site) {site a : Site} (ha : a ≠ site) :
    (mergeSite bbt merged site).lookup a = merged.lookup a := by
  unfold mergeSite
  cases bbt.lookup site with
  | none => rfl
  | some bbs =>
    cases merged.lookup site with
    | none => exact AList.lookup_insert_ne ha
    | some l => exact AList.lookup_insert_ne ha

/-- **One trace.** -/
theorem lookup_mergeTrace (merged : Dict Site) (site : Site) :
    (bbt.keys.foldl (mergeSite bbt) merged).lookup site =
      mergeLists (merged.lookup site) (bbt.lookup site) := by
  rw [foldl_keyed (fun m a => AList.lookup a m) (mergeSite bbt)
    (fun k l => mergeLists l (bbt.lookup k)) (lookup_mergeSite_self bbt)
    (fun m _ _ => lookup_mergeSite_ne bbt m) bbt.keys_nodup]
  split
  · rfl
  · next hsite =>
    have hnone : bbt.lookup site = none := AList.lookup_eq_none.mpr hsite
    rw [hnone]
    cases merged.lookup site <;> rfl

/-- The lists of a site, in the order of the traces. -/
def siteLists (allTraces : List (Trace Site)) (site : Site) : List (List ℤ) :=
  allTraces.filterMap fun t => t.blocks.lookup site

/-- The first list with the new blocks of the others behind it. -/
def mergedOf : List (List ℤ) → Option (List ℤ)
  | [] => none
  | l :: ls => some (appendNew l ls.flatten)

theorem mergedOf_mergeLists (x y : Option (List ℤ)) (ls : List (List ℤ)) :
    mergedOf ((mergeLists x y).toList ++ ls) = mergedOf (x.toList ++ (y.toList ++ ls)) := by
  cases x with
  | none => rfl
  | some l =>
    cases y with
    | none => rfl
    | some bbs => exact congrArg some (appendNew_append l bbs ls.flatten).symm

/-- **All traces**: the list of a site after `merge_bbtraces`. -/
theorem lookup_mergeBbtraces (allTraces : List (Trace Site)) (site : Site) :
    (mergeBbtraces allTraces).lookup site = mergedOf (siteLists allTraces site) := by
  have hrun (merged : Dict Site) :
      (allTraces.foldl (fun merged t => t.blocks.keys.foldl (mergeSite t.blocks) merged)
        merged).lookup site =
        mergedOf ((merged.lookup site).toList ++ siteLists allTraces site) := by
    induction allTraces generalizing merged with
    | nil =>
      rw [List.foldl_nil]
      cases merged.lookup site <;> rfl
    | cons t ts ih =>
      have hlists : siteLists (t :: ts) site =
          (t.blocks.lookup site).toList ++ siteLists ts site := by
        unfold siteLists
        rw [List.filterMap_cons]
        cases t.blocks.lookup site <;> rfl
      rw [List.foldl_cons, ih, lookup_mergeTrace, mergedOf_mergeLists, hlists]
  exact hrun ∅

end Merge

/-! ### Taking the startup blocks out -/

/-- The blocks listed for removal are the startup blocks of the list. -/
theorem rmBbs_eq (startupBbs bbs : List ℤ) :
    rmBbs startupBbs bbs =
      appendNew [] (bbs.dedup.flatMap fun t => startupBbs.filter fun s => s ≠ 0 ∧ t = s) := by
  have hinner (t : ℤ) (rm : List ℤ) :
      startupBbs.foldl
        (fun rm s => if s ≠ 0 ∧ t = s then if s ∈ rm then rm else rm ++ [s] else rm) rm =
        appendNew rm (startupBbs.filter fun s => s ≠ 0 ∧ t = s) := by
    rw [appendNew, List.foldl_filter]
    simp only [decide_eq_true_eq]
  unfold rmBbs
  simp only [hinner]
  rw [appendNew, List.foldl_flatMap]
  rfl

theorem mem_rmBbs {startupBbs : List ℤ} :
    b ∈ rmBbs startupBbs bbs ↔ b ∈ bbs ∧ b ∈ startupBbs ∧ b ≠ 0 := by
  rw [rmBbs_eq, mem_appendNew, List.mem_flatMap]
  simp only [List.not_mem_nil, false_or, List.mem_dedup, List.mem_filter, decide_eq_true_eq]
  constructor
  · rintro ⟨t, ht, hb, hne, rfl⟩
    exact ⟨ht, hb, hne⟩
  · rintro ⟨ht, hb, hne⟩
    exact ⟨b, ht, hb, hne, rfl⟩

/-- **What is left of a list**: the blocks that are not startup blocks, and the startup blocks that
    occur more than once. -/
theorem mem_foldl_erase_rmBbs {startupBbs : List ℤ} (hb0 : b ≠ 0) :
    b ∈ (rmBbs startupBbs bbs).foldl List.erase bbs ↔
      b ∈ bbs ∧ (b ∈ startupBbs → 1 < bbs.count b) := by
  have hnodup : (rmBbs startupBbs bbs).Nodup := by
    rw [rmBbs_eq]
    exact nodup_appendNew_nil _
  rw [← List.diff_eq_foldl, ← List.count_pos_iff, List.count_diff, hnodup.count,
    ← List.count_pos_iff (a := b) (l := bbs)]
  by_cases hrm : b ∈ rmBbs startupBbs bbs
  · have hstart := (mem_rmBbs.mp hrm).2.1
    rw [if_pos hrm]
    exact ⟨fun h => ⟨by omega, fun _ => by omega⟩, fun h => by have := h.2 hstart; omega⟩
  · rw [if_neg hrm]
    refine ⟨fun h => ⟨h, fun hstart => ?_⟩, fun h => h.1⟩
    exact absurd (mem_rmBbs.mpr ⟨List.count_pos_iff.mp h, hstart, hb0⟩) hrm

section Remove

variable {Site : Type} [DecidableEq Site]

variable (startupBbs : List ℤ) (g : Globals Site)

theorem lookup_rmKey_self (k : Site) :
    (rmKey startupBbs g k).mergedBbtrace.lookup k =
      (g.mergedBbtrace.lookup k).map fun bbs => (rmBbs startupBbs bbs).foldl List.erase bbs := by
  unfold rmKey
  cases h : g.mergedBbtrace.lookup k with
  | none => exact h
  | some bbs =>
    by_cases hrm : rmBbs startupBbs bbs = []
    · simp [hrm, h]
    · simp [hrm]

theorem lookup_rmKey_ne {k a : Site} (ha : a ≠ k) :
    (rmKey startupBbs g k).mergedBbtrace.lookup a = g.mergedBbtrace.lookup a := by
  unfold rmKey
  cases g.mergedBbtrace.lookup k with
  | none => rfl
  | some bbs =>
    by_cases hrm : rmBbs startupBbs bbs = []
    · simp [hrm]
    · simp [hrm, AList.lookup_insert_ne ha]

/-- The list of a site after the first loop. -/
theorem lookup_foldl_rmKey (site : Site) :
    (g.mergedBbtrace.keys.foldl (rmKey startupBbs) g).mergedBbtrace.lookup site =
      (g.mergedBbtrace.lookup site).map fun bbs =>
        (rmBbs startupBbs bbs).foldl List.erase bbs := by
  rw [foldl_keyed (fun g a => AList.lookup a g.mergedBbtrace) (rmKey startupBbs)
    (fun _ l => l.map fun bbs => (rmBbs startupBbs bbs).foldl List.erase bbs)
    (lookup_rmKey_self startupBbs) (fun g _ _ => lookup_rmKey_ne startupBbs g)
    g.mergedBbtrace.keys_nodup]
  split
  · rfl
  · next hsite =>
    have hnone : g.mergedBbtrace.lookup site = none := AList.lookup_eq_none.mpr hsite
    rw [hnone]
    rfl

/-- **The second function**: a site whose list has come down to `[0]` goes, and the others keep what
    is left of their lists. -/
theorem lookup_rmStartupBbs (site : Site) :
    (rmStartupBbs startupBbs g).mergedBbtrace.lookup site =
      ((g.mergedBbtrace.lookup site).map fun bbs =>
        (rmBbs startupBbs bbs).foldl List.erase bbs).filter (· ≠ [0]) := by
  rw [← lookup_foldl_rmKey]
  unfold rmStartupBbs
  generalize g.mergedBbtrace.keys.foldl (rmKey startupBbs) g = g'
  rw [foldl_keyed (fun g a => AList.lookup a g.mergedBbtrace) delKey (fun _ _ => none)
    (fun g e => AList.lookup_erase e g.mergedBbtrace)
    (fun g _ _ ha => AList.lookup_erase_ne ha) (g'.mergedBbtrace.keys_nodup.filter _)]
  cases h : g'.mergedBbtrace.lookup site with
  | none => simp
  | some l =>
    have hkey : site ∈ g'.mergedBbtrace.keys :=
      AList.lookup_isSome.mp (Option.isSome_iff_exists.mpr ⟨l, h⟩)
    by_cases hl : l = [0]
    · simp [hkey, h, hl, Option.filter]
    · simp [h, hl, Option.filter]

end Remove

/-! ### When exactly the other blocks are left -/

section Exact

variable {Site : Type} [DecidableEq Site]

/-- A block was traced at a site. -/
def Traced (allTraces : List (Trace Site)) (site : Site) (b : ℤ) : Prop :=
  ∃ t ∈ allTraces, ∃ l, t.blocks.lookup site = some l ∧ b ∈ l

/-- **The purpose of the script**: the sites with a block outside the startup list, each with those
    blocks. -/
structure MergedExact (allTraces : List (Trace Site)) (startupBbs : List ℤ)
    (merged : Dict Site) : Prop where
  sites : ∀ site, site ∈ merged ↔ ∃ b, Traced allTraces site b ∧ b ∉ startupBbs
  blocks : ∀ site l, merged.lookup site = some l →
    ∀ b, b ∈ l ↔ Traced allTraces site b ∧ b ∉ startupBbs

variable {allTraces : List (Trace Site)} {site : Site} {b : ℤ} {l : List ℤ} {ls : List (List ℤ)}

theorem traced_iff : Traced allTraces site b ↔ b ∈ (siteLists allTraces site).flatten := by
  simp only [Traced, siteLists, List.mem_flatten, List.mem_filterMap]
  constructor
  · rintro ⟨t, ht, l, hl, hb⟩
    exact ⟨l, ⟨t, ht, hl⟩, hb⟩
  · rintro ⟨l, ⟨t, ht, hl⟩, hb⟩
    exact ⟨t, ht, l, hl, hb⟩

theorem Traced.pos (h : Traced allTraces site b) : 0 < b := by
  obtain ⟨t, -, l, hl, hb⟩ := h
  exact t.positive site l hl b hb

/-- The blocks of the merged list of a site are those traced there. -/
theorem mem_appendNew_siteLists (h : siteLists allTraces site = l :: ls) :
    b ∈ appendNew l ls.flatten ↔ Traced allTraces site b := by
  rw [traced_iff, h, mem_appendNew, List.flatten_cons, List.mem_append]

theorem lookup_run_none (h : siteLists allTraces site = []) (startupBbs : List ℤ) :
    (run allTraces startupBbs).mergedBbtrace.lookup site = none := by
  rw [run, lookup_rmStartupBbs, lookup_mergeBbtraces, h]
  rfl

/-- **The result at a site** of the traces.  Block ids are positive, so no list comes down to `[0]`
    and no site is deleted. -/
theorem lookup_run_some (h : siteLists allTraces site = l :: ls) (startupBbs : List ℤ) :
    (run allTraces startupBbs).mergedBbtrace.lookup site =
      some ((rmBbs startupBbs (appendNew l ls.flatten)).foldl List.erase
        (appendNew l ls.flatten)) := by
  rw [run, lookup_rmStartupBbs, lookup_mergeBbtraces, h]
  show Option.filter _ (some _) = _
  rw [Option.filter_some, if_pos]
  rw [decide_eq_true_eq]
  intro (hzero : (rmBbs startupBbs (appendNew l ls.flatten)).foldl List.erase _ = [0])
  have hmem : (0 : ℤ) ∈ appendNew l ls.flatten := by
    apply List.diff_subset _ (rmBbs startupBbs (appendNew l ls.flatten))
    rw [List.diff_eq_foldl, hzero]
    exact List.mem_singleton_self 0
  exact absurd ((mem_appendNew_siteLists h).mp hmem).pos (by decide)

/-- The blocks left at a site. -/
theorem mem_run_iff (h : siteLists allTraces site = l :: ls) (startupBbs : List ℤ) :
    b ∈ (rmBbs startupBbs (appendNew l ls.flatten)).foldl List.erase (appendNew l ls.flatten) ↔
      Traced allTraces site b ∧ (b ∈ startupBbs → 1 < l.count b) := by
  rw [← mem_appendNew_siteLists h]
  by_cases hb : b ∈ appendNew l ls.flatten
  · have hpos := ((mem_appendNew_siteLists h).mp hb).pos
    rw [mem_foldl_erase_rmBbs (by omega), count_appendNew]
    by_cases hl : b ∈ l
    · rw [if_pos hl]
    · rw [if_neg hl, List.count_eq_zero_of_not_mem hl]
      refine and_congr_right fun _ => imp_congr_right fun _ => ?_
      split <;> omega
  · refine iff_of_false (fun hmem => hb ?_) (fun hmem => hb hmem.1)
    rw [← List.diff_eq_foldl] at hmem
    exact List.diff_subset _ _ hmem

/-- **Merging is exact** when every site of the traces has a block outside the startup list, and the
    first trace with the site has no startup block twice: sites whose blocks all ran at startup stay
    with an empty list, and only one occurrence of a startup block is removed. -/
theorem merged_exact_iff (allTraces : List (Trace Site)) (startupBbs : List ℤ) :
    MergedExact allTraces startupBbs (run allTraces startupBbs).mergedBbtrace ↔
      ∀ site l ls, siteLists allTraces site = l :: ls →
        (∃ b, Traced allTraces site b ∧ b ∉ startupBbs) ∧ ∀ b ∈ startupBbs, l.count b ≤ 1 := by
  constructor
  · intro hexact site l ls h
    have hlookup := lookup_run_some h startupBbs
    refine ⟨(hexact.sites site).mp ?_, fun b hb => ?_⟩
    · exact AList.lookup_isSome.mp (Option.isSome_iff_exists.mpr ⟨_, hlookup⟩)
    · -- a startup block that is there twice is left once
      by_contra htwice
      have hl : b ∈ l := List.count_pos_iff.mp (by omega)
      have hleft := (mem_run_iff h startupBbs (b := b)).mpr
        ⟨(mem_appendNew_siteLists h).mp (mem_appendNew.mpr (.inl hl)), fun _ => by omega⟩
      exact ((hexact.blocks site _ hlookup b).mp hleft).2 hb
  · intro hcond
    constructor
    · intro site
      cases h : siteLists allTraces site with
      | nil =>
        have hnone := lookup_run_none h startupBbs
        refine iff_of_false (AList.lookup_eq_none.mp hnone) ?_
        rintro ⟨b, hb, -⟩
        rw [traced_iff, h] at hb
        exact List.not_mem_nil hb
      | cons l ls =>
        refine iff_of_true ?_ (hcond site l ls h).1
        exact AList.lookup_isSome.mp
          (Option.isSome_iff_exists.mpr ⟨_, lookup_run_some h startupBbs⟩)
    · intro site r hr b
      cases h : siteLists allTraces site with
      | nil =>
        rw [lookup_run_none h] at hr
        cases hr
      | cons l ls =>
        rw [lookup_run_some h] at hr
        obtain rfl := Option.some.inj hr
        rw [mem_run_iff h]
        refine and_congr_right fun _ => ⟨fun hcount hb => ?_, fun hb hb' => absurd hb' hb⟩
        have hone := (hcond site l ls h).2 b hb
        have htwo := hcount hb
        omega

/-- One trace, with block 5 twice at site 0 and block 6 at site 1. -/
def twoSites : Trace ℕ where
  blocks := ⟨[⟨0, [5, 5, 7]⟩, ⟨1, [6]⟩], (by decide : [0, 1].Nodup)⟩
  positive := by
    intro site l hl b hb
    have hentry := AList.mem_lookup_iff.mp hl
    simp only [List.mem_cons, Sigma.mk.injEq, List.not_mem_nil, or_false, heq_eq_eq] at hentry
    rcases hentry with ⟨-, rfl⟩ | ⟨-, rfl⟩ <;> revert b <;> decide

/-- Blocks 5 and 6 ran at startup: one 5 stays at site 0, and site 1 stays with an empty list. -/
theorem not_merged_exact_twoSites :
    (run [twoSites] [5, 6]).mergedBbtrace.lookup 0 = some [5, 7] ∧
      (run [twoSites] [5, 6]).mergedBbtrace.lookup 1 = some [] ∧
      ¬ MergedExact [twoSites] [5, 6] (run [twoSites] [5, 6]).mergedBbtrace := by
  have h0 : (run [twoSites] [5, 6]).mergedBbtrace.lookup 0 = some [5, 7] := by decide
  refine ⟨h0, by decide, fun h => ?_⟩
  exact ((h.blocks 0 _ h0 5).mp (by decide)).2 (by decide)

end Exact

end Firestarter.Kombiton
