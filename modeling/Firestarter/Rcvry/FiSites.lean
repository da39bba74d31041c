import Firestarter.Rcvry.BbtraceDump
import Firestarter.Lib.CNumber

namespace Firestarter.Rcvry.FiSites

open Bbtrace CNumber

/-!
# Deterministic fault sites (`rcvry_fi.c`)

At start `rcvry_fi_init` sets the fault probabilities of the call sites from two lists in the
environment, and `rcvry_fi_fatal_fault` crashes the program at an enabled site.  The numbers of the
lists are used as indices as they are: cut to 32 bits, not compared with the size of the table, and
zero for a token that is not a number.

* `rcvryFiInit`, `rcvryFiFatalFault`: the code;
* `rcvryFiInit_prob`, `rcvryFiInit_writes_lt_iff`: the table after the start, and the entries
  written;
* `faults_count_le_one`: no run faults twice at a site;
* `fiSites_exact_iff`: when the enabled sites are the listed ones.
-/

/-! ### Tokens -/

/-- The strings that `strsep(&s, ",")` returns until it returns `NULL`. -/
def tokens : Option (List Char) → List (List Char)
  | none => []
  | some s => s.splitOn ','

/-- `uint32_t site_id = strtoul(strSiteID, NULL, 0)` -/
def siteId (tok : List Char) : ℕ := (strtoul tok).getD 0 % 2 ^ 32

/-! ### The table -/

/-- The fault probabilities by index, and the indices written to.  Indices from
    `RCVRY_MAX_LIBCALL_SITES` on are the memory behind the table. -/
structure Table where
  prob : ℕ → ℕ
  writes : List ℕ

/-- `rcvry_info[i].rcvry_fi.fault_probability = p` -/
def Table.set (t : Table) (i p : ℕ) : Table :=
  ⟨fun j => if j = i then p else t.prob j, t.writes ++ [i]⟩

/-- The sites that are left out when no list is given. -/
def skip : List ℕ :=
  [46, 47, 396, 394, 568, 507, 215, 276, 278, 397, 351, 281, 110, 219, 221,
   177, 179, 432, 186, 194, 203, 355, 454, 476, 489, 492, 495, 497, 499, 0]

/-- No list of sites is given. -/
def noFiSites (strFISites : Option (List Char)) : Prop := strFISites = none ∨ strFISites = some []

instance (strFISites : Option (List Char)) : Decidable (noFiSites strFISites) :=
  inferInstanceAs (Decidable (_ ∨ _))

/-- `rcvry_fi_init`, with the values of `RCVRY_FI_SITES` and `RCVRY_NON_FI_SITES`. -/
def rcvryFiInit (strFISites strNonFISites : Option (List Char)) (t : Table) : Table :=
  let t :=
    if noFiSites strFISites then
      let t := (List.range maxLibcallSites).foldl (fun t i => t.set i 100) t
      skip.foldl (fun t i => t.set i 0) t
    else (tokens strFISites).foldl (fun t tok => t.set (siteId tok) 100) t
  (tokens strNonFISites).foldl (fun t tok => t.set (siteId tok) 0) t

/-- The table at the start of the program: zero, with any memory behind it. -/
def initial (mem : ℕ → ℕ) : Table := ⟨fun i => if i < maxLibcallSites then 0 else mem i, []⟩

/-- `rcvry_fi_enabled` -/
def rcvryFiEnabled (t : Table) (i : ℕ) : Prop := t.prob i = 100

instance (t : Table) (i : ℕ) : Decidable (rcvryFiEnabled t i) := inferInstanceAs (Decidable (_ = _))

/-- `rcvry_fi_fatal_fault`: whether the call faults, and the table behind it. -/
def rcvryFiFatalFault (t : Table) (i : ℕ) : Bool × Table :=
  if rcvryFiEnabled t i then (true, t.set i 0) else (false, t)

/-- The sites at which a run faults, by the calls it makes. -/
def faults : Table → List ℕ → List ℕ
  | _, [] => []
  | t, i :: is =>
    let (faulted, t) := rcvryFiFatalFault t i
    if faulted then i :: faults t is else faults t is

/-! ### The table after the start -/

/-- **A loop over indices** that sets all entries to one value. -/
theorem foldl_set {α : Type} (f : α → ℕ) (p : ℕ) (xs : List α) (t : Table) :
    xs.foldl (fun t x => t.set (f x) p) t =
      ⟨fun i => if i ∈ xs.map f then p else t.prob i, t.writes ++ xs.map f⟩ := by
  induction xs generalizing t with
  | nil => simp
  | cons x xs ih =>
    rw [List.foldl_cons, ih, List.map_cons]
    simp only [Table.set, List.mem_cons, List.append_assoc, List.singleton_append,
      Table.mk.injEq, and_true]
    funext i
    by_cases hi : i ∈ xs.map f
    · simp [hi]
    · simp [hi]

/-- The sites that the first part of the function enables. -/
def Set100 (strFISites : Option (List Char)) (i : ℕ) : Prop :=
  if noFiSites strFISites then i ∉ skip else ∃ tok ∈ tokens strFISites, siteId tok = i

/-- **The table after the start**, entry by entry. -/
theorem rcvryFiInit_prob (strFISites strNonFISites : Option (List Char)) (t : Table) (i : ℕ) :
    (rcvryFiInit strFISites strNonFISites t).prob i =
      if i ∈ (tokens strNonFISites).map siteId then 0
      else if noFiSites strFISites then
        if i ∈ skip then 0 else if i < maxLibcallSites then 100 else t.prob i
      else if i ∈ (tokens strFISites).map siteId then 100 else t.prob i := by
  unfold rcvryFiInit
  dsimp only
  rw [foldl_set siteId 0]
  by_cases hno : noFiSites strFISites
  · rw [if_pos hno, if_pos hno, foldl_set (fun i => i) 0, foldl_set (fun i => i) 100]
    simp only [List.map_id', List.mem_range]
  · rw [if_neg hno, if_neg hno, foldl_set siteId 100]

/-- The sites enabled after the start. -/
theorem rcvryFiInit_enabled (strFISites strNonFISites : Option (List Char)) (mem : ℕ → ℕ) {i : ℕ}
    (hi : i < maxLibcallSites) :
    rcvryFiEnabled (rcvryFiInit strFISites strNonFISites (initial mem)) i ↔
      Set100 strFISites i ∧ ∀ tok ∈ tokens strNonFISites, siteId tok ≠ i := by
  have hnon : i ∈ (tokens strNonFISites).map siteId ↔
      ¬ ∀ tok ∈ tokens strNonFISites, siteId tok ≠ i := by
    simp only [List.mem_map, ne_eq, not_forall, not_not, exists_prop]
  have hinit : (initial mem).prob i = 0 := if_pos hi
  unfold rcvryFiEnabled Set100
  rw [rcvryFiInit_prob, hinit]
  by_cases hcleared : i ∈ (tokens strNonFISites).map siteId
  · rw [if_pos hcleared]
    exact iff_of_false (by decide) fun h => hnon.mp hcleared h.2
  · rw [if_neg hcleared, and_iff_left (not_not.mp (mt hnon.mpr hcleared))]
    by_cases hno : noFiSites strFISites
    · rw [if_pos hno, if_pos hno, if_pos hi]
      by_cases hskip : i ∈ skip
      · rw [if_pos hskip]
        exact iff_of_false (by decide) fun h => h hskip
      · rw [if_neg hskip]
        exact iff_of_true rfl hskip
    · rw [if_neg hno, if_neg hno]
      by_cases hfi : i ∈ (tokens strFISites).map siteId
      · rw [if_pos hfi]
        exact iff_of_true rfl (List.mem_map.mp hfi)
      · rw [if_neg hfi]
        exact iff_of_false (by decide) fun h => hfi (List.mem_map.mpr h)

theorem skip_lt : ∀ i ∈ skip, i < maxLibcallSites := by decide

/-- **The indices written to** are below the size of the table when those of the tokens are. -/
theorem rcvryFiInit_writes_lt_iff (strFISites strNonFISites : Option (List Char)) (mem : ℕ → ℕ) :
    (∀ i ∈ (rcvryFiInit strFISites strNonFISites (initial mem)).writes, i < maxLibcallSites) ↔
      ∀ tok ∈ tokens strFISites ++ tokens strNonFISites, siteId tok < maxLibcallSites := by
  unfold rcvryFiInit
  simp only [foldl_set]
  by_cases hno : noFiSites strFISites
  · -- the only token of an empty list is read as site 0
    have hempty : ∀ tok ∈ tokens strFISites, siteId tok < maxLibcallSites := by
      rcases hno with rfl | rfl <;> decide
    simp only [hno, if_true, initial, List.nil_append, List.mem_append, List.mem_map,
      List.mem_range]
    constructor
    · rintro h tok (hfi | hnon)
      · exact hempty tok hfi
      · exact h _ (.inr ⟨tok, hnon, rfl⟩)
    · rintro h i ((⟨j, hj, rfl⟩ | ⟨j, hj, rfl⟩) | ⟨tok, hnon, rfl⟩)
      · exact hj
      · exact skip_lt j hj
      · exact h tok (.inr hnon)
  · simp only [hno, if_false, initial, List.nil_append, ← List.map_append, List.mem_map,
      forall_exists_index, and_imp, forall_apply_eq_imp_iff₂]

/-! ### Runs -/

/-- A site that is not enabled does not fault, now or later. -/
theorem not_mem_faults {t : Table} {i : ℕ} (h : ¬ rcvryFiEnabled t i) (calls : List ℕ) :
    i ∉ faults t calls := by
  induction calls generalizing t with
  | nil => exact List.not_mem_nil
  | cons j calls ih =>
    unfold faults rcvryFiFatalFault
    by_cases hj : rcvryFiEnabled t j
    · have hij : i ≠ j := fun hij => h (hij ▸ hj)
      have hnext : ¬ rcvryFiEnabled (t.set j 0) i := by
        show ¬ (if i = j then 0 else t.prob i) = 100
        rwa [if_neg hij]
      simp only [hj, if_true, List.mem_cons, hij, false_or]
      exact ih hnext
    · simp only [hj, if_false]
      exact ih h

/-- **No run faults twice at a site**, whatever the table is. -/
theorem faults_count_le_one (t : Table) (calls : List ℕ) (i : ℕ) :
    (faults t calls).count i ≤ 1 := by
  induction calls generalizing t with
  | nil => exact Nat.zero_le 1
  | cons j calls ih =>
    unfold faults rcvryFiFatalFault
    by_cases hj : rcvryFiEnabled t j
    · simp only [hj, if_true]
      by_cases hij : i = j
      · subst hij
        have hoff : ¬ rcvryFiEnabled (t.set i 0) i := by simp [rcvryFiEnabled, Table.set]
        rw [List.count_cons_self, List.count_eq_zero_of_not_mem (not_mem_faults hoff calls)]
      · rw [List.count_cons_of_ne (Ne.symm hij)]
        exact ih _
    · simp only [hj, if_false]
      exact ih t

/-! ### When the enabled sites are the listed ones -/

/-- The sites chosen by `RCVRY_FI_SITES`: those whose number is listed, or all but a few. -/
def Chosen (strFISites : Option (List Char)) (i : ℕ) : Prop :=
  if noFiSites strFISites then i ∉ skip else ∃ tok ∈ tokens strFISites, strtoul tok = some i

/-- **Fault sites are set exactly and safely**: only entries of the table are written, the enabled
    sites are those chosen and not excluded, and no run faults twice at a site. -/
structure FiSitesExact (strFISites strNonFISites : Option (List Char)) (t : Table) : Prop where
  writes : ∀ i ∈ t.writes, i < maxLibcallSites
  enabled : ∀ i < maxLibcallSites, rcvryFiEnabled t i ↔
    Chosen strFISites i ∧ ∀ tok ∈ tokens strNonFISites, strtoul tok ≠ some i
  once : ∀ calls i, (faults t calls).count i ≤ 1

/-- A site below the size of the table that a token lists is the one its entry is set for. -/
theorem siteId_eq {tok : List Char} {i : ℕ} (h : strtoul tok = some i) (hi : i < maxLibcallSites) :
    siteId tok = i := by
  rw [siteId, h, Option.getD_some]
  refine Nat.mod_eq_of_lt (Nat.lt_trans hi ?_)
  unfold maxLibcallSites
  omega

/-- A chosen site below the size of the table is set. -/
theorem Chosen.set100 {strFISites : Option (List Char)} {i : ℕ} (h : Chosen strFISites i)
    (hi : i < maxLibcallSites) : Set100 strFISites i := by
  unfold Chosen at h
  unfold Set100
  split at h
  · next hno => rwa [if_pos hno]
  · next hno =>
    obtain ⟨tok, htok, hlists⟩ := h
    rw [if_neg hno]
    exact ⟨tok, htok, siteId_eq hlists hi⟩

/-- **The start is exact** when every token's entry is in the table, an entry that a token of the
    first list sets is listed there or cleared again, and an entry that a token of the second list
    clears is listed there or was not chosen. -/
theorem fiSites_exact_iff (strFISites strNonFISites : Option (List Char)) (mem : ℕ → ℕ) :
    FiSitesExact strFISites strNonFISites
        (rcvryFiInit strFISites strNonFISites (initial mem)) ↔
      (∀ tok ∈ tokens strFISites ++ tokens strNonFISites, siteId tok < maxLibcallSites) ∧
      (¬ noFiSites strFISites → ∀ tok ∈ tokens strFISites,
        (∃ tok' ∈ tokens strFISites, strtoul tok' = some (siteId tok)) ∨
          ∃ tok' ∈ tokens strNonFISites, siteId tok' = siteId tok) ∧
      ∀ tok ∈ tokens strNonFISites, Chosen strFISites (siteId tok) →
        ∃ tok' ∈ tokens strNonFISites, strtoul tok' = some (siteId tok) := by
  constructor
  · intro h
    have hrange := (rcvryFiInit_writes_lt_iff _ _ mem).mp h.writes
    refine ⟨hrange, fun hno tok htok => ?_, fun tok htok hchosen => ?_⟩
    · -- otherwise the entry is left enabled although nothing lists it
      have hi := hrange tok (List.mem_append_left _ htok)
      by_contra hnot
      rw [not_or] at hnot
      have hset : Set100 strFISites (siteId tok) := by
        rw [Set100, if_neg hno]
        exact ⟨tok, htok, rfl⟩
      have hen := (rcvryFiInit_enabled _ strNonFISites mem hi).mpr
        ⟨hset, fun tok' htok' heq => hnot.2 ⟨tok', htok', heq⟩⟩
      have hchosen := ((h.enabled _ hi).mp hen).1
      rw [Chosen, if_neg hno] at hchosen
      exact hnot.1 hchosen
    · -- otherwise the entry is cleared although nothing excludes it
      have hi := hrange tok (List.mem_append_right _ htok)
      by_contra hnot
      have hen := (h.enabled _ hi).mpr
        ⟨hchosen, fun tok' htok' hlists => hnot ⟨tok', htok', hlists⟩⟩
      exact ((rcvryFiInit_enabled _ _ mem hi).mp hen).2 tok htok rfl
  · rintro ⟨hrange, hset, hcleared⟩
    refine ⟨(rcvryFiInit_writes_lt_iff _ _ mem).mpr hrange, fun i hi => ?_,
      faults_count_le_one _⟩
    rw [rcvryFiInit_enabled _ _ mem hi]
    constructor
    · rintro ⟨hset100, hnon⟩
      refine ⟨?_, fun tok htok hlists => hnon tok htok (siteId_eq hlists hi)⟩
      unfold Set100 at hset100
      unfold Chosen
      split at hset100
      · next hno => rwa [if_pos hno]
      · next hno =>
        obtain ⟨tok, htok, rfl⟩ := hset100
        rw [if_neg hno]
        refine (hset hno tok htok).resolve_right ?_
        rintro ⟨tok', htok', heq⟩
        exact hnon tok' htok' heq
    · rintro ⟨hchosen, hnon⟩
      refine ⟨hchosen.set100 hi, ?_⟩
      rintro tok htok rfl
      obtain ⟨tok', htok', hlists⟩ := hcleared tok htok hchosen
      exact hnon tok' htok' hlists

/-- `RCVRY_FI_SITES=18196` writes the entry behind the table; `RCVRY_FI_SITES=4294967297` enables
    site 1, and so does not enable the listed sites only. -/
theorem fiSites_not_exact :
    18196 ∈ (rcvryFiInit (some ['1', '8', '1', '9', '6']) none (initial fun _ => 0)).writes ∧
      ¬ FiSitesExact (some ['1', '8', '1', '9', '6']) none
        (rcvryFiInit (some ['1', '8', '1', '9', '6']) none (initial fun _ => 0)) ∧
      ¬ FiSitesExact (some ['4', '2', '9', '4', '9', '6', '7', '2', '9', '7']) none
        (rcvryFiInit (some ['4', '2', '9', '4', '9', '6', '7', '2', '9', '7']) none
          (initial fun _ => 0)) := by
  have hbehind :
      18196 ∈ (rcvryFiInit (some ['1', '8', '1', '9', '6']) none (initial fun _ => 0)).writes := by
    decide
  refine ⟨hbehind, fun h => absurd (h.writes _ hbehind) (by decide), fun h => ?_⟩
  obtain ⟨tok, htok, hlists⟩ := ((h.enabled 1 (by decide)).mp (by decide)).1
  revert tok
  decide

end Firestarter.Rcvry.FiSites
