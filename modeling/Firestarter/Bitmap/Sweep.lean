import Firestarter.Bitmap.Plain
import Firestarter.Lib.BitMem
import Firestarter.Lib.Drain
import Mathlib.Data.List.Nodup
import Mathlib.Order.Interval.Set.Basic

namespace Firestarter.Bitmap

open FlatMem Drain
open Plain (shadowSpaceSize shadowSpaceOffset)

/-!
# Bitmap trees (`bitmap_tree.h`, `bitmap_tree_byte.h` with `LTCKPT_SYNC_SCHEME`, 32-bit x86)

A bitmap tree has three levels.  A mark of the first level stands for a region of 16 bytes, a
mark of the second for 16 bytes of the first level, a mark of the third for 16 bytes of the
second.  The two trees differ in how many marks a byte holds (`LTCKPT_CLICKS_PER_BYTE`) and in
how many words the code scans for a mark; their check functions are otherwise the same text.

* `TreeLayout` — where the levels lie and how they are scanned;
* `checkFirstLevel`, `checkSecondLevel` — the code, shared by the two trees;
* `sweep` — clearing bytes of the tree and copying regions to their shadow, in one step;
* `checkFirstLevel_eq` — a scan of first-level words is the sweep of these words and of the
  regions marked in them.
-/

/-! ### Layout -/

/-- `LTCKPT_BITMAP_CLICK`, in both trees. -/
def treeClick : ℕ := 16

/-- `LTCKPT_1ST_LEVEL_SIZE`. -/
def firstLevelSize (cpb : ℕ) : ℕ := shadowSpaceSize / treeClick / cpb

/-- `LTCKPT_2ND_LEVEL_SIZE`. -/
def secondLevelSize (cpb : ℕ) : ℕ := firstLevelSize cpb / treeClick / cpb

/-- `LTCKPT_3RD_LEVEL_SIZE`. -/
def thirdLevelSize (cpb : ℕ) : ℕ := secondLevelSize cpb / treeClick / cpb

/-- `LTCKPT_BITMAP_SIZE`. -/
def treeSize (cpb : ℕ) : ℕ := thirdLevelSize cpb + secondLevelSize cpb + firstLevelSize cpb

/-- `PAGE_ROUND_DOWN`. -/
def pageRoundDown (x : ℕ) : ℕ := x - x % 4096

/-- `LTCKPT_BITMAP_OFFSET`. -/
def treeOffset (cpb : ℕ) : ℕ := pageRoundDown (shadowSpaceOffset - treeSize cpb)

/-- A tree: `LTCKPT_CLICKS_PER_BYTE`, the number of words that are scanned for a mark, and the
    offsets of the levels, which follow one another below the shadow space. -/
structure TreeLayout where
  cpb : ℕ
  words : ℕ
  first : ℕ
  second : ℕ
  third : ℕ
  cpb_eq : cpb = 1 ∨ cpb = 8
  first_le_second : first ≤ second
  second_le_third : second ≤ third
  third_le_shadow : third ≤ shadowSpaceOffset
  -- the regions of a word lie on one side of the tree's start
  aligned : 64 * cpb ∣ first

/-- The tree with `LTCKPT_CLICKS_PER_BYTE = cpb`. -/
def TreeLayout.ofClicks (cpb words : ℕ) (hcpb : cpb = 1 ∨ cpb = 8) : TreeLayout where
  cpb := cpb
  words := words
  first := treeOffset cpb
  second := treeOffset cpb + firstLevelSize cpb
  third := treeOffset cpb + firstLevelSize cpb + secondLevelSize cpb
  cpb_eq := hcpb
  first_le_second := Nat.le_add_right _ _
  second_le_third := Nat.le_add_right _ _
  third_le_shadow := by rcases hcpb with rfl | rfl <;> decide
  aligned := by rcases hcpb with rfl | rfl <;> decide

/-! ### The code -/

/-- Memory, and for the statements the regions copied to their shadow, in order. -/
structure TreeState where
  mem : Mem
  copied : List ℕ

/-- The word at `p`, a `uint32_t`. -/
def wordCell (p : ℕ) : Cell TreeState where
  top := 256 ^ 4
  get s := readLE s.mem p 4
  set s v := { s with mem := writeLE s.mem p 4 v }
  get_lt s := readLE_lt s.mem p 4
  get_set s _ hv := readLE_writeLE s.mem p hv
  set_set s v w := by
    show TreeState.mk _ _ = TreeState.mk _ _
    rw [writeLE, writeLE, write_write_same _ _ (by simp), writeLE]
  set_get s := by
    show TreeState.mk _ _ = s
    rw [writeLE_readLE]

/-- `*dst = *src`: the 16 bytes of a region go to its shadow. -/
def copyClick (s : TreeState) (data : ℕ) : TreeState where
  mem := write s.mem ((data + shadowSpaceOffset) % 2 ^ 32) (read s.mem data treeClick)
  copied := s.copied ++ [data]

variable {x level i b n : ℕ} {rs : List ℕ} {Z Z' : Set ℕ} {m m' : Mem} {s : TreeState}

/-- A copy changes nothing below its destination. -/
theorem copyClick_keeps (s : TreeState) {data : ℕ} (hx : x < (data + shadowSpaceOffset) % 2 ^ 32) :
    (copyClick s data).mem x = s.mem x := by
  simp only [copyClick]
  exact write_of_outside s.mem _ _ (Or.inl hx)

variable (ly : TreeLayout)

/-- What mark `set` of the word at `p` stands for, in the level below that starts at `base`:
    `(p - level) * LTCKPT_CLICKS_PER_BYTE * LTCKPT_BITMAP_CLICK + set * LTCKPT_BITMAP_CLICK`
    and `base`. -/
def childOf (level base p set : ℕ) : ℕ :=
  ((p - level) * ly.cpb * treeClick + set * treeClick + base) % 2 ^ 32

/-- The loops `for (i = 0; i < words; i++) while (node[i]) { ... }`. -/
def scanWords (visit : TreeState → ℕ → ℕ → TreeState) (words node : ℕ) (s : TreeState) :
    TreeState :=
  (List.range words).foldl
    (fun s i => drain (wordCell (node + 4 * i)) (8 / ly.cpb) (visit · (node + 4 * i))
      (4 * ly.cpb) 0 s) s

/-- `ltckpt_check_first_level`. -/
def checkFirstLevel (s : TreeState) (fl : ℕ) : TreeState :=
  scanWords ly (fun s p set => copyClick s (childOf ly ly.first 0 p set)) ly.words fl s

/-- `ltckpt_check_second_level`. -/
def checkSecondLevel (s : TreeState) (sl : ℕ) : TreeState :=
  scanWords ly (fun s p set => checkFirstLevel ly s (childOf ly ly.second ly.first p set))
    ly.words sl s

/-! ### Sweeps -/

/-- Memory after copying the regions `rs` to their shadows. -/
def syncRegions (m : Mem) (rs : List ℕ) : Mem := fun x =>
  if shadowSpaceOffset ≤ x ∧ addrToRegion treeClick (x - shadowSpaceOffset) ∈ rs then
    m (x - shadowSpaceOffset)
  else m x

open Classical in
/-- Memory with the bytes of `Z` cleared. -/
noncomputable def clearBytes (Z : Set ℕ) (m : Mem) : Mem := fun x => if x ∈ Z then 0 else m x

/-- Copy the regions `rs` to their shadows and clear the bytes of `Z`. -/
noncomputable def sweep (Z : Set ℕ) (rs : List ℕ) (s : TreeState) : TreeState where
  mem := clearBytes Z (syncRegions s.mem rs)
  copied := s.copied ++ rs

/-- A region of the program's memory, which ends where the tree starts. -/
def ProgramRegion (r : ℕ) : Prop := r % treeClick = 0 ∧ r + treeClick ≤ ly.first

/-- The bytes of the tree. -/
def TreeLayout.area : Set ℕ := Set.Ico ly.first shadowSpaceOffset

theorem shadowSpaceOffset_eq : shadowSpaceOffset = 0x60000000 := rfl

theorem treeClick_eq : treeClick = 16 := rfl

theorem TreeLayout.first_le_shadow : ly.first ≤ shadowSpaceOffset :=
  ly.first_le_second.trans (ly.second_le_third.trans ly.third_le_shadow)

theorem addrToRegion_bounds (x : ℕ) :
    addrToRegion treeClick x ≤ x ∧ x < addrToRegion treeClick x + treeClick := by
  rw [addrToRegion, treeClick_eq]
  omega

theorem syncRegions_of_not_mem (m : Mem)
    (hx : x < shadowSpaceOffset ∨ addrToRegion treeClick (x - shadowSpaceOffset) ∉ rs) :
    syncRegions m rs x = m x := by
  rw [syncRegions, if_neg]
  rintro ⟨hle, hmem⟩
  rcases hx with hx | hx
  · exact absurd hle (Nat.not_le.mpr hx)
  · exact hx hmem

theorem syncRegions_of_mem (m : Mem) (hx : shadowSpaceOffset ≤ x)
    (hmem : addrToRegion treeClick (x - shadowSpaceOffset) ∈ rs) :
    syncRegions m rs x = m (x - shadowSpaceOffset) := by
  rw [syncRegions, if_pos ⟨hx, hmem⟩]

theorem syncRegions_cases
    (h : ¬ (shadowSpaceOffset ≤ x ∧ addrToRegion treeClick (x - shadowSpaceOffset) ∈ rs)) :
    x < shadowSpaceOffset ∨ addrToRegion treeClick (x - shadowSpaceOffset) ∉ rs := by
  rcases Nat.lt_or_ge x shadowSpaceOffset with hx | hx
  · exact Or.inl hx
  · exact Or.inr fun hmem => h ⟨hx, hmem⟩

theorem syncRegions_nil (m : Mem) : syncRegions m [] = m := by
  funext x
  exact syncRegions_of_not_mem m (Or.inr List.not_mem_nil)

/-- Outside the cleared bytes a sweep is a copy of the regions. -/
theorem sweep_of_not_mem (rs : List ℕ) (s : TreeState) (hx : x ∉ Z) :
    (sweep Z rs s).mem x = syncRegions s.mem rs x :=
  if_neg hx

theorem sweep_of_mem (rs : List ℕ) (s : TreeState) (hx : x ∈ Z) : (sweep Z rs s).mem x = 0 :=
  if_pos hx

/-- Outside the cleared bytes a sweep leaves the program's memory and the tree alone. -/
theorem sweep_below (rs : List ℕ) (s : TreeState) (hx : x ∉ Z) (hsh : x < shadowSpaceOffset) :
    (sweep Z rs s).mem x = s.mem x :=
  (sweep_of_not_mem rs s hx).trans (syncRegions_of_not_mem _ (Or.inl hsh))

variable {ly}

/-- The source of a copied byte lies in the program's memory. -/
theorem ProgramRegion.source_lt (hr : ProgramRegion ly (addrToRegion treeClick x)) : x < ly.first :=
  lt_of_lt_of_le (addrToRegion_bounds x).2 hr.2

/-- Copies of regions of the program's memory depend on that memory and on what is not copied. -/
theorem syncRegions_congr (hrs : ∀ r ∈ rs, ProgramRegion ly r)
    (hprogram : ∀ y < ly.first, m y = m' y) (hx : m x = m' x) :
    syncRegions m rs x = syncRegions m' rs x := by
  by_cases hcopy : shadowSpaceOffset ≤ x ∧ addrToRegion treeClick (x - shadowSpaceOffset) ∈ rs
  · rw [syncRegions_of_mem _ hcopy.1 hcopy.2, syncRegions_of_mem _ hcopy.1 hcopy.2]
    exact hprogram _ (hrs _ hcopy.2).source_lt
  · have hno := syncRegions_cases hcopy
    rw [syncRegions_of_not_mem _ hno, syncRegions_of_not_mem _ hno, hx]

/-- **Composition.** Two sweeps are one, of both sets and both lists. -/
theorem sweep_sweep {rs' : List ℕ} (hZ : Z ⊆ ly.area) (hrs : ∀ r ∈ rs', ProgramRegion ly r)
    (s : TreeState) : sweep Z' rs' (sweep Z rs s) = sweep (Z ∪ Z') (rs ++ rs') s := by
  refine congrArg₂ TreeState.mk ?_ (List.append_assoc ..)
  funext x
  show (sweep Z' rs' (sweep Z rs s)).mem x = (sweep (Z ∪ Z') (rs ++ rs') s).mem x
  by_cases hx' : x ∈ Z'
  · rw [sweep_of_mem _ _ hx', sweep_of_mem _ _ (Or.inr hx')]
  rw [sweep_of_not_mem _ _ hx']
  by_cases hx : x ∈ Z
  · -- a byte of the tree is no shadow
    rw [syncRegions_of_not_mem _ (Or.inl (hZ hx).2), sweep_of_mem _ _ hx,
      sweep_of_mem _ _ (Or.inl hx)]
  rw [sweep_of_not_mem (rs ++ rs') s (fun h => h.elim hx hx')]
  by_cases hsh : x < shadowSpaceOffset
  · rw [syncRegions_of_not_mem _ (Or.inl hsh), sweep_below _ _ hx hsh,
      syncRegions_of_not_mem _ (Or.inl hsh)]
  have hle : shadowSpaceOffset ≤ x := Nat.not_lt.mp hsh
  by_cases hnew : addrToRegion treeClick (x - shadowSpaceOffset) ∈ rs'
  · -- what is copied there is a byte of the program's memory, which the first sweep left alone
    have hsrc := (hrs _ hnew).source_lt
    rw [syncRegions_of_mem _ hle hnew,
      sweep_below _ _ (fun h => absurd (hZ h).1 (Nat.not_le.mpr hsrc))
        (lt_of_lt_of_le hsrc ly.first_le_shadow),
      syncRegions_of_mem _ hle (List.mem_append_right rs hnew)]
  · rw [syncRegions_of_not_mem _ (Or.inr hnew), sweep_of_not_mem _ _ hx]
    by_cases hold : addrToRegion treeClick (x - shadowSpaceOffset) ∈ rs
    · rw [syncRegions_of_mem _ hle hold,
        syncRegions_of_mem _ hle (List.mem_append_left rs' hold)]
    · rw [syncRegions_of_not_mem _ (Or.inr hold), syncRegions_of_not_mem _
        (Or.inr fun h => (List.mem_append.mp h).elim hold hnew)]

/-- Clearing bytes that are zero already changes nothing. -/
theorem sweep_zero (s : TreeState) (hzero : ∀ x ∈ Z, s.mem x = 0) : sweep Z [] s = s := by
  refine congrArg₂ TreeState.mk ?_ (List.append_nil _)
  funext x
  show (sweep Z [] s).mem x = s.mem x
  by_cases hx : x ∈ Z
  · rw [sweep_of_mem _ _ hx, hzero x hx]
  · rw [sweep_of_not_mem _ _ hx, syncRegions_nil]

theorem sweep_empty (s : TreeState) : sweep ∅ [] s = s :=
  sweep_zero s fun x hx => absurd hx (Set.notMem_empty x)

/-- A sweep may be extended by bytes that are zero. -/
theorem sweep_union_zero (hZ : Z ⊆ ly.area) (hZ' : Z' ⊆ ly.area) (rs : List ℕ) (s : TreeState)
    (hzero : ∀ x ∈ Z', s.mem x = 0) : sweep (Z ∪ Z') rs s = sweep Z rs s := by
  have hclear : sweep Z' [] (sweep Z rs s) = sweep Z rs s := by
    refine sweep_zero _ fun x hx => ?_
    by_cases hxZ : x ∈ Z
    · exact sweep_of_mem rs s hxZ
    · rw [sweep_below rs s hxZ (hZ' hx).2, hzero x hx]
  rw [← hclear, sweep_sweep hZ fun r hr => absurd hr List.not_mem_nil, List.append_nil]

/-- A sweep commutes with replacing a word of the tree that it does not clear. -/
theorem sweep_set {p : ℕ} (hp : Set.Ico p (p + 4) ⊆ ly.area) (hZ : ∀ x ∈ Z, x ∉ Set.Ico p (p + 4))
    (hrs : ∀ r ∈ rs, ProgramRegion ly r) (s : TreeState) (v : ℕ) :
    sweep Z rs ((wordCell p).set s v) = (wordCell p).set (sweep Z rs s) v := by
  refine congrArg (TreeState.mk · (s.copied ++ rs)) ?_
  funext x
  show (sweep Z rs ((wordCell p).set s v)).mem x = writeLE (sweep Z rs s).mem p 4 v x
  by_cases hin : x ∈ Set.Ico p (p + 4)
  · have hx : x ∉ Z := fun h => hZ x h hin
    have hlen : x < p + (wordLE 4 v).length := by rw [wordLE_length]; exact hin.2
    rw [sweep_below _ _ hx (hp hin).2]
    show writeLE s.mem p 4 v x = _
    rw [writeLE, write_of_inside _ _ _ hin.1 hlen, writeLE, write_of_inside _ _ _ hin.1 hlen]
  · have hout : ∀ {y}, y ∉ Set.Ico p (p + 4) → ∀ m, writeLE m p 4 v y = m y := by
      intro y hy m
      exact writeLE_of_outside m p 4 v (by rw [Set.mem_Ico] at hy; omega)
    rw [hout hin]
    by_cases hx : x ∈ Z
    · rw [sweep_of_mem _ _ hx, sweep_of_mem _ _ hx]
    rw [sweep_of_not_mem _ _ hx, sweep_of_not_mem _ _ hx]
    exact syncRegions_congr hrs
      (fun y hy => hout (fun h => absurd (hp h).1 (Nat.not_le.mpr hy)) s.mem) (hout hin s.mem)

/-- Storing zero in a word of the tree sweeps it. -/
theorem set_zero (p : ℕ) (s : TreeState) :
    (wordCell p).set s 0 = sweep (Set.Ico p (p + 4)) [] s := by
  refine congrArg₂ TreeState.mk ?_ (List.append_nil _).symm
  funext x
  show writeLE s.mem p 4 0 x = (sweep (Set.Ico p (p + 4)) [] s).mem x
  rw [writeLE_zero]
  split_ifs with hx
  · rw [sweep_of_mem _ _ hx]
  · rw [sweep_of_not_mem _ _ hx, syncRegions_nil]

/-- Storing zero after a sweep sweeps the word too. -/
theorem set_zero_sweep (hZ : Z ⊆ ly.area) (rs : List ℕ) (p : ℕ) (s : TreeState) :
    (wordCell p).set (sweep Z rs s) 0 = sweep (Z ∪ Set.Ico p (p + 4)) rs s := by
  rw [set_zero, sweep_sweep hZ fun r hr => absurd hr List.not_mem_nil, List.append_nil]

/-- Copying a region of the program's memory is a sweep. -/
theorem copyClick_eq {r : ℕ} (hr : ProgramRegion ly r) (s : TreeState) :
    copyClick s r = sweep ∅ [r] s := by
  have hfirst := ly.first_le_shadow
  have hbound := hr.2
  have hr16 := hr.1
  simp only [shadowSpaceOffset_eq, treeClick_eq] at hfirst hbound hr16
  have hdst : (r + shadowSpaceOffset) % 2 ^ 32 = r + shadowSpaceOffset := by
    rw [shadowSpaceOffset_eq]
    omega
  refine congrArg (TreeState.mk · (s.copied ++ [r])) ?_
  funext x
  show write s.mem ((r + shadowSpaceOffset) % 2 ^ 32) (read s.mem r treeClick) x =
    (sweep ∅ [r] s).mem x
  rw [hdst, sweep_of_not_mem _ _ (Set.notMem_empty x)]
  by_cases hx : r + shadowSpaceOffset ≤ x ∧ x < r + shadowSpaceOffset + treeClick
  · have hreg : addrToRegion treeClick (x - shadowSpaceOffset) = r := by
      rw [addrToRegion, treeClick_eq]
      rw [shadowSpaceOffset_eq, treeClick_eq] at hx
      rw [shadowSpaceOffset_eq]
      omega
    rw [write_of_inside _ _ _ hx.1 (by rw [read_length]; exact hx.2),
      read_getD _ _ (Nat.sub_lt_left_of_lt_add hx.1 hx.2),
      syncRegions_of_mem _ (le_trans (Nat.le_add_left _ _) hx.1)
        (List.mem_singleton.mpr hreg)]
    have hsrc : r + (x - (r + shadowSpaceOffset)) = x - shadowSpaceOffset := by omega
    rw [hsrc]
  · rw [write_of_outside _ _ _ (by rw [read_length]; omega)]
    symm
    refine syncRegions_of_not_mem _ ?_
    by_contra hcon
    obtain ⟨hle, hmem⟩ := not_or.mp hcon
    have hbounds := addrToRegion_bounds (x - shadowSpaceOffset)
    rw [List.mem_singleton.mp (not_not.mp hmem)] at hbounds
    exact hx ⟨by omega, by omega⟩

theorem foldl_copyClick (hrs : ∀ r ∈ rs, ProgramRegion ly r) (s : TreeState) :
    rs.foldl copyClick s = sweep ∅ rs s := by
  induction rs generalizing s with
  | nil => exact (sweep_empty s).symm
  | cons r rs ih =>
    have htail : ∀ r' ∈ rs, ProgramRegion ly r' := fun r' hr' => hrs r' (List.mem_cons_of_mem r hr')
    rw [List.foldl_cons, ih htail, copyClick_eq (hrs r (List.mem_cons_self ..)),
      sweep_sweep (Set.empty_subset _) htail, Set.union_empty, List.singleton_append]

/-! ### Marks -/

variable (ly)

/-- Mark `i` of the level that starts at `level`. -/
def marked (m : Mem) (level i : ℕ) : Bool :=
  bitAt m (level + i / ly.cpb) (8 / ly.cpb * (i % ly.cpb))

/-- The regions marked in `n` bytes of the first level, from byte `b` on. -/
def regionsIn (m : Mem) (b n : ℕ) : List ℕ :=
  ((List.range' (ly.cpb * b) (ly.cpb * n)).filter (marked ly m ly.first)).map (treeClick * ·)

/-- No region outside the program's memory is marked. -/
def Confined (m : Mem) : Prop :=
  ∀ x, ly.first ≤ x → x < ly.second → ly.first ≤ treeClick * ly.cpb * (x - ly.first) → m x = 0

theorem marked_zero (h : m (level + i / ly.cpb) = 0) : marked ly m level i = false := by
  rw [marked, bitAt, h]
  exact Nat.zero_testBit _

theorem marked_congr (h : m (level + i / ly.cpb) = m' (level + i / ly.cpb)) :
    marked ly m level i = marked ly m' level i := by
  rw [marked, bitAt, h, marked, bitAt]

/-- The marks that draining a word visits are those of its bytes. -/
theorem marks_readLE (m : Mem) (level b : ℕ) :
    (marks (8 / ly.cpb) (4 * ly.cpb) (readLE m (level + b) 4)).map (ly.cpb * b + ·) =
      (List.range' (ly.cpb * b) (4 * ly.cpb)).filter (marked ly m level) := by
  have hbit : ∀ j ∈ List.range (4 * ly.cpb),
      (readLE m (level + b) 4).testBit (8 / ly.cpb * j) =
        (marked ly m level ∘ (ly.cpb * b + ·)) j := by
    intro j hj
    have hj' := List.mem_range.mp hj
    show _ = bitAt m (level + (ly.cpb * b + j) / ly.cpb)
      (8 / ly.cpb * ((ly.cpb * b + j) % ly.cpb))
    rcases ly.cpb_eq with h | h <;> rw [h] at hj' ⊢ <;> rw [testBit_readLE m _ (by omega)]
    · congr 1 <;> omega
    · congr 1 <;> omega
  rw [marks, List.filter_congr hbit, List.range'_eq_map_range, List.filter_map]

theorem regionsIn_append (m : Mem) (b n k : ℕ) :
    regionsIn ly m b (n + k) = regionsIn ly m b n ++ regionsIn ly m (b + n) k := by
  rw [regionsIn, regionsIn, regionsIn, ← List.map_append, ← List.filter_append, Nat.mul_add,
    Nat.mul_add, List.range'_append_1]

theorem regionsIn_nodup (m : Mem) (b n : ℕ) : (regionsIn ly m b n).Nodup := by
  refine (List.Nodup.filter _ (List.nodup_range' ..)).map ?_
  intro i j hij
  exact Nat.eq_of_mul_eq_mul_left (by decide) hij

/-- Byte of an index in a range of bytes. -/
theorem index_div_bounds (hi : i ∈ List.range' (ly.cpb * b) (ly.cpb * n)) :
    b ≤ i / ly.cpb ∧ i / ly.cpb < b + n := by
  have hi' := List.mem_range'_1.mp hi
  rcases ly.cpb_eq with h | h <;> rw [h] at hi' ⊢ <;> omega

theorem regionsIn_congr (h : ∀ x, b ≤ x → x < b + n → m (ly.first + x) = m' (ly.first + x)) :
    regionsIn ly m b n = regionsIn ly m' b n := by
  rw [regionsIn, regionsIn, List.filter_congr]
  intro i hi
  exact marked_congr ly (h _ (index_div_bounds ly hi).1 (index_div_bounds ly hi).2)

theorem regionsIn_eq_nil (h : ∀ x, b ≤ x → x < b + n → m (ly.first + x) = 0) :
    regionsIn ly m b n = [] := by
  rw [regionsIn, List.map_eq_nil_iff, List.filter_eq_nil_iff]
  intro i hi
  rw [marked_zero ly (h _ (index_div_bounds ly hi).1 (index_div_bounds ly hi).2)]
  exact Bool.false_ne_true

/-- The regions marked in a confined first level are regions of the program's memory. -/
theorem regionsIn_program (hc : Confined ly m) (hbn : ly.first + b + n ≤ ly.second) :
    ∀ r ∈ regionsIn ly m b n, ProgramRegion ly r := by
  intro r hr
  obtain ⟨i, hi, rfl⟩ := List.mem_map.mp hr
  obtain ⟨hrange, hmark⟩ := List.mem_filter.mp hi
  obtain ⟨hlo, hhi⟩ := index_div_bounds ly hrange
  have hnz : ¬ ly.first ≤ treeClick * ly.cpb * (i / ly.cpb) := by
    intro hle
    have hzero := hc (ly.first + i / ly.cpb) (by omega) (by omega)
      (by rwa [Nat.add_sub_cancel_left])
    rw [marked_zero ly hzero] at hmark
    exact absurd hmark Bool.false_ne_true
  obtain ⟨k, hk⟩ := ly.aligned
  refine ⟨Nat.mul_mod_right _ _, ?_⟩
  rw [treeClick_eq] at hnz ⊢
  rcases ly.cpb_eq with h | h <;> rw [h] at hnz hk <;> omega

theorem wordCell_lt (p : ℕ) (s : TreeState) :
    (wordCell p).get s < 2 ^ (8 / ly.cpb * (4 * ly.cpb)) := by
  have hlt : (wordCell p).get s < 2 ^ 32 := readLE_lt s.mem p 4
  rcases ly.cpb_eq with h | h <;> rw [h] <;> exact hlt

/-! ### The first level -/

variable {ly}

theorem ico_first_subset (hbn : ly.first + b + n ≤ ly.second) :
    Set.Ico (ly.first + b) (ly.first + b + n) ⊆ ly.area := by
  have hsecond := ly.second_le_third.trans ly.third_le_shadow
  rintro x ⟨hlo, hhi⟩
  exact ⟨by omega, by omega⟩

/-- Draining a word of the first level copies the regions marked in it. -/
theorem drain_firstLevel (hc : Confined ly s.mem) (hb : 4 ∣ b)
    (hb2 : ly.first + b + 4 ≤ ly.second) :
    drain (wordCell (ly.first + b)) (8 / ly.cpb)
        (fun s set => copyClick s (childOf ly ly.first 0 (ly.first + b) set)) (4 * ly.cpb) 0 s =
      sweep (Set.Ico (ly.first + b) (ly.first + b + 4)) (regionsIn ly s.mem b 4) s := by
  have hsub := ico_first_subset hb2
  by_cases hin : treeClick * ly.cpb * (b + 4) ≤ ly.first
  · have hshadow := ly.first_le_shadow
    have hchild : ∀ j < 4 * ly.cpb, childOf ly ly.first 0 (ly.first + b) j =
        treeClick * (ly.cpb * b + j) := by
      intro j hj
      rw [childOf, Nat.add_sub_cancel_left, Nat.add_zero]
      rw [shadowSpaceOffset_eq] at hshadow
      rw [treeClick_eq] at hin ⊢
      rcases ly.cpb_eq with h | h <;> rw [h] at hin hj ⊢ <;> omega
    have hprog : ∀ j < 4 * ly.cpb, ProgramRegion ly (childOf ly ly.first 0 (ly.first + b) j) := by
      intro j hj
      rw [hchild j hj]
      refine ⟨Nat.mul_mod_right _ _, ?_⟩
      rw [treeClick_eq] at hin ⊢
      rcases ly.cpb_eq with h | h <;> rw [h] at hin hj ⊢ <;> omega
    -- the copies go to the shadow space, so they have nothing to do with the word
    have hcomm : ∀ (s : TreeState) j, j < 0 + 4 * ly.cpb → True → ∀ v,
        copyClick ((wordCell (ly.first + b)).set s v) (childOf ly ly.first 0 (ly.first + b) j) =
          (wordCell (ly.first + b)).set
            (copyClick s (childOf ly ly.first 0 (ly.first + b) j)) v := by
      intro s j hj _ v
      have hr := hprog j (by omega)
      rw [copyClick_eq hr, copyClick_eq hr,
        sweep_set hsub (fun _ h => absurd h (Set.notMem_empty _))]
      exact fun r hr' => List.mem_singleton.mp hr' ▸ hr
    have hregions : ((marks (8 / ly.cpb) (4 * ly.cpb) (readLE s.mem (ly.first + b) 4)).map
        (0 + ·)).map (childOf ly ly.first 0 (ly.first + b)) = regionsIn ly s.mem b 4 := by
      rw [regionsIn, Nat.mul_comm ly.cpb 4, ← marks_readLE, List.map_map, List.map_map]
      refine List.map_congr_left fun j hj => ?_
      show childOf ly ly.first 0 (ly.first + b) (0 + j) = _
      rw [Nat.zero_add]
      exact hchild j (List.mem_range.mp (List.mem_filter.mp hj).1)
    have hvisits := foldl_copyClick (regionsIn_program ly hc hb2) s
    rw [← hregions, List.foldl_map] at hvisits
    refine (drain_eq (P := fun _ => True) (fun _ _ _ => trivial) _ _
      (fun _ _ _ _ => trivial) hcomm trivial (wordCell_lt ly (ly.first + b) s)).trans ?_
    show (wordCell (ly.first + b)).set (((marks (8 / ly.cpb) (4 * ly.cpb)
      (readLE s.mem (ly.first + b) 4)).map (0 + ·)).foldl _ s) 0 = _
    rw [hvisits, hregions, set_zero_sweep (Set.empty_subset ly.area), Set.empty_union]
  · -- the regions of this word lie beyond the program's memory: nothing is marked
    have hzero : ∀ x, b ≤ x → x < b + 4 → s.mem (ly.first + x) = 0 := by
      intro x hlo hhi
      refine hc _ (by omega) (by omega) ?_
      obtain ⟨k, hk⟩ := ly.aligned
      obtain ⟨l, hl⟩ := hb
      rw [Nat.add_sub_cancel_left]
      rw [treeClick_eq] at hin ⊢
      rcases ly.cpb_eq with h | h <;> rw [h] at hin hk ⊢ <;> omega
    have hword : readLE s.mem (ly.first + b) 4 = 0 := by
      refine readLE_eq_zero fun i hi => ?_
      rw [Nat.add_assoc]
      exact hzero (b + i) (by omega) (by omega)
    rw [drain_of_get_zero hword, regionsIn_eq_nil ly hzero, sweep_zero]
    rintro x ⟨hlo, hhi⟩
    rw [show x = ly.first + (x - ly.first) by omega]
    exact hzero _ (by omega) (by omega)

/-- A sweep that stays inside the tree keeps the marks confined. -/
theorem Confined.sweep (hc : Confined ly s.mem) (Z : Set ℕ) (rs : List ℕ) :
    Confined ly (sweep Z rs s).mem := by
  intro x hlo hhi hout
  have hsecond := ly.second_le_third.trans ly.third_le_shadow
  by_cases hx : x ∈ Z
  · exact sweep_of_mem rs s hx
  · rw [sweep_below rs s hx (by omega)]
    exact hc x hlo hhi hout

/-- **Progress of a scan.** Sweeping the next `k` bytes of the first level after `n` bytes is
    sweeping all of them; `Z` and `Z'` are what is cleared on the way. -/
theorem sweep_next (hc : Confined ly s.mem) (hZ : Z ⊆ ly.area) {k : ℕ}
    (hnk : ly.first + (b + n) + k ≤ ly.second)
    (hnext : ∀ x, b + n ≤ x → x < b + n + k → ly.first + x ∉ Z) :
    sweep Z' (regionsIn ly (sweep Z (regionsIn ly s.mem b n) s).mem (b + n) k)
        (sweep Z (regionsIn ly s.mem b n) s) =
      sweep (Z ∪ Z') (regionsIn ly s.mem b (n + k)) s := by
  have hsecond := ly.second_le_third.trans ly.third_le_shadow
  have hregions : regionsIn ly (Bitmap.sweep Z (regionsIn ly s.mem b n) s).mem (b + n) k =
      regionsIn ly s.mem (b + n) k :=
    regionsIn_congr ly fun x hlo hhi => sweep_below _ _ (hnext x hlo hhi) (by omega)
  rw [hregions, sweep_sweep hZ (regionsIn_program ly hc hnk), ← regionsIn_append]

/-- A scan may pass over bytes that are zero. -/
theorem sweep_skip (hZ : Z ⊆ ly.area) (hZ' : Z' ⊆ ly.area) {k : ℕ}
    (hzero : ∀ x, b + n ≤ x → x < b + n + k → s.mem (ly.first + x) = 0)
    (hzero' : ∀ x ∈ Z', s.mem x = 0) :
    sweep Z (regionsIn ly s.mem b n) s = sweep (Z ∪ Z') (regionsIn ly s.mem b (n + k)) s := by
  rw [regionsIn_append, regionsIn_eq_nil ly hzero, List.append_nil,
    sweep_union_zero hZ hZ' _ s hzero']

/-- **A scan of the first level** copies the regions marked in the words it scans, in order,
    and clears these words. -/
theorem scanWords_first (hc : Confined ly s.mem) {words : ℕ} (hb : 4 ∣ b)
    (hb2 : ly.first + b + 4 * words ≤ ly.second) :
    scanWords ly (fun s p set => copyClick s (childOf ly ly.first 0 p set)) words
        (ly.first + b) s =
      sweep (Set.Ico (ly.first + b) (ly.first + b + 4 * words)) (regionsIn ly s.mem b (4 * words))
        s := by
  -- after `i` words
  have hrun := foldl_range_eq (n := words)
    (f := fun s i => drain (wordCell (ly.first + b + 4 * i)) (8 / ly.cpb)
      (fun s set => copyClick s (childOf ly ly.first 0 (ly.first + b + 4 * i) set))
      (4 * ly.cpb) 0 s)
    (F := fun i => Bitmap.sweep (Set.Ico (ly.first + b) (ly.first + b + 4 * i))
      (regionsIn ly s.mem b (4 * i)) s) ?_
  · have hstart : Bitmap.sweep (Set.Ico (ly.first + b) (ly.first + b + 4 * 0))
        (regionsIn ly s.mem b (4 * 0)) s = s := by
      rw [regionsIn_eq_nil ly (fun x _ _ => absurd ‹_› (by omega)), sweep_zero]
      rintro x ⟨hlo, hhi⟩
      omega
    rw [hstart] at hrun
    exact hrun
  · intro i hi
    rw [Nat.add_assoc ly.first b, drain_firstLevel (hc.sweep _ _) (by omega) (by omega)]
    rw [← Nat.add_assoc ly.first b, sweep_next hc (ico_first_subset (b := b) (n := 4 * i)
      (by omega)) (by omega), Set.Ico_union_Ico_eq_Ico (by omega) (by omega)]
    · rfl
    · rintro x hlo _ ⟨-, hlt⟩
      omega

/-- `ltckpt_check_first_level` for mark `i` of the second level. -/
theorem checkFirstLevel_eq (hc : Confined ly s.mem)
    (hi : ly.first + treeClick * i + 4 * ly.words ≤ ly.second) :
    checkFirstLevel ly s (ly.first + treeClick * i) =
      sweep (Set.Ico (ly.first + treeClick * i) (ly.first + treeClick * i + 4 * ly.words))
        (regionsIn ly s.mem (treeClick * i) (4 * ly.words)) s :=
  scanWords_first hc (Dvd.dvd.mul_right (by decide) i) hi

/-! ### The second level -/

/-- Replacing a word beyond the first level keeps the marks confined. -/
theorem Confined.set (hc : Confined ly s.mem) {p : ℕ} (hp : ly.second ≤ p) (v : ℕ) :
    Confined ly ((wordCell p).set s v).mem := by
  intro x hlo hhi hout
  rw [← hc x hlo hhi hout]
  exact writeLE_of_outside s.mem p 4 v (by omega)

/-- **Draining a word of an upper level** visits the nodes marked in it, in order, as long as the
    visits keep `P` and have nothing to do with the word. -/
theorem drain_nodes {P : TreeState → Prop} {check : TreeState → ℕ → TreeState} {base c : ℕ}
    (hfits : base + treeClick * (ly.cpb * (c + 4)) < 2 ^ 32)
    (hset : ∀ s v, P s → P ((wordCell (level + c)).set s v))
    (hcheck : ∀ s i, ly.cpb * c ≤ i → i < ly.cpb * (c + 4) → P s →
      P (check s (base + treeClick * i)))
    (hcomm : ∀ s i, ly.cpb * c ≤ i → i < ly.cpb * (c + 4) → P s → ∀ v,
      check ((wordCell (level + c)).set s v) (base + treeClick * i) =
        (wordCell (level + c)).set (check s (base + treeClick * i)) v) (hs : P s) :
    drain (wordCell (level + c)) (8 / ly.cpb)
        (fun s set => check s (childOf ly level base (level + c) set)) (4 * ly.cpb) 0 s =
      (wordCell (level + c)).set
        (((List.range' (ly.cpb * c) (4 * ly.cpb)).filter (marked ly s.mem level)).foldl
          (fun s i => check s (base + treeClick * i)) s) 0 := by
  have hend : ly.cpb * (c + 4) = ly.cpb * c + 4 * ly.cpb := by
    rw [Nat.mul_add, Nat.mul_comm ly.cpb 4]
  have hchild : ∀ j < 4 * ly.cpb, childOf ly level base (level + c) j =
      base + treeClick * (ly.cpb * c + j) := by
    intro j hj
    have hmul : c * ly.cpb * treeClick + j * treeClick = treeClick * (ly.cpb * c + j) := by
      rw [treeClick_eq]
      rcases ly.cpb_eq with h | h <;> rw [h] <;> omega
    rw [childOf, Nat.add_sub_cancel_left, hmul, Nat.add_comm]
    rw [treeClick_eq] at hfits ⊢
    exact Nat.mod_eq_of_lt (by omega)
  refine (drain_eq hset _ _ ?_ ?_ hs (wordCell_lt ly _ s)).trans ?_
  · intro s j hj hs
    rw [hchild j (by omega)]
    exact hcheck s _ (by omega) (by omega) hs
  · intro s j hj hs v
    rw [hchild j (by omega)]
    exact hcomm s _ (by omega) (by omega) hs v
  · show (wordCell (level + c)).set (((marks (8 / ly.cpb) (4 * ly.cpb)
      (readLE s.mem (level + c) 4)).map (0 + ·)).foldl _ s) 0 = _
    rw [← marks_readLE, List.foldl_map, List.foldl_map]
    refine congrArg ((wordCell (level + c)).set · 0) (List.foldl_ext _ _ s fun t j hj => ?_)
    rw [Nat.zero_add, hchild j (List.mem_range.mp (List.mem_filter.mp hj).1)]

/-- Draining a word of the second level checks the nodes marked in it, in order. -/
theorem drain_secondLevel (hc : Confined ly s.mem) (hb : ly.second + b + 4 ≤ ly.third)
    (hnodes : ∀ i < ly.cpb * (b + 4), ly.first + treeClick * i + 4 * ly.words ≤ ly.second) :
    drain (wordCell (ly.second + b)) (8 / ly.cpb)
        (fun s set => checkFirstLevel ly s (childOf ly ly.second ly.first (ly.second + b) set))
        (4 * ly.cpb) 0 s =
      (wordCell (ly.second + b)).set
        (((List.range' (ly.cpb * b) (4 * ly.cpb)).filter (marked ly s.mem ly.second)).foldl
          (fun s i => checkFirstLevel ly s (ly.first + treeClick * i)) s) 0 := by
  have hshadow := ly.third_le_shadow
  have harea : Set.Ico (ly.second + b) (ly.second + b + 4) ⊆ ly.area := by
    have hfirst := ly.first_le_second
    rintro x ⟨hlo, hhi⟩
    exact ⟨by omega, by omega⟩
  have hfits : ly.first + treeClick * (ly.cpb * (b + 4)) < 2 ^ 32 := by
    have hlast := hnodes (ly.cpb * (b + 4) - 1)
    rw [treeClick_eq] at hlast ⊢
    rw [shadowSpaceOffset_eq] at hshadow
    rcases ly.cpb_eq with h | h <;> rw [h] at hlast ⊢ <;> omega
  refine drain_nodes (P := fun s => Confined ly s.mem) hfits
    (fun s v hs => hs.set (Nat.le_add_right _ _) v) ?_ ?_ hc
  · intro s i _ hi hs
    rw [checkFirstLevel_eq hs (hnodes i hi)]
    exact hs.sweep _ _
  · -- a check works on the first level and on the shadow space
    intro s i _ hi hs v
    have hnode := hnodes i hi
    have hregions : regionsIn ly ((wordCell (ly.second + b)).set s v).mem (treeClick * i)
        (4 * ly.words) = regionsIn ly s.mem (treeClick * i) (4 * ly.words) :=
      regionsIn_congr ly fun x _ _ => writeLE_of_outside s.mem _ 4 v (by omega)
    rw [checkFirstLevel_eq hs hnode,
      checkFirstLevel_eq (hs.set (Nat.le_add_right ly.second b) v) hnode, hregions]
    refine sweep_set harea ?_ (regionsIn_program ly hs (by omega)) s v
    rintro x ⟨-, hx⟩ ⟨hx', -⟩
    omega

end Firestarter.Bitmap
