import Firestarter.Bitmap.Sweep

namespace Firestarter.Bitmap.Tree

open FlatMem Drain
open Plain (shadowSpaceSize shadowSpaceOffset)

/-!
# The bit tree (`bitmap_tree.h`, 32-bit x86)

`ltckpt_set_bit` marks a region in all three levels.  `ltckpt_clear_bitmap` follows the marks
from the third level down, copies the marked regions to their shadows and clears what it passes.

* `setBit`, `clearBitmap` — the code;
* `bitAt_setBits` — the bits that a sequence of calls sets;
* `Linked` — every nonzero byte of a level is marked in the level above: what makes following
  the marks complete, and what the scan keeps from word to word;
* `clearBitmap_eq` — clearing a linked tree is one sweep of the whole tree.
-/

/-! ### The code -/

/-- The layout of `bitmap_tree.h`: eight clicks in a byte, four words for a mark. -/
def layout : TreeLayout := .ofClicks 8 4 (Or.inr rfl)

/-- `LTCKPT_SCHEME`. -/
inductive Scheme
  | sync
  | diff
  deriving DecidableEq, Repr

/-- `ltckpt_set_bit`: what it returns, and the memory afterwards. -/
def setBit (scheme : Scheme) (m : Mem) (a : ℕ) : ℕ × Mem :=
  let address := a / treeClick
  let bit := address &&& (layout.cpb - 1)
  let offset := address / layout.cpb
  let m := orBit m (layout.first + offset) bit
  -- second level
  let address := offset / treeClick
  let bit := address &&& (layout.cpb - 1)
  let offset := address / layout.cpb
  let m := orBit m (layout.second + offset) bit
  -- third level
  let address := offset / treeClick
  let bit := address &&& (layout.cpb - 1)
  let offset := address / layout.cpb
  let p := layout.third + offset
  let ret := match scheme with
    | .sync => 0
    | .diff => (m p).toNat &&& 1 <<< bit
  (ret, orBit m p bit)

/-- A sequence of `ltckpt_set_bit` calls. -/
def setBits (scheme : Scheme) (m : Mem) (calls : List ℕ) : Mem :=
  calls.foldl (fun m a => (setBit scheme m a).2) m

/-- `ltckpt_clear_bitmap` with `LTCKPT_SYNC_SCHEME`. -/
def clearBitmap (s : TreeState) : TreeState :=
  scanWords layout
    (fun s p set => checkSecondLevel layout s (childOf layout layout.third layout.second p set))
    (thirdLevelSize layout.cpb / 4) layout.third s

theorem layout_cpb : layout.cpb = 8 := rfl

theorem layout_words : layout.words = 4 := rfl

theorem layout_first : layout.first = 0x5F3E7000 := by decide

theorem layout_second : layout.second = 0x5FFE7000 := by decide

theorem layout_third : layout.third = 0x5FFFF000 := by decide

/-! ### The bits of a sequence of calls -/

/-- The bits that a call sets, as bytes and positions in them. -/
def bitsOf (a : ℕ) : List (ℕ × ℕ) :=
  [(layout.first + a / 2 ^ 7, a / 2 ^ 4 % 8), (layout.second + a / 2 ^ 14, a / 2 ^ 11 % 8),
    (layout.third + a / 2 ^ 21, a / 2 ^ 18 % 8)]

/-- A call sets its three bits. -/
theorem setBit_mem (scheme : Scheme) (m : Mem) (a : ℕ) :
    (setBit scheme m a).2 = (bitsOf a).foldl (fun m b => orBit m b.1 b.2) m := by
  have hand : ∀ n, n &&& (8 - 1) = n % 8 := fun n => Nat.and_two_pow_sub_one_eq_mod n 3
  simp only [setBit, bitsOf, List.foldl_cons, List.foldl_nil, layout_cpb, hand, treeClick_eq,
    Nat.div_div_eq_div_mul, Nat.reduceMul, Nat.reducePow]

theorem bitAt_setBit (scheme : Scheme) (m : Mem) (a q bit : ℕ) :
    bitAt (setBit scheme m a).2 q bit = (bitAt m q bit || decide ((q, bit) ∈ bitsOf a)) := by
  have hmod : ∀ n : ℕ, n % 8 < 8 := fun n => Nat.mod_lt n (by decide)
  have hpair : ∀ p b, decide (p = q ∧ b = bit) = decide ((q, bit) = (p, b)) := by
    intro p b
    rw [decide_eq_decide, Prod.mk.injEq]
    exact and_congr eq_comm eq_comm
  rw [setBit_mem, bitsOf]
  simp only [List.foldl_cons, List.foldl_nil, bitAt_orBit _ (hmod _), hpair, List.mem_cons,
    List.not_mem_nil, or_false, Bool.decide_or, Bool.or_assoc]

/-- After a sequence of calls a bit is set if it was or if some call sets it. -/
theorem bitAt_setBits (scheme : Scheme) (m : Mem) (calls : List ℕ) (q bit : ℕ) :
    bitAt (setBits scheme m calls) q bit =
      (bitAt m q bit || decide (∃ a ∈ calls, (q, bit) ∈ bitsOf a)) := by
  induction calls generalizing m with
  | nil => simp [setBits]
  | cons a calls ih =>
    have hstep : setBits scheme m (a :: calls) = setBits scheme (setBit scheme m a).2 calls := rfl
    rw [hstep, ih, bitAt_setBit, Bool.or_assoc, ← Bool.decide_or]
    simp only [List.mem_cons, exists_eq_or_imp]

/-! ### Linked trees -/

/-- Every nonzero byte of the first level is marked in the second. -/
def LinkedFirst (m : Mem) : Prop :=
  ∀ x < firstLevelSize 8, m (layout.first + x) ≠ 0 → marked layout m layout.second (x / 16)

/-- Every nonzero byte of the second level is marked in the third. -/
def LinkedSecond (m : Mem) : Prop :=
  ∀ x < secondLevelSize 8, m (layout.second + x) ≠ 0 → marked layout m layout.third (x / 16)

variable {x b n c : ℕ} {s : TreeState}

/-- In a linked tree the bytes below a mark that is not set are zero. -/
theorem LinkedFirst.eq_zero_of_unmarked {m : Mem} (hl : LinkedFirst m)
    (hmark : marked layout m layout.second (x / 16) = false) (hx : x < firstLevelSize 8) :
    m (layout.first + x) = 0 := by
  by_contra hnz
  exact absurd (hmark.symm.trans (hl x hx hnz)) Bool.false_ne_true

theorem LinkedSecond.eq_zero_of_unmarked {m : Mem} (hl : LinkedSecond m)
    (hmark : marked layout m layout.third (x / 16) = false) (hx : x < secondLevelSize 8) :
    m (layout.second + x) = 0 := by
  by_contra hnz
  exact absurd (hmark.symm.trans (hl x hx hnz)) Bool.false_ne_true

/-- Bytes `b` to `b + n` of the second level, and the bytes of the first level below them. -/
def subtree (b n : ℕ) : Set ℕ :=
  Set.Ico (layout.first + 128 * b) (layout.first + 128 * (b + n)) ∪
    Set.Ico (layout.second + b) (layout.second + (b + n))

theorem firstLevelSize_eq : firstLevelSize 8 = 0xC00000 := by decide

theorem secondLevelSize_eq : secondLevelSize 8 = 0x18000 := by decide

theorem thirdLevelSize_eq : thirdLevelSize 8 = 0x300 := by decide

theorem subtree_union (b n k : ℕ) : subtree b n ∪ subtree (b + n) k = subtree b (n + k) := by
  ext x
  simp only [subtree, Set.mem_union, Set.mem_Ico]
  omega

theorem subtree_zero (b : ℕ) : subtree b 0 = ∅ := by
  simp [subtree]

theorem subtree_subset (hbn : b + n ≤ secondLevelSize 8) : subtree b n ⊆ layout.area := by
  rw [secondLevelSize_eq] at hbn
  rintro x (⟨hlo, hhi⟩ | ⟨hlo, hhi⟩)
  all_goals
    simp only [layout_first, layout_second] at hlo hhi
    simp only [TreeLayout.area, Set.mem_Ico, layout_first, shadowSpaceOffset_eq]
    omega

/-- Sweeping a subtree keeps the first two levels linked. -/
theorem LinkedFirst.sweep (hl : LinkedFirst s.mem) (rs : List ℕ) (hbn : b + n ≤ secondLevelSize 8) :
    LinkedFirst (sweep (subtree b n) rs s).mem := by
  intro x hx hnz
  rw [firstLevelSize_eq] at hx
  rw [secondLevelSize_eq] at hbn
  have hsh : layout.first + x < shadowSpaceOffset ∧
      layout.second + x / 16 / 8 < shadowSpaceOffset := by
    rw [layout_first, layout_second, shadowSpaceOffset_eq]
    omega
  have hout : layout.first + x ∉ subtree b n := by
    intro hin
    exact hnz (sweep_of_mem rs s hin)
  rw [sweep_below rs s hout hsh.1] at hnz
  rw [← hl x (by rw [firstLevelSize_eq]; exact hx) hnz]
  -- a byte outside the subtree is marked by a byte outside the subtree
  refine marked_congr layout (sweep_below rs s ?_ hsh.2)
  intro hin
  refine hout ?_
  simp only [subtree, Set.mem_union, Set.mem_Ico, layout_first, layout_second, layout_cpb] at hin ⊢
  omega

/-- Draining a word of the second level sweeps the word and what lies below it. -/
theorem drain_second (hc : Confined layout s.mem) (hl : LinkedFirst s.mem)
    (hb : b + 4 ≤ secondLevelSize 8) :
    drain (wordCell (layout.second + b)) (8 / layout.cpb)
        (fun s set => checkFirstLevel layout s
          (childOf layout layout.second layout.first (layout.second + b) set))
        (4 * layout.cpb) 0 s =
      sweep (subtree b 4) (regionsIn layout s.mem (128 * b) 512) s := by
  rw [secondLevelSize_eq] at hb
  rw [drain_secondLevel hc (by rw [layout_second, layout_third]; omega)
    (by rw [layout_cpb, layout_words, layout_first, layout_second, treeClick_eq]; omega)]
  have hsub : ∀ n ≤ 512, Set.Ico (layout.first + 128 * b) (layout.first + 128 * b + n) ⊆
      layout.area := by
    intro n hn
    refine ico_first_subset ?_
    rw [layout_first, layout_second]
    omega
  -- after `j` marks, set or not, the bytes below them are swept
  have hfold := foldl_filter_range'_eq (a := layout.cpb * b) (n := 4 * layout.cpb)
    (p := marked layout s.mem layout.second)
    (f := fun s i => checkFirstLevel layout s (layout.first + treeClick * i))
    (F := fun j => Bitmap.sweep
      (Set.Ico (layout.first + 128 * b) (layout.first + 128 * b + 16 * j))
      (regionsIn layout s.mem (128 * b) (16 * j)) s) ?_ ?_
  · have hstart : Bitmap.sweep (Set.Ico (layout.first + 128 * b) (layout.first + 128 * b + 16 * 0))
        (regionsIn layout s.mem (128 * b) (16 * 0)) s = s := by
      rw [Nat.mul_zero, Nat.add_zero, Set.Ico_self]
      exact sweep_empty s
    have hcount : 16 * (4 * layout.cpb) = 512 := by rw [layout_cpb]
    have hword : subtree b 4 =
        Set.Ico (layout.first + 128 * b) (layout.first + 128 * b + 512) ∪
          Set.Ico (layout.second + b) (layout.second + b + 4) := by
      rw [subtree, Nat.mul_add, Nat.add_assoc, Nat.add_assoc]
    rw [hstart, hcount] at hfold
    rw [hfold, set_zero_sweep (hsub 512 le_rfl), hword]
  · intro j hj _
    rw [layout_cpb] at hj
    have haddr : treeClick * (layout.cpb * b + j) = 128 * b + 16 * j := by
      rw [treeClick_eq, layout_cpb]
      omega
    have hnode : layout.first + (128 * b + 16 * j) + 16 ≤ layout.second := by
      rw [layout_first, layout_second]
      omega
    have hwords : 4 * layout.words = 16 := by rw [layout_words]
    rw [checkFirstLevel_eq (hc.sweep _ _) (by rw [haddr]; exact hnode), haddr, hwords,
      sweep_next hc (hsub (16 * j) (by omega)) hnode, ← Nat.add_assoc layout.first,
      Set.Ico_union_Ico_eq_Ico (by omega) (by omega)]
    · rfl
    · rintro x hlo _ ⟨-, hlt⟩
      omega
  · intro j hj hmark
    rw [layout_cpb] at hj hmark
    have hzero : ∀ x, 128 * b + 16 * j ≤ x → x < 128 * b + 16 * j + 16 →
        s.mem (layout.first + x) = 0 := by
      intro x hlo hhi
      have hx : x / 16 = 8 * b + j := by omega
      rw [← hx] at hmark
      exact hl.eq_zero_of_unmarked hmark (by rw [firstLevelSize_eq]; omega)
    have hbytes : ∀ x ∈ Set.Ico (layout.first + 128 * b + 16 * j)
        (layout.first + 128 * b + 16 * (j + 1)), s.mem x = 0 := by
      rintro x ⟨hlo, hhi⟩
      rw [show x = layout.first + (x - layout.first) by omega]
      exact hzero _ (by omega) (by omega)
    have hstep := sweep_skip (Z := Set.Ico (layout.first + 128 * b)
      (layout.first + 128 * b + 16 * j)) (hsub (16 * j) (by omega))
      ((Set.Ico_subset_Ico_left (by omega)).trans (hsub (16 * (j + 1)) (by omega))) hzero hbytes
    rw [Set.Ico_union_Ico_eq_Ico (by omega) (by omega)] at hstep
    exact hstep

theorem not_mem_subtree (hx : 128 * (b + n) ≤ x) (hx' : x < firstLevelSize 8) :
    layout.first + x ∉ subtree b n := by
  rw [firstLevelSize_eq] at hx'
  simp only [subtree, Set.mem_union, Set.mem_Ico, layout_first, layout_second]
  omega

/-- `ltckpt_check_second_level` for mark `i` of the third level sweeps the words of the mark and
    what lies below them. -/
theorem checkSecondLevel_eq (hc : Confined layout s.mem) (hl : LinkedFirst s.mem) {i : ℕ}
    (hi : 16 * i + 16 ≤ secondLevelSize 8) :
    checkSecondLevel layout s (layout.second + 16 * i) =
      sweep (subtree (16 * i) 16) (regionsIn layout s.mem (128 * (16 * i)) 2048) s := by
  have hsize := firstLevelSize_eq
  have hsize' := secondLevelSize_eq
  -- after `w` words
  have hrun := foldl_range_eq (n := layout.words)
    (f := fun s w => drain (wordCell (layout.second + 16 * i + 4 * w)) (8 / layout.cpb)
      (fun s set => checkFirstLevel layout s
        (childOf layout layout.second layout.first (layout.second + 16 * i + 4 * w) set))
      (4 * layout.cpb) 0 s)
    (F := fun w => Bitmap.sweep (subtree (16 * i) (4 * w))
      (regionsIn layout s.mem (128 * (16 * i)) (512 * w)) s) ?_
  · have hstart : Bitmap.sweep (subtree (16 * i) (4 * 0))
        (regionsIn layout s.mem (128 * (16 * i)) (512 * 0)) s = s := by
      rw [Nat.mul_zero, subtree_zero]
      exact sweep_empty s
    rw [hstart] at hrun
    exact hrun
  · intro w hw
    rw [layout_words] at hw
    have hbytes : 128 * (16 * i + 4 * w) = 128 * (16 * i) + 512 * w := by omega
    rw [Nat.add_assoc layout.second, drain_second (hc.sweep _ _) (hl.sweep _ (by omega))
      (by omega), hbytes, sweep_next hc (subtree_subset (by omega))
      (by rw [layout_first, layout_second]; omega), subtree_union]
    · rfl
    · intro x hlo hhi
      exact not_mem_subtree (by omega) (by omega)

/-! ### The third level -/

theorem LinkedFirst.set (hl : LinkedFirst s.mem) {p : ℕ} (hp : layout.third ≤ p) (v : ℕ) :
    LinkedFirst ((wordCell p).set s v).mem := by
  have hsize := firstLevelSize_eq
  rw [layout_third] at hp
  intro x hx hnz
  have hbelow : ∀ y < layout.third, ((wordCell p).set s v).mem y = s.mem y :=
    fun y hy => writeLE_of_outside s.mem p 4 v (by rw [layout_third] at hy; omega)
  rw [hbelow _ (by rw [layout_first, layout_third]; omega)] at hnz
  rw [← hl x hx hnz]
  refine marked_congr layout (hbelow _ ?_)
  rw [layout_second, layout_third, layout_cpb]
  omega

/-- The bytes of the third level `c` to `c + n`, and what lies below them. -/
def thirdSubtree (c n : ℕ) : Set ℕ :=
  subtree (128 * c) (128 * n) ∪ Set.Ico (layout.third + c) (layout.third + (c + n))

/-- Draining a word of the third level checks the nodes marked in it, in order. -/
theorem drain_third_eq (hc : Confined layout s.mem) (hl : LinkedFirst s.mem)
    (hcs : c + 4 ≤ thirdLevelSize 8) :
    drain (wordCell (layout.third + c)) (8 / layout.cpb)
        (fun s set => checkSecondLevel layout s
          (childOf layout layout.third layout.second (layout.third + c) set))
        (4 * layout.cpb) 0 s =
      (wordCell (layout.third + c)).set
        (((List.range' (layout.cpb * c) (4 * layout.cpb)).filter
          (marked layout s.mem layout.third)).foldl
          (fun s i => checkSecondLevel layout s (layout.second + treeClick * i)) s) 0 := by
  have hsize := firstLevelSize_eq
  have hsize' := secondLevelSize_eq
  rw [thirdLevelSize_eq] at hcs
  have hnode : ∀ i < layout.cpb * (c + 4), 16 * i + 16 ≤ secondLevelSize 8 := by
    intro i hi
    rw [layout_cpb] at hi
    omega
  have hle : layout.second ≤ layout.third + c := by
    rw [layout_second, layout_third]
    omega
  have hthird : Set.Ico (layout.third + c) (layout.third + c + 4) ⊆ layout.area := by
    rintro x ⟨hlo, hhi⟩
    rw [layout_third] at hlo hhi
    simp only [TreeLayout.area, Set.mem_Ico, layout_first, shadowSpaceOffset_eq]
    omega
  refine drain_nodes (P := fun s => Confined layout s.mem ∧ LinkedFirst s.mem)
    (by rw [layout_second, treeClick_eq, layout_cpb]; omega)
    (fun s v hs => ⟨hs.1.set hle v, hs.2.set (Nat.le_add_right _ _) v⟩) ?_ ?_ ⟨hc, hl⟩
  · rintro s i _ hi ⟨hs, hs'⟩
    rw [treeClick_eq, checkSecondLevel_eq hs hs' (hnode i hi)]
    exact ⟨hs.sweep _ _, hs'.sweep _ (hnode i hi)⟩
  · -- a check works on the first two levels and on the shadow space
    rintro s i _ hi ⟨hs, hs'⟩ v
    have hfits := hnode i hi
    have hregions : regionsIn layout ((wordCell (layout.third + c)).set s v).mem
        (128 * (16 * i)) 2048 = regionsIn layout s.mem (128 * (16 * i)) 2048 := by
      refine regionsIn_congr layout fun x hlo hhi => writeLE_of_outside s.mem _ 4 v ?_
      rw [layout_first, layout_third]
      omega
    rw [treeClick_eq, checkSecondLevel_eq hs hs' hfits,
      checkSecondLevel_eq (hs.set hle v) (hs'.set (Nat.le_add_right _ _) v) hfits, hregions]
    refine sweep_set hthird ?_ (regionsIn_program layout hs ?_) s v
    · rintro x hx ⟨hlo, -⟩
      simp only [subtree, Set.mem_union, Set.mem_Ico, layout_first, layout_second] at hx
      rw [layout_third] at hlo
      omega
    · rw [layout_first, layout_second]
      omega

/-- Draining a word of the third level sweeps the word and what lies below it. -/
theorem drain_third (hc : Confined layout s.mem) (hl : LinkedFirst s.mem) (hl' : LinkedSecond s.mem)
    (hcs : c + 4 ≤ thirdLevelSize 8) :
    drain (wordCell (layout.third + c)) (8 / layout.cpb)
        (fun s set => checkSecondLevel layout s
          (childOf layout layout.third layout.second (layout.third + c) set))
        (4 * layout.cpb) 0 s =
      sweep (thirdSubtree c 4) (regionsIn layout s.mem (128 * (128 * c)) 65536) s := by
  rw [drain_third_eq hc hl hcs]
  have hsize := firstLevelSize_eq
  have hsize' := secondLevelSize_eq
  rw [thirdLevelSize_eq] at hcs
  -- after `j` marks, set or not, what lies below them is swept
  have hfold := foldl_filter_range'_eq (a := layout.cpb * c) (n := 4 * layout.cpb)
    (p := marked layout s.mem layout.third)
    (f := fun s i => checkSecondLevel layout s (layout.second + treeClick * i))
    (F := fun j => Bitmap.sweep (subtree (128 * c) (16 * j))
      (regionsIn layout s.mem (128 * (128 * c)) (2048 * j)) s) ?_ ?_
  · have hstart : Bitmap.sweep (subtree (128 * c) (16 * 0))
        (regionsIn layout s.mem (128 * (128 * c)) (2048 * 0)) s = s := by
      rw [Nat.mul_zero, subtree_zero]
      exact sweep_empty s
    have hcount : 2048 * (4 * layout.cpb) = 65536 ∧ 16 * (4 * layout.cpb) = 128 * 4 := by
      rw [layout_cpb]
      exact ⟨rfl, rfl⟩
    rw [hstart, hcount.1, hcount.2] at hfold
    rw [hfold, set_zero_sweep (subtree_subset (by omega))]
    rfl
  · intro j hj _
    rw [layout_cpb] at hj
    have haddr : 16 * (8 * c + j) = 128 * c + 16 * j := by omega
    have hbytes : 128 * (128 * c + 16 * j) = 128 * (128 * c) + 2048 * j := by omega
    rw [treeClick_eq, layout_cpb, checkSecondLevel_eq (hc.sweep _ _) (hl.sweep _ (by omega))
      (by omega), haddr, hbytes, sweep_next hc (subtree_subset (by omega))
      (by rw [layout_first, layout_second]; omega), subtree_union]
    · rfl
    · intro x hlo hhi
      exact not_mem_subtree (by omega) (by omega)
  · intro j hj hmark
    rw [layout_cpb] at hj hmark
    -- no byte of the second level below the mark, so no mark of it, so no byte of the first
    have hsecond : ∀ x, 128 * c + 16 * j ≤ x → x < 128 * c + 16 * j + 16 →
        s.mem (layout.second + x) = 0 := by
      intro x hlo hhi
      have hx : x / 16 = 8 * c + j := by omega
      rw [← hx] at hmark
      exact hl'.eq_zero_of_unmarked hmark (by omega)
    have hfirst : ∀ x, 128 * (128 * c) + 2048 * j ≤ x →
        x < 128 * (128 * c) + 2048 * j + 2048 → s.mem (layout.first + x) = 0 := by
      intro x hlo hhi
      have hbyte := hsecond (x / 16 / layout.cpb) (by rw [layout_cpb]; omega)
        (by rw [layout_cpb]; omega)
      exact hl.eq_zero_of_unmarked (marked_zero layout hbyte) (by omega)
    have hstep := sweep_skip (subtree_subset (b := 128 * c) (n := 16 * j) (by omega))
      (subtree_subset (b := 128 * c + 16 * j) (n := 16) (by omega)) hfirst ?_
    · rw [subtree_union] at hstep
      exact hstep
    · rintro x (⟨hlo, hhi⟩ | ⟨hlo, hhi⟩)
      · rw [show x = layout.first + (x - layout.first) by omega]
        exact hfirst _ (by omega) (by omega)
      · rw [show x = layout.second + (x - layout.second) by omega]
        exact hsecond _ (by omega) (by omega)

/-! ### Clearing the tree -/

/-- A linked tree: every nonzero byte of a level is marked in the level above. -/
def Linked (m : Mem) : Prop := LinkedFirst m ∧ LinkedSecond m

theorem mem_thirdSubtree : x ∈ thirdSubtree 0 c ↔
    (layout.first ≤ x ∧ x < layout.first + 16384 * c) ∨
      (layout.second ≤ x ∧ x < layout.second + 128 * c) ∨
        (layout.third ≤ x ∧ x < layout.third + c) := by
  simp only [thirdSubtree, subtree, Set.mem_union, Set.mem_Ico, layout_first, layout_second,
    layout_third]
  omega

theorem thirdSubtree_subset (hc : c ≤ thirdLevelSize 8) : thirdSubtree 0 c ⊆ layout.area := by
  rw [thirdLevelSize_eq] at hc
  intro x hx
  rw [mem_thirdSubtree, layout_first, layout_second, layout_third] at hx
  simp only [TreeLayout.area, Set.mem_Ico, layout_first, shadowSpaceOffset_eq]
  omega

theorem thirdSubtree_union (c n : ℕ) :
    thirdSubtree 0 c ∪ thirdSubtree c n = thirdSubtree 0 (c + n) := by
  ext x
  simp only [thirdSubtree, subtree, Set.mem_union, Set.mem_Ico]
  omega

/-- Sweeping the tree up to a byte of the third level keeps it linked. -/
theorem Linked.sweep (hl : Linked s.mem) (rs : List ℕ) (hc : c ≤ thirdLevelSize 8) :
    Linked (sweep (thirdSubtree 0 c) rs s).mem := by
  have hsize := firstLevelSize_eq
  have hsize' := secondLevelSize_eq
  rw [thirdLevelSize_eq] at hc
  have hbelow : ∀ y, y < shadowSpaceOffset → y ∉ thirdSubtree 0 c →
      (Bitmap.sweep (thirdSubtree 0 c) rs s).mem y = s.mem y :=
    fun y hy hout => sweep_below rs s hout hy
  refine ⟨fun x hx hnz => ?_, fun x hx hnz => ?_⟩
  · have hout : layout.first + x ∉ thirdSubtree 0 c := fun hin => hnz (sweep_of_mem rs s hin)
    rw [hbelow _ (by rw [layout_first, shadowSpaceOffset_eq]; omega) hout] at hnz
    rw [← hl.1 x hx hnz]
    rw [mem_thirdSubtree] at hout
    refine marked_congr layout (hbelow _ ?_ ?_)
    · rw [layout_second, layout_cpb, shadowSpaceOffset_eq]
      omega
    · rw [mem_thirdSubtree]
      rw [layout_first, layout_second, layout_third] at hout
      rw [layout_first, layout_second, layout_third, layout_cpb]
      omega
  · have hout : layout.second + x ∉ thirdSubtree 0 c := fun hin => hnz (sweep_of_mem rs s hin)
    rw [hbelow _ (by rw [layout_second, shadowSpaceOffset_eq]; omega) hout] at hnz
    rw [← hl.2 x hx hnz]
    rw [mem_thirdSubtree] at hout
    refine marked_congr layout (hbelow _ ?_ ?_)
    · rw [layout_third, layout_cpb, shadowSpaceOffset_eq]
      omega
    · rw [mem_thirdSubtree]
      rw [layout_first, layout_second, layout_third] at hout
      rw [layout_first, layout_second, layout_third, layout_cpb]
      omega

/-- **Clearing a linked tree** is one sweep: of the whole tree, and of every region marked in
    its first level. -/
theorem clearBitmap_eq (hc : Confined layout s.mem) (hl : Linked s.mem) :
    clearBitmap s = sweep (thirdSubtree 0 (thirdLevelSize 8))
      (regionsIn layout s.mem 0 (firstLevelSize 8)) s := by
  have hsize := firstLevelSize_eq
  have hsize' := thirdLevelSize_eq
  -- after `i` words of the third level
  have hrun := foldl_range_eq (n := thirdLevelSize layout.cpb / 4)
    (f := fun s i => drain (wordCell (layout.third + 4 * i)) (8 / layout.cpb)
      (fun s set => checkSecondLevel layout s
        (childOf layout layout.third layout.second (layout.third + 4 * i) set))
      (4 * layout.cpb) 0 s)
    (F := fun i => Bitmap.sweep (thirdSubtree 0 (4 * i))
      (regionsIn layout s.mem 0 (65536 * i)) s) ?_
  · have hstart : Bitmap.sweep (thirdSubtree 0 (4 * 0)) (regionsIn layout s.mem 0 (65536 * 0)) s =
        s := by
      have hempty : thirdSubtree 0 (4 * 0) = ∅ := by simp [thirdSubtree, subtree]
      rw [hempty]
      exact sweep_empty s
    have hcount : 4 * (thirdLevelSize layout.cpb / 4) = thirdLevelSize 8 ∧
        65536 * (thirdLevelSize layout.cpb / 4) = firstLevelSize 8 := by
      rw [layout_cpb, thirdLevelSize_eq, firstLevelSize_eq]
      exact ⟨rfl, rfl⟩
    rw [hstart, hcount.1, hcount.2] at hrun
    exact hrun
  · intro i hi
    rw [layout_cpb, thirdLevelSize_eq] at hi
    have hl' := hl.sweep (c := 4 * i) (regionsIn layout s.mem 0 (65536 * i)) (by omega)
    have hbytes : 128 * (128 * (4 * i)) = 0 + 65536 * i := by omega
    rw [drain_third (hc.sweep _ _) hl'.1 hl'.2 (by omega), hbytes,
      sweep_next hc (thirdSubtree_subset (by omega)) (by rw [layout_first, layout_second]; omega),
      thirdSubtree_union]
    · rfl
    · intro x hlo hhi
      rw [mem_thirdSubtree, layout_first, layout_second, layout_third]
      omega

/-! ### Synchronisation -/

/-- The bytes of the three levels. -/
def InTree (x : ℕ) : Prop := layout.first ≤ x ∧ x < layout.first + treeSize layout.cpb

/-- All three levels are zero. -/
def TreeZero (m : Mem) : Prop := ∀ x, InTree x → m x = 0

theorem inTree_iff : InTree x ↔ 0x5F3E7000 ≤ x ∧ x < 0x5FFFF300 := by
  have hsize : treeSize layout.cpb = 0xC18300 := by decide
  rw [InTree, layout_first, hsize]

theorem mem_thirdSubtree_iff : x ∈ thirdSubtree 0 (thirdLevelSize 8) ↔ InTree x := by
  rw [mem_thirdSubtree, inTree_iff, thirdLevelSize_eq, layout_first, layout_second, layout_third]
  omega

section Calls

variable {scheme : Scheme} {m : Mem} {calls : List ℕ}

/-- A nonzero byte of the tree holds a bit of some call. -/
theorem exists_call (hzero : TreeZero m) {x : ℕ} (hx : InTree x)
    (hnz : setBits scheme m calls x ≠ 0) : ∃ a ∈ calls, ∃ bit, (x, bit) ∈ bitsOf a := by
  by_contra hno
  refine hnz (eq_zero_of_bitAt fun bit _ => ?_)
  rw [bitAt_setBits, bitAt, hzero x hx, Bool.or_eq_false_iff]
  refine ⟨Nat.zero_testBit bit, decide_eq_false ?_⟩
  rintro ⟨a, ha, hbit⟩
  exact hno ⟨a, ha, bit, hbit⟩

theorem marked_of_call {level i a : ℕ} (ha : a ∈ calls) (hbit : (level + i / 8, i % 8) ∈ bitsOf a) :
    marked layout (setBits scheme m calls) level i = true := by
  show bitAt _ (level + i / 8) (1 * (i % 8)) = true
  rw [Nat.one_mul, bitAt_setBits, Bool.or_eq_true]
  exact Or.inr (decide_eq_true ⟨a, ha, hbit⟩)

theorem mem_bitsOf {a q bit : ℕ} : (q, bit) ∈ bitsOf a ↔
    (q = 0x5F3E7000 + a / 128 ∧ bit = a / 16 % 8) ∨
      (q = 0x5FFE7000 + a / 16384 ∧ bit = a / 2048 % 8) ∨
        (q = 0x5FFFF000 + a / 2097152 ∧ bit = a / 262144 % 8) := by
  simp only [bitsOf, List.mem_cons, List.not_mem_nil, or_false, Prod.mk.injEq, layout_first,
    layout_second, layout_third, Nat.reducePow]

/-- Calls with addresses below the tree change nothing but the tree. -/
theorem setBits_of_not_inTree (scheme : Scheme) (m : Mem) (hcalls : ∀ a ∈ calls, a < layout.first)
    {x : ℕ} (hx : ¬ InTree x) : setBits scheme m calls x = m x := by
  rw [inTree_iff] at hx
  induction calls generalizing m with
  | nil => rfl
  | cons a calls ih =>
    have hlt := hcalls a (List.mem_cons_self ..)
    rw [layout_first] at hlt
    have hstep : setBits scheme m (a :: calls) = setBits scheme (setBit scheme m a).2 calls := rfl
    rw [hstep, ih _ fun b hb => hcalls b (List.mem_cons_of_mem a hb), setBit_mem, bitsOf]
    simp only [List.foldl_cons, List.foldl_nil, layout_first, layout_second, layout_third,
      Nat.reducePow]
    rw [orBit_of_ne _ _ (by omega), orBit_of_ne _ _ (by omega), orBit_of_ne _ _ (by omega)]

variable (hzero : TreeZero m) (hcalls : ∀ a ∈ calls, a < layout.first)
include hzero hcalls

theorem confined_setBits : Confined layout (setBits scheme m calls) := by
  intro x hlo hhi hout
  rw [layout_first] at hlo hout
  rw [layout_second] at hhi
  rw [treeClick_eq, layout_cpb] at hout
  by_contra hnz
  obtain ⟨a, ha, bit, hbit⟩ := exists_call hzero (inTree_iff.mpr (by omega)) hnz
  have hlt := hcalls a ha
  rw [layout_first] at hlt
  rw [mem_bitsOf] at hbit
  omega

theorem linked_setBits : Linked (setBits scheme m calls) := by
  refine ⟨fun x hx hnz => ?_, fun x hx hnz => ?_⟩
  · rw [firstLevelSize_eq] at hx
    rw [layout_first] at hnz
    obtain ⟨a, ha, bit, hbit⟩ := exists_call hzero (inTree_iff.mpr (by omega)) hnz
    have hlt := hcalls a ha
    rw [layout_first] at hlt
    rw [mem_bitsOf] at hbit
    have hbyte : a / 128 = x := by omega
    have hmark : a / 2048 = x / 16 := by rw [← hbyte, Nat.div_div_eq_div_mul]
    have hmark' : a / 16384 = x / 16 / 8 := by rw [← hmark, Nat.div_div_eq_div_mul]
    -- the same call has marked the second level
    refine marked_of_call ha (mem_bitsOf.mpr (.inr (.inl ?_)))
    rw [layout_second, hmark, hmark']
    exact ⟨rfl, rfl⟩
  · rw [secondLevelSize_eq] at hx
    rw [layout_second] at hnz
    obtain ⟨a, ha, bit, hbit⟩ := exists_call hzero (inTree_iff.mpr (by omega)) hnz
    have hlt := hcalls a ha
    rw [layout_first] at hlt
    rw [mem_bitsOf] at hbit
    have hbyte : a / 16384 = x := by omega
    have hmark : a / 262144 = x / 16 := by rw [← hbyte, Nat.div_div_eq_div_mul]
    have hmark' : a / 2097152 = x / 16 / 8 := by rw [← hmark, Nat.div_div_eq_div_mul]
    refine marked_of_call ha (mem_bitsOf.mpr (.inr (.inr ?_)))
    rw [layout_third, hmark, hmark']
    exact ⟨rfl, rfl⟩

/-- The regions marked in the first level are those of the calls. -/
theorem mem_regionsIn_setBits {r : ℕ} :
    r ∈ regionsIn layout (setBits scheme m calls) 0 (firstLevelSize 8) ↔
      ∃ a ∈ calls, addrToRegion treeClick a = r := by
  rw [regionsIn, List.mem_map]
  constructor
  · rintro ⟨i, hi, rfl⟩
    obtain ⟨hrange, hmark⟩ := List.mem_filter.mp hi
    have hi' := List.mem_range'_1.mp hrange
    rw [layout_cpb, firstLevelSize_eq] at hi'
    have hbit : bitAt (setBits scheme m calls) (layout.first + i / 8) (1 * (i % 8)) = true := hmark
    rw [Nat.one_mul, bitAt_setBits, bitAt, hzero _ (inTree_iff.mpr (by rw [layout_first]; omega)),
      Bool.or_eq_true] at hbit
    rcases hbit with hbit | hbit
    · exact absurd hbit (by rw [show (0 : UInt8).toNat = 0 from rfl, Nat.zero_testBit]; decide)
    · obtain ⟨a, ha, hmem⟩ := of_decide_eq_true hbit
      have hlt := hcalls a ha
      rw [layout_first] at hlt hmem
      rw [mem_bitsOf] at hmem
      refine ⟨a, ha, ?_⟩
      rw [addrToRegion, treeClick_eq]
      omega
  · rintro ⟨a, ha, rfl⟩
    have hlt := hcalls a ha
    rw [layout_first] at hlt
    refine ⟨a / 16, List.mem_filter.mpr ⟨List.mem_range'_1.mpr ?_, ?_⟩, ?_⟩
    · rw [layout_cpb, firstLevelSize_eq]
      omega
    · refine marked_of_call ha (mem_bitsOf.mpr ?_)
      rw [layout_first]
      omega
    · rw [addrToRegion, treeClick_eq]
      omega

end Calls

/-- **Synchronisation is exact.** After any calls of `ltckpt_set_bit` with addresses below the
    bitmap on an all-zero tree, `ltckpt_clear_bitmap` copies each marked region once and no
    other, leaves all three levels zero, and changes nothing but the tree and the shadows of
    these regions. -/
theorem clearBitmap_exact (m : Mem) (calls : List ℕ) (hzero : TreeZero m)
    (hcalls : ∀ a ∈ calls, a < layout.first) :
    let s := clearBitmap ⟨setBits .sync m calls, []⟩
    s.copied.Nodup ∧ (∀ r, r ∈ s.copied ↔ ∃ a ∈ calls, addrToRegion treeClick a = r) ∧
      TreeZero s.mem ∧ ∀ x, ¬ InTree x → s.mem x = syncRegions m s.copied x := by
  have heq := clearBitmap_eq (s := ⟨setBits .sync m calls, []⟩)
    (confined_setBits hzero hcalls) (linked_setBits hzero hcalls)
  have hcopied : (clearBitmap ⟨setBits .sync m calls, []⟩).copied =
      regionsIn layout (setBits .sync m calls) 0 (firstLevelSize 8) := by
    rw [heq]
    rfl
  have hprogram : ∀ r ∈ regionsIn layout (setBits .sync m calls) 0 (firstLevelSize 8),
      ProgramRegion layout r :=
    regionsIn_program layout (confined_setBits hzero hcalls)
      (by rw [layout_first, layout_second, firstLevelSize_eq])
  refine ⟨hcopied ▸ regionsIn_nodup layout _ _ _,
    fun r => hcopied ▸ mem_regionsIn_setBits hzero hcalls, fun x hx => ?_, fun x hx => ?_⟩
  · rw [heq, sweep_of_mem _ _ (mem_thirdSubtree_iff.mpr hx)]
  · rw [hcopied, heq, sweep_of_not_mem _ _ (fun h => hx (mem_thirdSubtree_iff.mp h))]
    -- neither the byte nor what may be copied to it is a byte of the tree
    have hsame : ∀ {y}, ¬ InTree y → setBits .sync m calls y = m y :=
      setBits_of_not_inTree .sync m hcalls
    exact syncRegions_congr hprogram
      (fun y hy => hsame fun hin => absurd hin.1 (Nat.not_le.mpr hy)) (hsame hx)

/-- Two calls for the region at 16, one for the last region below the bitmap. -/
theorem clearBitmap_exact_three :
    let s := clearBitmap ⟨setBits .sync (fun _ => 0) [0x14, 0x5F3E6FFF, 0x1F], []⟩
    s.copied.Nodup ∧ 0x10 ∈ s.copied ∧ 0x5F3E6FF0 ∈ s.copied ∧ 0x20 ∉ s.copied ∧
      TreeZero s.mem := by
  have hexact := clearBitmap_exact (fun _ => 0) [0x14, 0x5F3E6FFF, 0x1F] (fun _ _ => rfl)
    (by decide)
  refine ⟨hexact.1, (hexact.2.1 _).mpr ⟨0x14, by decide, by decide⟩,
    (hexact.2.1 _).mpr ⟨0x5F3E6FFF, by decide, by decide⟩, ?_, hexact.2.2.1⟩
  rw [hexact.2.1]
  decide

end Firestarter.Bitmap.Tree
