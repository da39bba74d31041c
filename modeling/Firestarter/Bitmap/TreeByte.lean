import Firestarter.Bitmap.Sweep

namespace Firestarter.Bitmap.TreeByte

open FlatMem Drain
open Plain (shadowSpaceOffset)

/-!
# The byte tree (`bitmap_tree_byte.h` with `LTCKPT_SYNC_SCHEME`, 32-bit x86)

Every mark is a byte.  The check functions scan 16 words, the bytes of four marks, so the scans
of neighbouring marks overlap; and `ltckpt_clear_bitmap` reads the bytes of the third level but
never clears them.

* `setBit`, `clearBitmap` — the code;
* `clearBitmap_third` — a third level that is not zero is not zero afterwards;
* `Scanned` — where a scan stands: a prefix of the first two levels is swept, and the regions
  marked in it are copied;
* `clear_round` — every round of calls and clearing copies the regions of its calls, each once,
  whatever marks of earlier rounds the third level still holds;
* `clearBitmap_iff` — the tree is zero afterwards only if there was no call.
-/

/-! ### The code -/

/-- The layout of `bitmap_tree_byte.h`: one click in a byte, 16 words for a mark. -/
def layout : TreeLayout := .ofClicks 1 16 (Or.inl rfl)

/-- `ltckpt_set_bit`: three bytes become one (it returns zero). -/
def setBit (m : Mem) (a : ℕ) : Mem :=
  let address := a >>> 4
  let m := write m (address + layout.first) [1]
  let address := address >>> 4
  let m := write m (address + layout.second) [1]
  let address := address >>> 4
  write m (address + layout.third) [1]

/-- A sequence of `ltckpt_set_bit` calls. -/
def setBits (m : Mem) (calls : List ℕ) : Mem := calls.foldl setBit m

/-- `ltckpt_clear_bitmap`: check the second level below every byte of the third that is set. -/
def clearBitmap (s : TreeState) : TreeState :=
  (List.range (thirdLevelSize layout.cpb)).foldl
    (fun s t => if s.mem (layout.third + t) ≠ 0 then
        checkSecondLevel layout s ((t * 16 + layout.second) % 2 ^ 32)
      else s) s

theorem layout_cpb : layout.cpb = 1 := rfl

theorem layout_words : layout.words = 16 := rfl

theorem layout_first : layout.first = 0x599A0000 := by decide

theorem layout_second : layout.second = 0x5F9A0000 := by decide

theorem layout_third : layout.third = 0x5FFA0000 := by decide

theorem thirdLevelSize_eq : thirdLevelSize layout.cpb = 0x60000 := by decide

/-! ### The bytes of a sequence of calls -/

/-- The bytes that a call sets. -/
def bytesOf (a : ℕ) : List ℕ :=
  [layout.first + a / 2 ^ 4, layout.second + a / 2 ^ 8, layout.third + a / 2 ^ 12]

variable {x t f₂ f₁ : ℕ} {u : TreeState}

theorem mem_bytesOf {a : ℕ} : x ∈ bytesOf a ↔
    x = 0x599A0000 + a / 16 ∨ x = 0x5F9A0000 + a / 256 ∨ x = 0x5FFA0000 + a / 4096 := by
  simp only [bytesOf, List.mem_cons, List.not_mem_nil, or_false, layout_first, layout_second,
    layout_third, Nat.reducePow]

theorem write_one (m : Mem) (p x : ℕ) : write m p [1] x = if x = p then 1 else m x := by
  by_cases hx : x = p
  · rw [if_pos hx, hx, write_of_inside _ _ _ le_rfl (by simp), Nat.sub_self, List.getD_cons_zero]
  · rw [if_neg hx, write_of_outside _ _ _ (by rw [List.length_singleton]; omega)]

theorem writeOnes_apply (m : Mem) (ps : List ℕ) (x : ℕ) :
    ps.foldl (fun m p => write m p [1]) m x = if x ∈ ps then 1 else m x := by
  induction ps generalizing m with
  | nil => rfl
  | cons p ps ih =>
    rw [List.foldl_cons, ih, write_one]
    by_cases hp : x = p <;> by_cases hps : x ∈ ps <;> simp [hp, hps]

theorem setBit_apply (m : Mem) (a x : ℕ) : setBit m a x = if x ∈ bytesOf a then 1 else m x := by
  have hbytes : setBit m a = (bytesOf a).foldl (fun m p => write m p [1]) m := by
    simp only [setBit, bytesOf, List.foldl_cons, List.foldl_nil, Nat.shiftRight_eq_div_pow,
      Nat.div_div_eq_div_mul, Nat.add_comm, Nat.reducePow, Nat.reduceMul]
  rw [hbytes, writeOnes_apply]

/-- After a sequence of calls a byte is one if some call sets it. -/
theorem setBits_apply (m : Mem) (calls : List ℕ) (x : ℕ) :
    setBits m calls x = if ∃ a ∈ calls, x ∈ bytesOf a then 1 else m x := by
  induction calls generalizing m with
  | nil => simp [setBits]
  | cons a calls ih =>
    have hstep : setBits m (a :: calls) = setBits (setBit m a) calls := rfl
    rw [hstep, ih, setBit_apply]
    simp only [List.mem_cons, exists_eq_or_imp]
    by_cases ha : x ∈ bytesOf a <;> by_cases hrest : ∃ b ∈ calls, x ∈ bytesOf b <;>
      simp [ha, hrest]

/-! ### The third level -/

/-- What a scan of words leaves alone: bytes outside the words that no visit changes. -/
theorem scanWords_keeps {visit : TreeState → ℕ → ℕ → TreeState} {words node : ℕ}
    (hout : x < node ∨ node + 4 * words ≤ x)
    (hvisit : ∀ s, ∀ i < words, ∀ k < 4, (visit s (node + 4 * i) k).mem x = s.mem x)
    (s : TreeState) : (scanWords layout visit words node s).mem x = s.mem x := by
  refine foldl_range_inv (I := fun _ (t : TreeState) => t.mem x = s.mem x) (fun i hi t ht => ?_) rfl
  refine drain_keeps (P := fun t : TreeState => t.mem x = s.mem x) (fun t v ht => ?_) _ _
    (fun t k hk ht => ?_) ht
  · exact (writeLE_of_outside t.mem _ 4 v (by omega)).trans ht
  · exact (hvisit t i hi k (by rw [layout_cpb] at hk; omega)).trans ht

theorem checkFirstLevel_keeps (s : TreeState) {fl : ℕ}
    (hfl : layout.first ≤ fl ∧ fl ≤ layout.second + 0x400) (hx : x < shadowSpaceOffset)
    (hout : fl + 64 ≤ x) : (checkFirstLevel layout s fl).mem x = s.mem x := by
  have hend : fl + 4 * layout.words ≤ x := by
    rw [layout_words]
    exact hout
  rw [checkFirstLevel]
  refine scanWords_keeps (Or.inr hend) (fun s i hi k hk => ?_) s
  -- the copies go to the shadow space
  refine copyClick_keeps s ?_
  rw [layout_words] at hi
  rw [layout_first, layout_second] at hfl
  rw [shadowSpaceOffset_eq] at hx
  rw [childOf, layout_first, layout_cpb, treeClick_eq, shadowSpaceOffset_eq]
  omega

/-- Checking a mark of the third level leaves the third level beyond its words alone. -/
theorem checkSecondLevel_keeps (s : TreeState) (ht : t < 0x60000) (hlo : layout.third ≤ x)
    (hx : x < shadowSpaceOffset) (hout : layout.second + 16 * t + 64 ≤ x) :
    (checkSecondLevel layout s ((t * 16 + layout.second) % 2 ^ 32)).mem x = s.mem x := by
  have hnode : (t * 16 + layout.second) % 2 ^ 32 = layout.second + 16 * t := by
    rw [layout_second]
    omega
  have hend : layout.second + 16 * t + 4 * layout.words ≤ x := by
    rw [layout_words]
    exact hout
  rw [hnode, checkSecondLevel]
  rw [layout_third] at hlo
  refine scanWords_keeps (Or.inr hend) (fun s i hi k hk => ?_) s
  rw [layout_words] at hi
  refine checkFirstLevel_keeps s ?_ hx ?_ <;>
    rw [childOf, layout_first, layout_second, layout_cpb, treeClick_eq] <;> omega

/-- The loop of `ltckpt_clear_bitmap`, by what each byte of the third level keeps. -/
theorem clearBitmap_inv {I : ℕ → TreeState → Prop} {s : TreeState}
    (hset : ∀ t < 0x60000, ∀ u, I t u → u.mem (layout.third + t) ≠ 0 →
      I (t + 1) (checkSecondLevel layout u ((t * 16 + layout.second) % 2 ^ 32)))
    (hclear : ∀ t < 0x60000, ∀ u, I t u → u.mem (layout.third + t) = 0 → I (t + 1) u)
    (hs : I 0 s) : I 0x60000 (clearBitmap s) := by
  rw [clearBitmap, thirdLevelSize_eq]
  refine foldl_range_inv (fun t ht u hu => ?_) hs
  by_cases hne : u.mem (layout.third + t) ≠ 0
  · rw [if_pos hne]
    exact hset t ht u hu hne
  · rw [if_neg hne]
    exact hclear t ht u hu (not_not.mp hne)

/-- **The third level is never cleared.** If one of its bytes is set, one is set afterwards. -/
theorem clearBitmap_third {s : TreeState} (hset : ∃ t < 0x60000, s.mem (layout.third + t) ≠ 0) :
    ∃ t < 0x60000, (clearBitmap s).mem (layout.third + t) ≠ 0 := by
  have hthird : ∀ t < 0x60000, layout.third + t < shadowSpaceOffset := by
    intro t ht
    rw [layout_third, shadowSpaceOffset_eq]
    omega
  have hend : ∀ t < 0x60000, layout.second + 16 * t + 64 ≤ layout.third + 48 := by
    intro t ht
    rw [layout_second, layout_third]
    omega
  have hlow : ∀ t < 48, layout.second + 16 * t + 64 ≤ layout.third := by
    intro t ht
    rw [layout_second, layout_third]
    omega
  by_cases hhigh : ∃ t < 0x60000, 48 ≤ t ∧ s.mem (layout.third + t) ≠ 0
  · -- the scans of the second level reach at most 48 bytes into the third
    obtain ⟨t, ht, h48, hnz⟩ := hhigh
    refine ⟨t, ht, ?_⟩
    have hkeep : (clearBitmap s).mem (layout.third + t) = s.mem (layout.third + t) := by
      refine clearBitmap_inv (I := fun _ u => u.mem (layout.third + t) = s.mem (layout.third + t))
        (fun i hi u hu _ => ?_) (fun i hi u hu _ => hu) rfl
      have hreach := hend i hi
      rw [← hu]
      exact checkSecondLevel_keeps u hi (Nat.le_add_right _ _) (hthird t ht) (by omega)
    rwa [hkeep]
  · -- only the first bytes are set, and their scans stay in the second level
    obtain ⟨t, ht, hnz⟩ := hset
    refine ⟨t, ht, ?_⟩
    have hkeep := clearBitmap_inv (s := s)
      (I := fun _ u => ∀ i < 0x60000, u.mem (layout.third + i) = s.mem (layout.third + i))
      (fun i hi u hu hne j hj => ?_) (fun i hi u hu _ => hu) fun i _ => rfl
    · rwa [hkeep t ht]
    · have hsmall : i < 48 := by
        by_contra hge
        exact hhigh ⟨i, hi, by omega, by rwa [hu i hi] at hne⟩
      have hreach := hlow i hsmall
      rw [← hu j hj]
      exact checkSecondLevel_keeps u hi (Nat.le_add_right _ _) (hthird j hj) (by omega)

/-! ### The frontier of a scan -/

/-- The number of third-level marks of the program's memory. -/
def usedMarks : ℕ := 0x599A0

/-- A tree as the calls for program addresses leave it: every nonzero byte of a level is marked
    in the level above, and only marks of the program's memory are set. -/
structure Linked (m : Mem) : Prop where
  confined : Confined layout m
  first : ∀ x < 0x6000000, m (layout.first + x) ≠ 0 → marked layout m layout.second (x / 16)
  second : ∀ x < 0x600000, m (layout.second + x) ≠ 0 → m (layout.third + x / 16) ≠ 0
  third : ∀ t < 0x60000, m (layout.third + t) ≠ 0 → t < usedMarks

/-- The first `f₂` bytes of the second level and the first `f₁` bytes of the first. -/
abbrev upTo (f₂ f₁ : ℕ) : Set ℕ :=
  Set.Ico layout.second (layout.second + f₂) ∪ Set.Ico layout.first (layout.first + f₁)

/-- The state in which `f₂` bytes of the second level and `f₁` bytes of the first are swept. -/
noncomputable def swept (s : TreeState) (f₂ f₁ : ℕ) : TreeState :=
  sweep (upTo f₂ f₁) (regionsIn layout s.mem 0 f₁) s

/-- A scan that has passed `f₂` bytes of the second level: it has passed what lies below them in
    the first level, and at most three marks more. -/
def Scanned (s : TreeState) (f₂ lo : ℕ) (u : TreeState) : Prop :=
  ∃ f₁, lo ≤ f₁ ∧ f₁ ≤ lo + 48 ∧ u = swept s f₂ f₁

variable {s : TreeState}

theorem swept_area (h₂ : f₂ ≤ 0x600000) (h₁ : f₁ ≤ 0x6000000) : upTo f₂ f₁ ⊆ layout.area := by
  rintro x (⟨hlo, hhi⟩ | ⟨hlo, hhi⟩)
  all_goals
    simp only [layout_first, layout_second] at hlo hhi
    simp only [TreeLayout.area, Set.mem_Ico, layout_first, shadowSpaceOffset_eq]
    omega

/-- Bytes beyond the frontier are as they were. -/
theorem swept_mem (hx : x < shadowSpaceOffset)
    (hout : ¬ (layout.second ≤ x ∧ x < layout.second + f₂) ∧
      ¬ (layout.first ≤ x ∧ x < layout.first + f₁)) : (swept s f₂ f₁).mem x = s.mem x :=
  sweep_below _ _ (fun h => h.elim hout.1 hout.2) hx

theorem swept_confined (hc : Confined layout s.mem) (f₂ f₁ : ℕ) :
    Confined layout (swept s f₂ f₁).mem :=
  hc.sweep _ _

/-- The frontier may pass over bytes that are zero. -/
theorem swept_extend {f₂' f₁' : ℕ} (h₂ : f₂ ≤ f₂') (h₁ : f₁ ≤ f₁') (hf₂ : f₂' ≤ 0x600000)
    (hf₁ : f₁' ≤ 0x6000000) (hz₂ : ∀ x, f₂ ≤ x → x < f₂' → s.mem (layout.second + x) = 0)
    (hz₁ : ∀ x, f₁ ≤ x → x < f₁' → s.mem (layout.first + x) = 0) :
    swept s f₂ f₁ = swept s f₂' f₁' := by
  obtain ⟨k, rfl⟩ := Nat.exists_eq_add_of_le h₁
  have hset : upTo f₂' (f₁ + k) = upTo f₂ f₁ ∪
      (Set.Ico (layout.second + f₂) (layout.second + f₂') ∪
        Set.Ico (layout.first + f₁) (layout.first + (f₁ + k))) := by
    ext x
    simp only [Set.mem_union, Set.mem_Ico]
    omega
  rw [swept, swept, hset]
  refine sweep_skip (swept_area (h₂.trans hf₂) (by omega)) ?_ ?_ ?_
  · refine Set.Subset.trans ?_ (swept_area hf₂ hf₁)
    rw [hset]
    exact Set.subset_union_right
  · intro x hlo hhi
    exact hz₁ x (by omega) (by omega)
  · rintro x (⟨hlo, hhi⟩ | ⟨hlo, hhi⟩)
    · rw [show x = layout.second + (x - layout.second) by omega]
      exact hz₂ _ (by omega) (by omega)
    · rw [show x = layout.first + (x - layout.first) by omega]
      exact hz₁ _ (by omega) (by omega)

/-- Checking a mark moves the frontier of the first level to the end of its words. -/
theorem swept_checkFirstLevel (hc : Confined layout s.mem) {i : ℕ} (hf₂ : f₂ ≤ 0x600000)
    (hlo : 16 * i ≤ f₁) (hhi : f₁ ≤ 16 * i + 48) (hi : i < 0x5FFFF0) :
    checkFirstLevel layout (swept s f₂ f₁) (layout.first + treeClick * i) =
      swept s f₂ (16 * i + 64) := by
  have hwords : 4 * layout.words = 64 := by rw [layout_words]
  have hnode : layout.first + treeClick * i + 4 * layout.words ≤ layout.second := by
    rw [layout_first, layout_second, layout_words, treeClick_eq]
    omega
  rw [checkFirstLevel_eq (swept_confined hc f₂ f₁) hnode, hwords, treeClick_eq]
  -- what the scan meets again is zero
  have hregions : regionsIn layout (swept s f₂ f₁).mem (16 * i) 64 =
      regionsIn layout (swept s f₂ f₁).mem (0 + f₁) (16 * i + 64 - f₁) := by
    have hsplit := regionsIn_append layout (swept s f₂ f₁).mem (16 * i) (f₁ - 16 * i)
      (16 * i + 64 - f₁)
    rw [show f₁ - 16 * i + (16 * i + 64 - f₁) = 64 by omega,
      show 16 * i + (f₁ - 16 * i) = 0 + f₁ by omega] at hsplit
    rw [hsplit, regionsIn_eq_nil layout ?_, List.nil_append]
    intro x hx hx'
    exact sweep_of_mem _ _ (Or.inr ⟨by omega, by omega⟩)
  have hset : upTo f₂ (16 * i + 64) =
      upTo f₂ f₁ ∪ Set.Ico (layout.first + 16 * i) (layout.first + 16 * i + 64) := by
    ext x
    simp only [Set.mem_union, Set.mem_Ico]
    omega
  have hle : f₁ ≤ 0x6000000 := by omega
  have hfit : layout.first + (0 + f₁) + (16 * i + 64 - f₁) ≤ layout.second := by
    rw [layout_first, layout_second]
    omega
  rw [hregions]
  refine (sweep_next hc (swept_area hf₂ hle) hfit fun x hx hx' => ?_).trans ?_
  · simp only [Set.mem_union, Set.mem_Ico, layout_first, layout_second]
    omega
  · rw [swept, hset, show f₁ + (16 * i + 64 - f₁) = 16 * i + 64 by omega]

/-- Draining the word at the frontier of the second level moves it past the word. -/
theorem scanned_drain (hl : Linked s.mem) {b : ℕ} (hb : b < 0x5FFFC0)
    (hu : Scanned s b (16 * b) u) :
    Scanned s (b + 4) (16 * (b + 4)) (drain (wordCell (layout.second + b)) (8 / layout.cpb)
      (fun s set => checkFirstLevel layout s
        (childOf layout layout.second layout.first (layout.second + b) set))
      (4 * layout.cpb) 0 u) := by
  obtain ⟨f₁, hlo, hhi, rfl⟩ := hu
  have hnodes : ∀ i < layout.cpb * (b + 4),
      layout.first + treeClick * i + 4 * layout.words ≤ layout.second := by
    intro i hi
    rw [layout_cpb] at hi
    rw [layout_first, layout_second, layout_words, treeClick_eq]
    omega
  have hfits : layout.second + b + 4 ≤ layout.third := by
    rw [layout_second, layout_third]
    omega
  rw [drain_secondLevel (swept_confined hl.confined b f₁) hfits hnodes]
  -- after `j` marks of the word
  have hmarks := foldl_filter_range'_inv (a := layout.cpb * b) (n := 4 * layout.cpb)
    (p := marked layout (swept s b f₁).mem layout.second)
    (f := fun s i => checkFirstLevel layout s (layout.first + treeClick * i))
    (I := fun j u => Scanned s b (16 * (b + j)) u) ?_ ?_ (s := swept s b f₁)
    ⟨f₁, by omega, by omega, rfl⟩
  · obtain ⟨f, hflo, hfhi, heq⟩ := hmarks
    rw [layout_cpb] at hflo hfhi
    refine ⟨f, by omega, by omega, ?_⟩
    rw [heq, swept, set_zero_sweep (swept_area (by omega) (by omega)), swept]
    congr 1
    ext x
    simp only [Set.mem_union, Set.mem_Ico]
    omega
  · rintro j hj - u ⟨f, hflo, hfhi, rfl⟩
    rw [layout_cpb] at hj
    refine ⟨16 * (b + j) + 64, by omega, by omega, ?_⟩
    rw [layout_cpb, Nat.one_mul]
    exact swept_checkFirstLevel hl.confined (by omega) hflo hfhi (by omega)
  · rintro j hj hmark u ⟨f, hflo, hfhi, rfl⟩
    rw [layout_cpb] at hj hmark
    rw [Nat.one_mul] at hmark
    -- a mark that is not set has no bytes below it
    have hzero : ∀ x, 16 * (b + j) ≤ x → x < 16 * (b + j) + 16 →
        s.mem (layout.first + x) = 0 := by
      intro x hx hx'
      by_contra hnz
      have hset := hl.first x (by omega) hnz
      have hbyte : (swept s b f₁).mem (layout.second + (b + j)) =
          s.mem (layout.second + (b + j)) := by
        refine swept_mem ?_ ⟨by omega, ?_⟩
        · rw [layout_second, shadowSpaceOffset_eq]
          omega
        · rw [layout_first, layout_second]
          omega
      rw [show x / 16 = b + j by omega, ← marked_congr layout (m := (swept s b f₁).mem)
        (by rw [layout_cpb, Nat.div_one]; exact hbyte), hmark] at hset
      exact absurd hset Bool.false_ne_true
    by_cases hf : 16 * (b + j + 1) ≤ f
    · exact ⟨f, by omega, by omega, rfl⟩
    · refine ⟨16 * (b + j + 1), by omega, by omega, ?_⟩
      exact swept_extend le_rfl (by omega) (by omega) (by omega)
        (fun x hx hx' => absurd hx' (by omega)) fun x hx hx' => hzero x (by omega) (by omega)

/-- Where a scan of the third level stands: the frontier of the second level is a word at or
    after `lo`, at most three marks further. -/
def Passed (s : TreeState) (lo : ℕ) (u : TreeState) : Prop :=
  ∃ f₂, lo ≤ f₂ ∧ f₂ ≤ lo + 48 ∧ 4 ∣ f₂ ∧ Scanned s f₂ (16 * f₂) u

/-- Checking a mark of the third level moves the frontier to the end of its words. -/
theorem passed_checkSecondLevel (hl : Linked s.mem) (ht : t < usedMarks)
    (hu : Passed s (16 * t) u) :
    Passed s (16 * (t + 1)) (checkSecondLevel layout u ((t * 16 + layout.second) % 2 ^ 32)) := by
  rw [usedMarks] at ht
  have hnode : (t * 16 + layout.second) % 2 ^ 32 = layout.second + 16 * t := by
    rw [layout_second]
    omega
  rw [hnode, checkSecondLevel, scanWords]
  obtain ⟨f₂, hlo, hhi, hdvd, hscan⟩ := hu
  -- after `w` words
  have hwords := foldl_range_inv (n := layout.words) (s := u)
    (f := fun s w => drain (wordCell (layout.second + 16 * t + 4 * w)) (8 / layout.cpb)
      (fun s set => checkFirstLevel layout s
        (childOf layout layout.second layout.first (layout.second + 16 * t + 4 * w) set))
      (4 * layout.cpb) 0 s)
    (I := fun w u => ∃ f₂, 16 * t + 4 * w ≤ f₂ ∧ f₂ ≤ 16 * t + 64 ∧ 4 ∣ f₂ ∧
      Scanned s f₂ (16 * f₂) u) ?_ ⟨f₂, by omega, by omega, hdvd, hscan⟩
  · obtain ⟨f, hflo, hfhi, hfdvd, hfscan⟩ := hwords
    rw [layout_words] at hflo
    exact ⟨f, by omega, by omega, hfdvd, hfscan⟩
  · rintro w hw u ⟨f, hflo, hfhi, hfdvd, hfscan⟩
    rw [layout_words] at hw
    by_cases hf : f = 16 * t + 4 * w
    · subst hf
      rw [Nat.add_assoc layout.second]
      exact ⟨16 * t + 4 * w + 4, by omega, by omega, by omega,
        scanned_drain hl (by omega) hfscan⟩
    · -- the word was passed with an earlier mark
      have hzero : (wordCell (layout.second + 16 * t + 4 * w)).get u = 0 := by
        obtain ⟨f₁, -, -, rfl⟩ := hfscan
        refine readLE_eq_zero fun i hi => sweep_of_mem _ _ (Or.inl ⟨by omega, by omega⟩)
      rw [drain_of_get_zero hzero]
      exact ⟨f, by omega, hfhi, hfdvd, hfscan⟩

/-- A mark of the third level that is not set has no bytes below it. -/
theorem passed_skip (hl : Linked s.mem) (ht : t < usedMarks) (hu : Passed s (16 * t) u)
    (hclear : s.mem (layout.third + t) = 0) : Passed s (16 * (t + 1)) u := by
  rw [usedMarks] at ht
  obtain ⟨f₂, hlo, hhi, hdvd, f₁, hlo₁, hhi₁, rfl⟩ := hu
  have hsecond : ∀ x, 16 * t ≤ x → x < 16 * t + 16 → s.mem (layout.second + x) = 0 := by
    intro x hx hx'
    by_contra hnz
    have hset := hl.second x (by omega) hnz
    rw [show x / 16 = t by omega] at hset
    exact hset hclear
  have hfirst : ∀ x, 256 * t ≤ x → x < 256 * t + 256 → s.mem (layout.first + x) = 0 := by
    intro x hx hx'
    by_contra hnz
    have hset := hl.first x (by omega) hnz
    rw [marked_zero layout (by
      rw [layout_cpb, Nat.div_one]
      exact hsecond (x / 16) (by omega) (by omega))] at hset
    exact absurd hset Bool.false_ne_true
  by_cases hf : 16 * (t + 1) ≤ f₂
  · exact ⟨f₂, hf, by omega, hdvd, f₁, hlo₁, hhi₁, rfl⟩
  · refine ⟨16 * (t + 1), le_rfl, by omega, by omega, 16 * (16 * (t + 1)), le_rfl, by omega, ?_⟩
    exact swept_extend (by omega) (by omega) (by omega) (by omega)
      (fun x hx hx' => hsecond x (by omega) (by omega)) fun x hx hx' =>
        hfirst x (by omega) (by omega)

/-- **Clearing a linked tree** passes all marks of the program's memory. -/
theorem clearBitmap_passed (hl : Linked s.mem) : Passed s (16 * usedMarks) (clearBitmap s) := by
  -- the frontier does not touch the third level
  have hthird : ∀ t < 0x60000, ∀ lo u, lo ≤ 16 * usedMarks → Passed s lo u →
      u.mem (layout.third + t) = s.mem (layout.third + t) := by
    rintro t ht lo u hlo ⟨f₂, -, hhi, -, f₁, -, hhi₁, rfl⟩
    rw [usedMarks] at hlo
    refine swept_mem ?_ ?_
    · rw [layout_third, shadowSpaceOffset_eq]
      omega
    · rw [layout_first, layout_second, layout_third]
      omega
  have hrun := clearBitmap_inv (s := s) (I := fun t u => Passed s (16 * min t usedMarks) u)
    ?_ ?_ ?_
  · rwa [show min 0x60000 usedMarks = usedMarks from rfl] at hrun
  · intro t ht u hu hne
    rw [hthird t ht _ u (by omega) hu] at hne
    have hused := hl.third t ht hne
    rw [show min t usedMarks = t by omega] at hu
    rw [show min (t + 1) usedMarks = t + 1 by omega]
    exact passed_checkSecondLevel hl hused hu
  · intro t ht u hu hzero
    rw [hthird t ht _ u (by omega) hu] at hzero
    by_cases hused : t < usedMarks
    · rw [show min t usedMarks = t by omega] at hu
      rw [show min (t + 1) usedMarks = t + 1 by omega]
      exact passed_skip hl hused hu hzero
    · rwa [show min (t + 1) usedMarks = min t usedMarks by omega]
  · refine ⟨0, by omega, by omega, dvd_zero 4, 0, le_rfl, by omega, ?_⟩
    rw [swept, upTo, Nat.add_zero, Nat.add_zero, Set.Ico_self, Set.Ico_self, Set.union_self]
    exact (sweep_empty s).symm

/-! ### Rounds -/

/-- Between rounds: the first two levels are zero, and the third holds marks of the program's
    memory only. -/
structure Ready (m : Mem) : Prop where
  levels : ∀ x, layout.first ≤ x → x < layout.third → m x = 0
  third : ∀ t < 0x60000, m (layout.third + t) ≠ 0 → t < usedMarks

/-- A round: calls of `ltckpt_set_bit`, then `ltckpt_clear_bitmap`. -/
def round (s : TreeState) (calls : List ℕ) : TreeState :=
  clearBitmap ⟨setBits s.mem calls, s.copied⟩

section Round

variable {m : Mem} {calls : List ℕ} (hr : Ready m) (hcalls : ∀ a ∈ calls, a < layout.first)
include hr

variable {x : ℕ}

/-- A nonzero byte of the first two levels is the byte of some call. -/
theorem exists_call (hlo : layout.first ≤ x) (hhi : x < layout.third)
    (hnz : setBits m calls x ≠ 0) : ∃ a ∈ calls, x ∈ bytesOf a := by
  by_contra hno
  rw [setBits_apply, if_neg hno] at hnz
  exact hnz (hr.levels x hlo hhi)

omit hr in
theorem setBits_of_mem {a : ℕ} (ha : a ∈ calls) (hx : x ∈ bytesOf a) : setBits m calls x = 1 := by
  rw [setBits_apply, if_pos ⟨a, ha, hx⟩]

include hcalls

/-- A nonzero byte of the first level is that of a call. -/
theorem call_of_first (hx : x < 0x6000000) (hnz : setBits m calls (layout.first + x) ≠ 0) :
    ∃ a ∈ calls, a / 16 = x := by
  obtain ⟨a, ha, hmem⟩ := exists_call hr (Nat.le_add_right _ _)
    (by rw [layout_first, layout_third]; omega) hnz
  have hlt := hcalls a ha
  rw [layout_first] at hlt hmem
  rw [mem_bytesOf] at hmem
  exact ⟨a, ha, by omega⟩

/-- A nonzero byte of the second level is that of a call. -/
theorem call_of_second (hx : x < 0x600000) (hnz : setBits m calls (layout.second + x) ≠ 0) :
    ∃ a ∈ calls, a / 256 = x := by
  obtain ⟨a, ha, hmem⟩ := exists_call hr (by rw [layout_first, layout_second]; omega)
    (by rw [layout_second, layout_third]; omega) hnz
  have hlt := hcalls a ha
  rw [layout_first] at hlt
  rw [layout_second] at hmem
  rw [mem_bytesOf] at hmem
  exact ⟨a, ha, by omega⟩

theorem linked_setBits : Linked (setBits m calls) where
  confined := by
    intro x hlo hhi hout
    by_contra hnz
    rw [treeClick_eq, layout_cpb] at hout
    rw [layout_second] at hhi
    rw [show x = layout.first + (x - layout.first) by omega] at hnz
    rw [layout_first] at hlo hout
    obtain ⟨a, ha, hdiv⟩ := call_of_first hr hcalls (by rw [layout_first]; omega) hnz
    have hlt := hcalls a ha
    rw [layout_first] at hlt hdiv
    omega
  first := by
    intro x hx hnz
    obtain ⟨a, ha, hdiv⟩ := call_of_first hr hcalls hx hnz
    have hone : setBits m calls (layout.second + x / 16 / layout.cpb) = 1 := by
      refine setBits_of_mem ha (mem_bytesOf.mpr ?_)
      rw [layout_second, layout_cpb]
      omega
    rw [marked, bitAt, hone, layout_cpb, Nat.mod_one]
    rfl
  second := by
    intro x hx hnz
    obtain ⟨a, ha, hdiv⟩ := call_of_second hr hcalls hx hnz
    rw [setBits_of_mem ha (mem_bytesOf.mpr ?_)]
    · decide
    · rw [layout_third]
      omega
  third := by
    intro t ht hnz
    by_cases hcall : ∃ a ∈ calls, layout.third + t ∈ bytesOf a
    · obtain ⟨a, ha, hmem⟩ := hcall
      have hlt := hcalls a ha
      rw [layout_first] at hlt
      rw [layout_third] at hmem
      rw [mem_bytesOf] at hmem
      rw [usedMarks]
      omega
    · rw [setBits_apply, if_neg hcall] at hnz
      exact hr.third t ht hnz

/-- The regions marked in enough bytes of the first level are those of the calls. -/
theorem mem_regionsIn_setBits {f r : ℕ} (hlo : 0x599A000 ≤ f) (hhi : f ≤ 0x6000000) :
    r ∈ regionsIn layout (setBits m calls) 0 f ↔ ∃ a ∈ calls, addrToRegion treeClick a = r := by
  rw [regionsIn, List.mem_map]
  constructor
  · rintro ⟨i, hi, rfl⟩
    obtain ⟨hrange, hmark⟩ := List.mem_filter.mp hi
    have hi' := List.mem_range'_1.mp hrange
    rw [layout_cpb] at hi'
    have hnz : setBits m calls (layout.first + i) ≠ 0 := by
      intro hzero
      rw [marked_zero layout (by rw [layout_cpb, Nat.div_one]; exact hzero)] at hmark
      exact absurd hmark Bool.false_ne_true
    obtain ⟨a, ha, hdiv⟩ := call_of_first hr hcalls (by omega) hnz
    refine ⟨a, ha, ?_⟩
    rw [addrToRegion, treeClick_eq]
    omega
  · rintro ⟨a, ha, rfl⟩
    have hlt := hcalls a ha
    rw [layout_first] at hlt
    refine ⟨a / 16, List.mem_filter.mpr ⟨List.mem_range'_1.mpr ?_, ?_⟩, ?_⟩
    · rw [layout_cpb]
      omega
    · have hone : setBits m calls (layout.first + a / 16 / layout.cpb) = 1 := by
        refine setBits_of_mem ha (mem_bytesOf.mpr ?_)
        rw [layout_first, layout_cpb]
        omega
      rw [marked, bitAt, hone, layout_cpb, Nat.mod_one]
      rfl
    · rw [addrToRegion, treeClick_eq]
      omega

end Round

/-- Between `s` and `u` the regions of the calls were copied to their shadows, each once, and
    nothing else changed outside the tree. -/
def Syncs (s u : TreeState) (calls : List ℕ) : Prop :=
  ∃ rs, u.copied = s.copied ++ rs ∧ rs.Nodup ∧
    (∀ r, r ∈ rs ↔ ∃ a ∈ calls, addrToRegion treeClick a = r) ∧
    ∀ x, x < layout.first ∨ shadowSpaceOffset ≤ x → u.mem x = syncRegions s.mem rs x

/-- Calls for program addresses change nothing outside the tree. -/
theorem setBits_outside (m : Mem) {calls : List ℕ} (hcalls : ∀ a ∈ calls, a < layout.first)
    (hx : x < layout.first ∨ shadowSpaceOffset ≤ x) : setBits m calls x = m x := by
  rw [setBits_apply, if_neg]
  rintro ⟨a, ha, hmem⟩
  have hlt := hcalls a ha
  rw [layout_first, shadowSpaceOffset_eq] at hx
  rw [layout_first] at hlt
  rw [mem_bytesOf] at hmem
  omega

/-- **A round** copies exactly the regions of its calls and leaves the first two levels zero,
    whatever the third level holds from earlier rounds. -/
theorem clear_round (hr : Ready s.mem) {calls : List ℕ} (hcalls : ∀ a ∈ calls, a < layout.first) :
    Syncs s (round s calls) calls ∧ Ready (round s calls).mem := by
  have hl := linked_setBits hr hcalls
  obtain ⟨f₂, hlo₂, hhi₂, -, f₁, hlo₁, hhi₁, heq⟩ :=
    clearBitmap_passed (s := ⟨setBits s.mem calls, s.copied⟩) hl
  rw [usedMarks] at hlo₂ hhi₂
  have hround : round s calls = swept ⟨setBits s.mem calls, s.copied⟩ f₂ f₁ := heq
  have hregions : ∀ r, r ∈ regionsIn layout (setBits s.mem calls) 0 f₁ ↔
      ∃ a ∈ calls, addrToRegion treeClick a = r :=
    fun r => mem_regionsIn_setBits hr hcalls (by omega) (by omega)
  have hprogram := regionsIn_program layout hl.confined (b := 0) (n := f₁)
    (by rw [layout_first, layout_second]; omega)
  refine ⟨⟨regionsIn layout (setBits s.mem calls) 0 f₁, by rw [hround]; rfl,
    regionsIn_nodup layout _ _ _, hregions, fun x hx => ?_⟩, ⟨fun x hlo hhi => ?_, ?_⟩⟩
  · -- outside the tree: shadows of the regions
    have hout : x ∉ upTo f₂ f₁ := by
      rw [layout_first, shadowSpaceOffset_eq] at hx
      simp only [Set.mem_union, Set.mem_Ico, layout_first, layout_second]
      omega
    rw [hround, swept, sweep_of_not_mem _ _ hout]
    exact syncRegions_congr hprogram (fun y hy => setBits_outside s.mem hcalls (Or.inl hy))
      (setBits_outside s.mem hcalls hx)
  · -- nothing is set beyond the frontier
    rw [hround]
    by_contra hnz
    by_cases hin : x ∈ upTo f₂ f₁
    · exact hnz (sweep_of_mem _ _ hin)
    · have hsh : x < shadowSpaceOffset := lt_of_lt_of_le hhi layout.third_le_shadow
      rw [swept, sweep_below _ _ hin hsh] at hnz
      simp only [Set.mem_union, Set.mem_Ico, not_or] at hin
      have hfirst := layout_first
      have hsecond := layout_second
      rw [layout_third] at hhi
      by_cases hx : x < layout.second
      · rw [show x = layout.first + (x - layout.first) by omega] at hnz
        obtain ⟨a, ha, hdiv⟩ := call_of_first hr hcalls (by omega) hnz
        have hlt := hcalls a ha
        omega
      · rw [show x = layout.second + (x - layout.second) by omega] at hnz
        obtain ⟨a, ha, hdiv⟩ := call_of_second hr hcalls (by omega) hnz
        have hlt := hcalls a ha
        omega
  · intro t ht hnz
    refine hl.third t ht ?_
    rw [hround, swept_mem] at hnz
    · exact hnz
    · rw [layout_third, shadowSpaceOffset_eq]
      omega
    · rw [layout_first, layout_second, layout_third]
      omega

/-- **Rounds.** In any sequence of rounds each one copies exactly the regions of its own calls. -/
theorem rounds_sync (rounds : List (List ℕ)) (hr : Ready s.mem)
    (hcalls : ∀ calls ∈ rounds, ∀ a ∈ calls, a < layout.first) :
    Ready (rounds.foldl round s).mem ∧
      ∀ before calls after, rounds = before ++ calls :: after →
        Syncs (before.foldl round s) (round (before.foldl round s) calls) calls := by
  induction rounds generalizing s with
  | nil => exact ⟨hr, fun before calls after h => absurd h (by simp)⟩
  | cons first rounds ih =>
    have hfirst := clear_round hr (hcalls first (List.mem_cons_self ..))
    have hrest := ih hfirst.2 fun calls h => hcalls calls (List.mem_cons_of_mem first h)
    rw [List.foldl_cons]
    refine ⟨hrest.1, fun before calls after h => ?_⟩
    cases before with
    | nil =>
      obtain ⟨hcalls', -⟩ := List.cons.inj h
      rw [List.foldl_nil, ← hcalls']
      exact hfirst.1
    | cons b before =>
      obtain ⟨hb, hsplit⟩ := List.cons.inj h
      rw [List.foldl_cons, ← hb]
      exact hrest.2 before calls after hsplit

/-! ### Synchronisation -/

/-- All three levels are zero. -/
def TreeZero (m : Mem) : Prop :=
  ∀ x, layout.first ≤ x → x < layout.first + treeSize layout.cpb → m x = 0

/-- The calls' regions are synchronised, no other, and every level is zero afterwards. -/
def SyncsAndClears (m : Mem) (calls : List ℕ) : Prop :=
  (∀ r, r ∈ (round ⟨m, []⟩ calls).copied ↔ ∃ a ∈ calls, addrToRegion treeClick a = r) ∧
    TreeZero (round ⟨m, []⟩ calls).mem

theorem treeSize_eq : treeSize layout.cpb = 0x6660000 := by decide

theorem TreeZero.ready {m : Mem} (h : TreeZero m) : Ready m := by
  have hsize := treeSize_eq
  have hfirst := layout_first
  have hthird := layout_third
  refine ⟨fun x hlo hhi => h x hlo (by omega), fun t ht hnz => absurd (h _ ?_ ?_) hnz⟩
  · omega
  · omega

/-- Without marks in the third level nothing happens. -/
theorem clearBitmap_idle (hthird : ∀ t < 0x60000, s.mem (layout.third + t) = 0) :
    clearBitmap s = s := by
  refine clearBitmap_inv (I := fun _ u => u = s) (fun t ht u hu hne => ?_)
    (fun t ht u hu _ => hu) rfl
  rw [hu, hthird t ht] at hne
  exact absurd rfl hne

/-- **The byte tree does not come back to zero.** The regions of the calls are synchronised and
    the tree is zero afterwards only if there was no call: the third level keeps its marks.  For
    program addresses the synchronisation itself is exact, and the first two levels are zero. -/
theorem clearBitmap_iff (m : Mem) (calls : List ℕ) (hzero : TreeZero m) :
    (SyncsAndClears m calls ↔ calls = []) ∧
      ((∀ a ∈ calls, a < layout.first) →
        Syncs ⟨m, []⟩ (round ⟨m, []⟩ calls) calls ∧
          ∀ x, layout.first ≤ x → x < layout.third → (round ⟨m, []⟩ calls).mem x = 0) := by
  have hfirst := layout_first
  have hthird := layout_third
  have hsize := treeSize_eq
  refine ⟨⟨fun h => ?_, ?_⟩, fun hprogram => ?_⟩
  · by_contra hne
    obtain ⟨a, ha⟩ := List.exists_mem_of_ne_nil calls hne
    -- either some call marks the third level, or no call marks the tree at all
    by_cases hmark : ∃ t < 0x60000, setBits m calls (layout.third + t) ≠ 0
    · obtain ⟨t, ht, hnz⟩ := clearBitmap_third (s := ⟨setBits m calls, []⟩) hmark
      have hround : round ⟨m, []⟩ calls = clearBitmap ⟨setBits m calls, []⟩ := rfl
      rw [← hround] at hnz
      exact hnz (h.2 _ (by omega) (by omega))
    · have hidle : round ⟨m, []⟩ calls = ⟨setBits m calls, []⟩ :=
        clearBitmap_idle fun t ht => not_not.mp fun hnz => hmark ⟨t, ht, hnz⟩
      have hmem := (h.1 (addrToRegion treeClick a)).mpr ⟨a, ha, rfl⟩
      rw [hidle] at hmem
      exact absurd hmem List.not_mem_nil
  · rintro rfl
    have hidle : round ⟨m, []⟩ [] = ⟨m, []⟩ :=
      clearBitmap_idle fun t ht => hzero _ (by omega) (by omega)
    rw [SyncsAndClears, hidle]
    exact ⟨fun r => by simp, hzero⟩
  · obtain ⟨hsync, hready⟩ := clear_round (s := ⟨m, []⟩) hzero.ready hprogram
    exact ⟨hsync, hready.levels⟩

/-- A call on a zero tree: the region is copied, and the mark of the third level stays. -/
theorem clearBitmap_iff_call :
    0x1000 ∈ (round ⟨fun _ => 0, []⟩ [0x1004]).copied ∧
      ¬ SyncsAndClears (fun _ => 0) [0x1004] := by
  have hiff := clearBitmap_iff (fun _ => 0) [0x1004] fun _ _ _ => rfl
  obtain ⟨⟨rs, hcopied, -, hmem, -⟩, -⟩ := hiff.2 (by decide)
  refine ⟨?_, fun h => absurd (hiff.1.mp h) (by decide)⟩
  rw [hcopied, List.nil_append, hmem]
  exact ⟨0x1004, List.mem_singleton_self _, by decide⟩

/-- The second round copies the region again, with the mark of the first still in the third
    level. -/
theorem rounds_sync_two :
    Syncs (round ⟨fun _ => 0, []⟩ [0x1004])
      (round (round ⟨fun _ => 0, []⟩ [0x1004]) [0x1004]) [0x1004] := by
  have hzero : TreeZero fun _ => 0 := fun _ _ _ => rfl
  have hrounds := (rounds_sync (s := ⟨fun _ => 0, []⟩) [[0x1004], [0x1004]] hzero.ready
    (by decide)).2 [[0x1004]] [0x1004] [] rfl
  rwa [List.foldl_cons, List.foldl_nil] at hrounds

/-- After one call and `ltckpt_clear_bitmap` the third level is not zero. -/
theorem third_level_stays :
    TreeZero (fun _ => 0) ∧ ¬ TreeZero (round ⟨fun _ => 0, []⟩ [0x1004]).mem := by
  refine ⟨fun _ _ _ => rfl, fun h => ?_⟩
  have hfirst := layout_first
  have hthird := layout_third
  have hsize := treeSize_eq
  have hmark : setBits (fun _ => 0) [0x1004] (layout.third + 1) ≠ 0 := by
    rw [setBits_of_mem (List.mem_singleton_self _) (mem_bytesOf.mpr (by omega))]
    decide
  obtain ⟨t, ht, hnz⟩ := clearBitmap_third (s := ⟨setBits (fun _ => 0) [0x1004], []⟩)
    ⟨1, by decide, hmark⟩
  have hround : round ⟨fun _ => 0, []⟩ [0x1004] =
    clearBitmap ⟨setBits (fun _ => 0) [0x1004], []⟩ := rfl
  rw [← hround] at hnz
  exact hnz (h _ (by omega) (by omega))

end Firestarter.Bitmap.TreeByte
