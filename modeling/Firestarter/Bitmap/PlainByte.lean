import Mathlib.Data.List.Dedup
import Mathlib.Data.List.Perm.Subperm
import Firestarter.Bitmap.PlainByteScan

namespace Firestarter.Bitmap.PlainByte

open FlatMem
open Plain (shadowSpaceSize shadowSpaceOffset)

/-!
# Synchronising and clearing the plain byte bitmap

The calls of `ltckpt_set_bit` mark bytes and list pages; `ltckpt_clear_bitmap` sorts the pages,
scans them and protects them again.

* `sortPages_spec`, `protectRuns_spec` — the pages are sorted, and all of them protected;
* `setBits_marked` — the marks and the list of pages after any calls;
* `clears_iff` — when the whole bitmap is synchronised and cleared.
-/

/-! ### Sorting and protecting the pages -/

theorem insertPage_perm (page : ℕ) (ps : List ℕ) : (insertPage page ps).Perm (page :: ps) := by
  induction ps with
  | nil => exact List.Perm.refl _
  | cons q ps ih =>
    rw [insertPage]
    split_ifs with hlt
    · exact (ih.cons q).trans (List.Perm.swap page q ps)
    · exact List.Perm.refl _

theorem insertPage_sorted (page : ℕ) {ps : List ℕ} (h : ps.Pairwise (· ≤ ·)) :
    (insertPage page ps).Pairwise (· ≤ ·) := by
  induction ps with
  | nil => exact List.pairwise_singleton _ _
  | cons q ps ih =>
    obtain ⟨hq, hps⟩ := List.pairwise_cons.mp h
    rw [insertPage]
    split_ifs with hlt
    · refine List.pairwise_cons.mpr ⟨fun r hr => ?_, ih hps⟩
      rcases List.mem_cons.mp ((insertPage_perm page ps).mem_iff.mp hr) with rfl | hr
      · omega
      · exact hq r hr
    · refine List.pairwise_cons.mpr ⟨fun r hr => ?_, h⟩
      rcases List.mem_cons.mp hr with rfl | hr
      · omega
      · exact le_trans (by omega) (hq r hr)

/-- The list is sorted, whatever the order of the page faults. -/
theorem sortPages_spec (pages : List ℕ) :
    (sortPages pages).Perm pages ∧ (sortPages pages).Pairwise (· ≤ ·) := by
  -- over the insertions made so far
  have hfold : ∀ ps sorted : List ℕ, sorted.Pairwise (· ≤ ·) →
      (ps.foldl (fun sorted page => insertPage page sorted) sorted).Perm (ps ++ sorted) ∧
        (ps.foldl (fun sorted page => insertPage page sorted) sorted).Pairwise (· ≤ ·) := by
    intro ps
    induction ps with
    | nil => exact fun sorted h => ⟨List.Perm.refl _, h⟩
    | cons p ps ih =>
      intro sorted h
      obtain ⟨hperm, hsorted⟩ := ih _ (insertPage_sorted p h)
      refine ⟨hperm.trans ?_, hsorted⟩
      exact ((insertPage_perm p sorted).append_left ps).trans List.perm_middle
  obtain ⟨hperm, hsorted⟩ := hfold pages [] List.Pairwise.nil
  rw [List.append_nil] at hperm
  exact ⟨hperm, hsorted⟩

/-- Every page of a sorted list is protected, with the open run before it, and nothing outside
    the bitmap is. -/
theorem protectRuns_spec (writable : ℕ → Bool) {ps : List ℕ} (start : ℕ)
    (hsorted : ps.Pairwise (· ≤ ·)) (hps : ∀ p ∈ ps, IsPage p)
    (hstart : start = 0 ∨ bitmapOffset ≤ start ∧ ∀ p ∈ ps, start ≤ p) :
    (∀ p ∈ ps, protectRuns writable start ps p = false) ∧
      (ps ≠ [] → start ≠ 0 → ∀ p, start ≤ p → (∀ r ∈ ps, p ≤ r) →
        protectRuns writable start ps p = false) ∧
      (∀ p, writable p = false → protectRuns writable start ps p = false) ∧
      ∀ p, ¬ (bitmapOffset ≤ p ∧ p < shadowSpaceOffset) →
        protectRuns writable start ps p = writable p := by
  induction ps generalizing writable start with
  | nil =>
    exact ⟨fun p hp => absurd hp List.not_mem_nil, fun h => absurd rfl h, fun _ h => h,
      fun _ _ => rfl⟩
  | cons q ps ih =>
    obtain ⟨hq, hsorted'⟩ := List.pairwise_cons.mp hsorted
    have hpage := hps q List.mem_cons_self
    have hps' : ∀ p ∈ ps, IsPage p := fun p hp => hps p (List.mem_cons_of_mem _ hp)
    have hlo := hpage.start
    have hhi := hpage.stop
    have hpos := bitmapOffset_eq
    -- the run starts at or before this page
    obtain ⟨first, hfirst, hle, hge, hsame⟩ : ∃ first, (if start = 0 then q else start) = first ∧
        first ≤ q ∧ bitmapOffset ≤ first ∧ (start ≠ 0 → first = start) := by
      refine ⟨_, rfl, ?_⟩
      split_ifs with hzero
      · exact ⟨le_rfl, hlo, fun h => absurd hzero h⟩
      · obtain ⟨hlo', hall⟩ := hstart.resolve_left hzero
        exact ⟨hall q List.mem_cons_self, hlo', fun _ => rfl⟩
    simp only [protectRuns, hfirst]
    split_ifs with hend
    · -- the run ends here
      obtain ⟨hin, -, hkeep, hout⟩ := ih
        (fun p => if first ≤ p ∧ p < q + 4096 then false else writable p) 0
        hsorted' hps' (Or.inl rfl)
      refine ⟨fun p hp => ?_, fun _ hne p hp hall => hkeep p (if_pos ?_),
        fun p hp => hkeep p ?_, fun p hp => ?_⟩
      · rcases List.mem_cons.mp hp with rfl | hp
        · exact hkeep p (if_pos ⟨hle, by omega⟩)
        · exact hin p hp
      · have := hall q List.mem_cons_self
        have := hsame hne
        omega
      · split_ifs
        · rfl
        · exact hp
      · rw [hout p hp, if_neg (by omega)]
    · -- the run goes on
      obtain ⟨hin, hrun, hkeep, hout⟩ := ih writable first hsorted' hps'
        (Or.inr ⟨hge, fun p hp => hle.trans (hq p hp)⟩)
      have hclosed : ∀ p, first ≤ p → p ≤ q → protectRuns writable first ps p = false :=
        fun p hp hpq => hrun (fun h => hend (Or.inl h)) (by omega) p hp
          fun r hr => hpq.trans (hq r hr)
      refine ⟨fun p hp => ?_, fun _ hne p hp hall => ?_, hkeep, hout⟩
      · rcases List.mem_cons.mp hp with rfl | hp
        · exact hclosed p hle le_rfl
        · exact hin p hp
      · exact hclosed p (hsame hne ▸ hp) (hall q List.mem_cons_self)

/-! ### The marks of the calls -/

/-- The bitmap at the start of an epoch: zero, and no page of it listed.  Nothing else is write
    protected. -/
structure Ready (s : ByteState) : Prop where
  zero : ∀ x, bitmapOffset ≤ x → x < shadowSpaceOffset → s.mem x = 0
  pages : s.pages = []
  writable : ∀ p, ¬ (bitmapOffset ≤ p ∧ p < shadowSpaceOffset) → s.writable p = true

/-- The page of the bitmap with the mark of an address. -/
def pageOf (a : ℕ) : ℕ := bitmapOffset + 4096 * (a / 65536)

theorem pageRoundDown_mark (a : ℕ) : pageRoundDown (a >>> 4 + bitmapOffset) = pageOf a := by
  have hoffset := bitmapOffset_eq
  rw [pageRoundDown, pageOf, Nat.shiftRight_eq_div_pow]
  omega

theorem isPage_pageOf {a : ℕ} (ha : a < shadowSpaceOffset) : IsPage (pageOf a) := by
  have hoffset := bitmapOffset_eq
  have hshadow := shadowSpaceOffset_eq
  refine ⟨?_, ?_, ?_⟩ <;> rw [pageOf] <;> omega

/-- The pages that the calls touch are write protected.  The late-init hook protects the whole
    bitmap, but the first top-of-the-loop hook maps it anew, readable and writable. -/
def Protected (s : ByteState) (calls : List ℕ) : Prop :=
  ∀ a ∈ calls, a < shadowSpaceOffset → s.writable (pageOf a) = false

/-- **After the calls** of `ltckpt_set_bit` from `s`. -/
structure Marked (s : ByteState) (calls : List ℕ) (u : ByteState) : Prop where
  below : ∀ x < bitmapOffset, u.mem x = s.mem x
  marks : ∀ x, bitmapOffset ≤ x → x < shadowSpaceOffset →
    (u.mem x = 0 ∨ u.mem x = 1) ∧ (u.mem x ≠ 0 ↔ ∃ a ∈ calls, a / 16 + bitmapOffset = x)
  copied : u.copied = s.copied
  nodup : u.pages.Nodup
  pages : ∀ p, p ∈ u.pages ↔ ∃ a ∈ calls, a < shadowSpaceOffset ∧ pageOf a = p
  writable : ∀ p, u.writable p = true ↔ p ∈ u.pages ∨ s.writable p = true

theorem Ready.marked {s : ByteState} (h : Ready s) : Marked s [] s where
  below _ _ := rfl
  marks x hlo hhi := by simp [h.zero x hlo hhi]
  copied := rfl
  nodup := h.pages ▸ List.nodup_nil
  pages p := by simp [h.pages]
  writable p := by simp [h.pages]

theorem Marked.isPage {s u : ByteState} {calls : List ℕ} (h : Marked s calls u) {p : ℕ}
    (hp : p ∈ u.pages) : IsPage p := by
  obtain ⟨a, -, ha, rfl⟩ := (h.pages p).mp hp
  exact isPage_pageOf ha

/-- The pages of the bitmap are too few to fill the list of the fault handler. -/
theorem Marked.pages_length {s u : ByteState} {calls : List ℕ} (h : Marked s calls u) :
    u.pages.length ≤ 24576 := by
  have hoffset := bitmapOffset_eq
  have hshadow := shadowSpaceOffset_eq
  have hsub : u.pages ⊆ (List.range 24576).map fun i => bitmapOffset + 4096 * i := by
    intro p hp
    have hpage := h.isPage hp
    have := hpage.aligned
    have := hpage.start
    have := hpage.stop
    exact List.mem_map.mpr ⟨(p - bitmapOffset) / 4096, List.mem_range.mpr (by omega), by omega⟩
  have hle := (List.subperm_of_subset h.nodup hsub).length_le
  rwa [List.length_map, List.length_range] at hle

/-- A mark is one byte. -/
theorem write_mark (m : Mem) (p x : ℕ) : write m p [1] x = if x = p then 1 else m x := by
  by_cases hx : x = p
  · rw [if_pos hx, hx, write_of_inside m p [1] le_rfl (by simp), Nat.sub_self]
    rfl
  · rw [if_neg hx, write_of_outside m p [1] (by simp; omega)]

/-- The store of a call, once its page is listed. -/
theorem Marked.store {s u v : ByteState} {calls : List ℕ} (h : Marked s calls u) {a : ℕ}
    (hmem : v.mem = write u.mem (a / 16 + bitmapOffset) [1]) (hcopied : v.copied = u.copied)
    (hnodup : v.pages.Nodup)
    (hpages : ∀ p, p ∈ v.pages ↔ p ∈ u.pages ∨ a < shadowSpaceOffset ∧ pageOf a = p)
    (hwritable : ∀ p, v.writable p = true ↔ p ∈ v.pages ∨ s.writable p = true) :
    Marked s (calls ++ [a]) v where
  below x hx := by
    rw [hmem, write_mark, if_neg (by omega), h.below x hx]
  marks x hlo hhi := by
    obtain ⟨hone, hmark⟩ := h.marks x hlo hhi
    have hiff : (∃ b ∈ calls ++ [a], b / 16 + bitmapOffset = x) ↔
        (∃ b ∈ calls, b / 16 + bitmapOffset = x) ∨ a / 16 + bitmapOffset = x := by
      simp [or_and_right, exists_or]
    rw [hmem, write_mark, hiff, ← hmark]
    by_cases hx : x = a / 16 + bitmapOffset
    · rw [if_pos hx]
      exact ⟨Or.inr rfl, fun _ => Or.inr hx.symm, fun _ => by decide⟩
    · rw [if_neg hx]
      exact ⟨hone, Or.inl, fun hor => hor.resolve_right fun heq => hx heq.symm⟩
  copied := hcopied.trans h.copied
  nodup := hnodup
  pages p := by
    rw [hpages, h.pages]
    simp [or_and_right, exists_or]
  writable := hwritable

theorem storeMem_copied (u : ByteState) (m : Mem) :
    ({ u with mem := m } : ByteState).copied = u.copied := rfl

/-- The fault handler while its list has room. -/
theorem sigsegvHandler_eq {s : ByteState} {addr page : ℕ} (hpage : pageRoundDown addr = page)
    (hne : page ≠ 0) (hfull : s.pages.length + 1 ≠ maxPf) :
    sigsegvHandler s addr = .ok { s with
      pages := s.pages ++ [page]
      writable := fun p => if p = page then true else s.writable p } := by
  simp only [sigsegvHandler, hpage, if_neg hne, if_neg hfull]

/-- A call once the page fault, if there is one, is handled. -/
theorem setBit_eq {u w : ByteState} {a : ℕ} (hfault : (if u.writable (pageOf a) then .ok u
      else sigsegvHandler u (a >>> 4 + bitmapOffset)) = Except.ok w) :
    setBit u a = .ok { w with mem := write w.mem (a / 16 + bitmapOffset) [1] } := by
  rw [setBit, pageRoundDown_mark]
  split_ifs at hfault ⊢ with hw
  · obtain rfl := Except.ok.inj hfault
    rw [Nat.shiftRight_eq_div_pow]
    rfl
  · rw [hfault, Nat.shiftRight_eq_div_pow]
    rfl

/-- One more call: it faults at most once, and stores the mark. -/
theorem Marked.setBit {s u : ByteState} {calls : List ℕ} (h : Marked s calls u) (hs : Ready s)
    (a : ℕ) (hprot : a < shadowSpaceOffset → s.writable (pageOf a) = false) :
    ∃ v, setBit u a = .ok v ∧ Marked s (calls ++ [a]) v := by
  have hoffset := bitmapOffset_eq
  have hshadow := shadowSpaceOffset_eq
  by_cases hw : u.writable (pageOf a) = true
  · refine ⟨_, setBit_eq (if_pos hw), h.store (by rfl) (storeMem_copied u _) h.nodup (fun p => ?_)
      h.writable⟩
    refine ⟨Or.inl, fun hp => hp.elim id ?_⟩
    -- a protected page that has become writable is listed
    rintro ⟨ha, rfl⟩
    exact ((h.writable _).mp hw).resolve_right (Bool.eq_false_iff.mp (hprot ha))
  · have hnew := fun hmem => hw ((h.writable (pageOf a)).mpr hmem)
    have hin : bitmapOffset ≤ pageOf a ∧ pageOf a < shadowSpaceOffset := by
      by_contra hout
      exact hnew (Or.inr (hs.writable _ hout))
    have ha : a < shadowSpaceOffset := by
      rw [pageOf] at hin
      omega
    have hfull : u.pages.length + 1 ≠ maxPf := by
      have hlength := h.pages_length
      rw [maxPf]
      omega
    have hhandler := sigsegvHandler_eq (s := u) (pageRoundDown_mark a) (by omega) hfull
    refine ⟨_, setBit_eq ((if_neg hw).trans hhandler),
      h.store (by rfl) (storeMem_copied _ _) ?_ (fun p => ?_) fun p => ?_⟩
    · exact List.nodup_append.mpr ⟨h.nodup, List.nodup_singleton _, by
        rintro p hp q hq rfl
        exact hnew (Or.inl (List.mem_singleton.mp hq ▸ hp))⟩
    · simp [ha, eq_comm]
    · by_cases hp : p = pageOf a
      · simp [hp]
      · simp [hp, h.writable p]

/-- **Every sequence of calls** returns: no call panics. -/
theorem setBits_marked {s : ByteState} (hready : Ready s) {calls : List ℕ}
    (hprot : Protected s calls) : ∃ u, calls.foldlM setBit s = .ok u ∧ Marked s calls u := by
  -- the calls made so far, and those to come
  have hrun : ∀ rest past : List ℕ, Protected s rest → ∀ u, Marked s past u →
      ∃ v, rest.foldlM setBit u = .ok v ∧ Marked s (past ++ rest) v := by
    intro rest
    induction rest with
    | nil => exact fun past _ u h => ⟨u, rfl, (List.append_nil past).symm ▸ h⟩
    | cons a rest ih =>
      intro past hprot u h
      obtain ⟨ha, hrest⟩ := List.forall_mem_cons.mp hprot
      obtain ⟨v, hcall, hmarked⟩ := h.setBit hready a ha
      obtain ⟨w, hrest, hmarked'⟩ := ih _ hrest v hmarked
      refine ⟨w, ?_, ?_⟩
      · rw [List.foldlM_cons, hcall]
        exact hrest
      · rwa [List.append_assoc] at hmarked'
  exact hrun calls [] hprot s hready.marked

/-! ### Clearing the bitmap -/

/-- The 64 KiB blocks of the addresses, each with its page of the bitmap. -/
def blocks (calls : List ℕ) : List ℕ := (calls.map (· / 65536)).dedup

/-- **The addresses whose marks are found**: at most as many blocks as `sorted_pages` has entries,
    and every address in the first or last 64 bytes of its block. -/
def Found (calls : List ℕ) : Prop :=
  (blocks calls).length ≤ sortedPagesSize ∧
    ∀ a ∈ calls, a < shadowSpaceOffset ∧ (a % 65536 < 64 ∨ 65472 ≤ a % 65536)

instance (calls : List ℕ) : Decidable (Found calls) :=
  inferInstanceAs (Decidable (_ ∧ _))

/-- Every region that was marked is copied, and the bitmap is zero. -/
def SyncsAndClears (calls : List ℕ) (t : ByteState) : Prop :=
  (∀ a ∈ calls, addrToRegion treeClick a ∈ t.copied) ∧
    ∀ x, bitmapOffset ≤ x → x < shadowSpaceOffset → t.mem x = 0

theorem mem_regionsOfWord {m : Mem} {w r : ℕ} :
    r ∈ regionsOfWord m w ↔ ∃ j < 4, m (w + j) ≠ 0 ∧ (w - bitmapOffset + j) * 16 = r := by
  simp only [regionsOfWord, List.mem_map, List.mem_filter, List.mem_range, decide_eq_true_eq,
    and_assoc, treeClick_eq]

/-- The region of a byte of the bitmap is that of the address which marks it. -/
theorem region_eq (a : ℕ) {p b : ℕ} (hpage : pageOf a = p) (hbyte : a % 65536 / 16 = b) :
    (p - bitmapOffset + b) * 16 = addrToRegion treeClick a := by
  rw [← hpage, ← hbyte, pageOf, addrToRegion, treeClick_eq]
  omega

/-- The regions of a page in one statement. -/
theorem mem_regionsOfPage {m : Mem} {p r : ℕ} (hp : IsPage p) :
    r ∈ regionsOfPage m p ↔
      ∃ b < 4096, (b < 4 ∨ 4092 ≤ b) ∧ m (p + b) ≠ 0 ∧ (p - bitmapOffset + b) * 16 = r := by
  have hstart := hp.start
  rw [regionsOfPage, List.mem_append, mem_regionsOfWord, mem_regionsOfWord]
  constructor
  · rintro (⟨j, hj, hset, hr⟩ | ⟨j, hj, hset, hr⟩)
    · exact ⟨j, by omega, by omega, hset, hr⟩
    · rw [Nat.add_assoc] at hset
      exact ⟨4092 + j, by omega, by omega, hset, by omega⟩
  · rintro ⟨b, hb, hend | hend, hset, hr⟩
    · exact Or.inl ⟨b, hend, hset, hr⟩
    · refine Or.inr ⟨b - 4092, by omega, ?_, by omega⟩
      rwa [show p + 4092 + (b - 4092) = p + b by omega]

/-- No region is listed twice. -/
theorem nodup_regions {m : Mem} {ps : List ℕ} (hps : ∀ p ∈ ps, IsPage p) (hnodup : ps.Nodup) :
    (ps.flatMap (regionsOfPage m)).Nodup := by
  have hword : ∀ w, (regionsOfWord m w).Nodup := fun w =>
    (List.nodup_range.filter _).map_on fun i _ j _ heq => by
      rw [treeClick_eq] at heq
      omega
  refine List.nodup_flatMap.mpr ⟨fun p hp => ?_, ?_⟩
  · have hstart := (hps p hp).start
    refine (hword p).append (hword (p + 4092)) fun r hfirst hlast => ?_
    obtain ⟨i, hi, -, rfl⟩ := mem_regionsOfWord.mp hfirst
    obtain ⟨j, hj, -, heq⟩ := mem_regionsOfWord.mp hlast
    omega
  · refine (hnodup.imp_of_mem fun {p q} hp hq hne r hrp hrq => ?_)
    have hpage := hps p hp
    have hpage' := hps q hq
    obtain ⟨b, hb, -, -, rfl⟩ := (mem_regionsOfPage hpage).mp hrp
    obtain ⟨c, hc, -, -, heq⟩ := (mem_regionsOfPage hpage').mp hrq
    have := hpage.start
    have := hpage'.start
    have := hpage.disjoint hpage' hne hb
    omega

section Clear

variable {s u : ByteState} {calls : List ℕ} (h : Marked s calls u)
include h

/-- No page is listed for two blocks. -/
theorem Marked.length_le : u.pages.length ≤ (blocks calls).length := by
  have hsub : u.pages ⊆ (blocks calls).map fun i => bitmapOffset + 4096 * i := by
    intro p hp
    obtain ⟨a, ha, -, rfl⟩ := (h.pages p).mp hp
    exact List.mem_map.mpr ⟨a / 65536, List.mem_dedup.mpr (List.mem_map_of_mem ha), rfl⟩
  have hle := (List.subperm_of_subset h.nodup hsub).length_le
  rwa [List.length_map] at hle

/-- Every block of the bitmap has its page. -/
theorem Marked.length_ge (hin : ∀ a ∈ calls, a < shadowSpaceOffset) :
    (blocks calls).length ≤ u.pages.length := by
  have hsub : blocks calls ⊆ u.pages.map fun p => (p - bitmapOffset) / 4096 := by
    intro i hi
    obtain ⟨a, ha, rfl⟩ := List.mem_map.mp (List.mem_dedup.mp hi)
    refine List.mem_map.mpr ⟨pageOf a, (h.pages _).mpr ⟨a, ha, hin a ha, rfl⟩, ?_⟩
    rw [pageOf]
    omega
  have hle := (List.subperm_of_subset (List.nodup_dedup _) hsub).length_le
  rwa [List.length_map] at hle

/-- A byte of a listed page is set if an address of the block has its mark there. -/
theorem Marked.byte {p b : ℕ} (hp : p ∈ u.pages) (hb : b < 4096) :
    u.mem (p + b) ≠ 0 ↔ ∃ a ∈ calls, pageOf a = p ∧ a % 65536 / 16 = b := by
  have hpage := h.isPage hp
  have hstart := hpage.start
  have hstop := hpage.stop
  have halign := hpage.aligned
  have hoffset := bitmapOffset_eq
  rw [(h.marks (p + b) (by omega) (by omega)).2]
  refine exists_congr fun a => and_congr_right fun _ => ?_
  rw [pageOf]
  omega

theorem Marked.zeroOne {p : ℕ} (hp : p ∈ u.pages) : ZeroOne u.mem p := by
  have hpage := h.isPage hp
  have hstart := hpage.start
  have hstop := hpage.stop
  exact fun b hb => (h.marks (p + b) (by omega) (by omega)).1

/-- The marks are in the end words of their pages if the addresses are at the ends of their
    blocks. -/
theorem Marked.endWords_iff :
    (∀ p ∈ u.pages, EndWords u.mem p) ↔
      ∀ a ∈ calls, a < shadowSpaceOffset → a % 65536 < 64 ∨ 65472 ≤ a % 65536 := by
  constructor
  · intro hend a ha hlt
    have hp := (h.pages (pageOf a)).mpr ⟨a, ha, hlt, rfl⟩
    have hb : a % 65536 / 16 < 4096 := by omega
    have hword := hend _ hp _ hb ((h.byte hp hb).mpr ⟨a, ha, rfl, rfl⟩)
    omega
  · intro hat p hp b hb hset
    obtain ⟨a, ha, hpage, hbyte⟩ := (h.byte hp hb).mp hset
    have hstop := (h.isPage hp).stop
    have hoffset := bitmapOffset_eq
    have hshadow := shadowSpaceOffset_eq
    rw [← hpage, pageOf] at hstop
    have := hat a ha (by omega)
    omega

/-- The regions of the listed pages are those of the calls. -/
theorem Marked.mem_regions {ps : List ℕ} (hperm : ps.Perm u.pages)
    (hend : ∀ p ∈ u.pages, EndWords u.mem p) {r : ℕ} :
    r ∈ ps.flatMap (regionsOfPage u.mem) ↔
      ∃ a ∈ calls, a < shadowSpaceOffset ∧ addrToRegion treeClick a = r := by
  have hoffset := bitmapOffset_eq
  have hshadow := shadowSpaceOffset_eq
  rw [List.mem_flatMap]
  constructor
  · rintro ⟨p, hp, hr⟩
    have hp := hperm.mem_iff.mp hp
    have hpage := h.isPage hp
    obtain ⟨b, hb, -, hset, rfl⟩ := (mem_regionsOfPage hpage).mp hr
    obtain ⟨a, ha, hpa, hba⟩ := (h.byte hp hb).mp hset
    have hstop := hpage.stop
    rw [← hpa, pageOf] at hstop
    exact ⟨a, ha, by omega, (region_eq a hpa hba).symm⟩
  · rintro ⟨a, ha, hlt, rfl⟩
    have hp := (h.pages (pageOf a)).mpr ⟨a, ha, hlt, rfl⟩
    have hb : a % 65536 / 16 < 4096 := by omega
    have hset := (h.byte hp hb).mpr ⟨a, ha, rfl, rfl⟩
    exact ⟨pageOf a, hperm.mem_iff.mpr hp, (mem_regionsOfPage (h.isPage hp)).mpr
      ⟨_, hb, hend _ hp _ hb hset, hset, region_eq a rfl rfl⟩⟩

/-- `ltckpt_clear_bitmap` after the calls: either the list of pages is too long, or every page is
    scanned. -/
theorem Marked.clearBitmap {steps : ℕ} (hsteps : 1024 ≤ steps)
    (hlen : u.pages.length ≤ sortedPagesSize) :
    ∃ t, clearBitmap steps u = .ok ⟨t, [], protectRuns u.writable 0 (sortPages u.pages)⟩ ∧
      Cleared u.toTreeState (sortPages u.pages) t := by
  obtain ⟨hperm, -⟩ := sortPages_spec u.pages
  obtain ⟨t, hfold, hcleared⟩ := clearPages_cleared hsteps (sortPages u.pages)
    (fun p hp => h.isPage (hperm.mem_iff.mp hp)) (hperm.nodup_iff.mpr h.nodup) u.toTreeState
  refine ⟨t, ?_, hcleared⟩
  simp only [PlainByte.clearBitmap, if_neg (Nat.not_lt.mpr hlen), hfold]

/-- Without marks between the end words the bitmap is zero afterwards. -/
theorem Marked.zero {t : TreeState} (hcleared : Cleared u.toTreeState (sortPages u.pages) t)
    (hend : ∀ p ∈ u.pages, EndWords u.mem p) :
    (∀ x, bitmapOffset ≤ x → x < shadowSpaceOffset → t.mem x = 0) ∧
      t.copied = u.copied ++ (sortPages u.pages).flatMap (regionsOfPage u.mem) := by
  have hperm := (sortPages_spec u.pages).1
  obtain ⟨hzero, hcopied⟩ := hcleared.clean fun p hp =>
    ⟨h.zeroOne (hperm.mem_iff.mp hp), hend p (hperm.mem_iff.mp hp)⟩
  refine ⟨fun x hlo hhi => ?_, hcopied⟩
  by_cases hin : ∃ p ∈ u.pages, p ≤ x ∧ x < p + 4096
  · obtain ⟨p, hp, hle, hlt⟩ := hin
    have hbyte := hzero p (hperm.mem_iff.mpr hp) (x - p) (by omega)
    rwa [show p + (x - p) = x by omega] at hbyte
  · -- a byte of a page that is not listed was never marked
    rw [hcleared.frame x hhi fun p hp => ?_]
    · by_contra hset
      obtain ⟨a, ha, hmark⟩ := ((h.marks x hlo hhi).2).mp hset
      have hoffset := bitmapOffset_eq
      have hshadow := shadowSpaceOffset_eq
      refine hin ⟨pageOf a, (h.pages _).mpr ⟨a, ha, by omega, rfl⟩, ?_⟩
      rw [pageOf]
      omega
    · by_contra hover
      exact hin ⟨p, hperm.mem_iff.mp hp, by omega⟩

/-- **An exact synchronisation**: the regions of the calls are copied once each, no others are,
    their shadows have the contents, and the bitmap is ready for the next epoch, with the pages
    protected that were so before. -/
structure Exact (s : ByteState) (calls : List ℕ) (t : ByteState) : Prop where
  ready : Ready t
  writable : ∀ p, s.writable p = false → t.writable p = false
  nodup : t.copied.Nodup
  copied : ∀ r, r ∈ t.copied ↔ ∃ a ∈ calls, addrToRegion treeClick a = r
  synced : Synced t.toTreeState
  below : ∀ x < bitmapOffset, t.mem x = s.mem x

/-- The addresses that are found are synchronised exactly. -/
theorem Marked.exact (hs : Ready s) (hcopied : s.copied = []) (hfound : Found calls) {t : TreeState}
    (hcleared : Cleared u.toTreeState (sortPages u.pages) t) :
    Exact s calls ⟨t, [], protectRuns u.writable 0 (sortPages u.pages)⟩ := by
  obtain ⟨hperm, hsorted⟩ := sortPages_spec u.pages
  have hpage : ∀ p ∈ sortPages u.pages, IsPage p := fun p hp => h.isPage (hperm.mem_iff.mp hp)
  have hend := h.endWords_iff.mpr fun a ha _ => (hfound.2 a ha).2
  obtain ⟨hzero, hcopies⟩ := h.zero hcleared hend
  rw [h.copied, hcopied, List.nil_append] at hcopies
  obtain ⟨hin, -, hkeep, hout⟩ := protectRuns_spec u.writable 0 hsorted
    hpage (Or.inl rfl)
  refine ⟨⟨hzero, rfl, fun p hp => ?_⟩, fun p hp => ?_, ?_, fun r => ?_, hcleared.synced ?_,
    fun x hx => ?_⟩
  · exact (hout p hp).trans ((h.writable p).mpr (Or.inr (hs.writable p hp)))
  · -- what the fault handler made writable is protected again
    by_cases hlisted : p ∈ u.pages
    · exact hin p (hperm.mem_iff.mpr hlisted)
    · refine hkeep p (Bool.eq_false_iff.mpr fun hw => ?_)
      exact ((h.writable p).mp hw).elim hlisted (Bool.eq_false_iff.mp hp)
  · show t.copied.Nodup
    rw [hcopies]
    exact nodup_regions hpage (hperm.nodup_iff.mpr h.nodup)
  · show r ∈ t.copied ↔ _
    rw [hcopies, h.mem_regions hperm hend]
    refine exists_congr fun a => and_congr_right fun ha => ?_
    exact and_iff_right (hfound.2 a ha).1
  · intro r hr
    rw [h.copied, hcopied] at hr
    exact absurd hr List.not_mem_nil
  · have hoffset := bitmapOffset_eq
    have hshadow := shadowSpaceOffset_eq
    rw [← h.below x hx]
    refine hcleared.frame x (by omega) fun p hp => ?_
    have := (hpage p hp).start
    omega

end Clear

/-- **When the bitmap is synchronised and cleared.** From any state in which the pages that the
    calls of `ltckpt_set_bit` touch are protected, these return.  `ltckpt_clear_bitmap` then copies
    every marked region and leaves the bitmap zero if the addresses are at the ends of at most 1000
    blocks, and only then; it ends whenever there are at most 1000 blocks. -/
theorem clears_iff {steps : ℕ} (hsteps : 1024 ≤ steps) {s : ByteState} (hready : Ready s)
    (hcopied : s.copied = []) (calls : List ℕ) (hprot : Protected s calls) :
    ∃ u, calls.foldlM setBit s = .ok u ∧
      ((∃ t, clearBitmap steps u = .ok t ∧ SyncsAndClears calls t) ↔ Found calls) ∧
      ((blocks calls).length ≤ sortedPagesSize → ∃ t, clearBitmap steps u = .ok t) ∧
      ∀ t, clearBitmap steps u = .ok t → Found calls → Exact s calls t := by
  obtain ⟨u, hcalls, h⟩ := setBits_marked hready hprot
  refine ⟨u, hcalls, ⟨?_, fun hfound => ?_⟩, fun hlen => ?_, fun t hclear hfound => ?_⟩
  · rintro ⟨t', hclear, hsync, hzero⟩
    have hlen : u.pages.length ≤ sortedPagesSize := by
      by_contra hlong
      rw [clearBitmap, if_pos (Nat.lt_of_not_le hlong)] at hclear
      exact absurd hclear (by simp)
    obtain ⟨t, hclear', hcleared⟩ := h.clearBitmap hsteps hlen
    obtain rfl := Except.ok.inj (hclear'.symm.trans hclear)
    have hperm := (sortPages_spec u.pages).1
    -- a page with a mark in the middle would have kept its sentinel
    have hend : ∀ p ∈ u.pages, EndWords u.mem p := by
      intro p hp
      by_contra hmid
      have hpage := h.isPage hp
      have := hpage.start
      have := hpage.stop
      exact hcleared.stops p (hperm.mem_iff.mpr hp) hmid (hzero _ (by omega) (by omega))
    -- and no region beyond the bitmap is copied
    have hcopies := (h.zero hcleared hend).2
    rw [h.copied, hcopied, List.nil_append] at hcopies
    have hin : ∀ a ∈ calls, a < shadowSpaceOffset := by
      intro a ha
      have hmem := hsync a ha
      rw [show (⟨t, [], protectRuns u.writable 0 (sortPages u.pages)⟩ : ByteState).copied =
        t.copied from rfl, hcopies, h.mem_regions hperm hend] at hmem
      obtain ⟨b, -, hb, heq⟩ := hmem
      have hshadow := shadowSpaceOffset_eq
      rw [addrToRegion, addrToRegion, treeClick_eq] at heq
      omega
    exact ⟨(h.length_ge hin).trans hlen,
      fun a ha => ⟨hin a ha, h.endWords_iff.mp hend a ha (hin a ha)⟩⟩
  · obtain ⟨t, hclear, hcleared⟩ := h.clearBitmap hsteps (h.length_le.trans hfound.1)
    have hexact := h.exact hready hcopied hfound hcleared
    exact ⟨_, hclear, fun a ha => (hexact.copied _).mpr ⟨a, ha, rfl⟩, hexact.ready.zero⟩
  · obtain ⟨t, hclear, -⟩ := h.clearBitmap hsteps (h.length_le.trans hlen)
    exact ⟨_, hclear⟩
  · obtain ⟨t', hclear', hcleared⟩ := h.clearBitmap hsteps (h.length_le.trans hfound.1)
    obtain rfl := Except.ok.inj (hclear'.symm.trans hclear)
    exact h.exact hready hcopied hfound hcleared

/-- The state after `ltckpt_bitmap_late_init_hook`: zero memory, the bitmap protected. -/
def fresh : ByteState :=
  ⟨⟨fun _ => 0, []⟩, [], fun p => !decide (bitmapOffset ≤ p ∧ p < shadowSpaceOffset)⟩

theorem fresh_ready : Ready fresh where
  zero _ _ _ := rfl
  pages := rfl
  writable _ hp := congrArg not (decide_eq_false hp)

/-- Addresses at the ends of two blocks: all four regions are copied, and the bitmap is zero. -/
theorem clears_iff_ends :
    ∃ u t, [0x2FFC0, 0x1003F, 0x20008, 0x2FFFF].foldlM setBit fresh = .ok u ∧
      clearBitmap 1024 u = .ok t ∧ 0x10030 ∈ t.copied ∧ 0x2FFF0 ∈ t.copied ∧ Ready t ∧
      ∀ p, fresh.writable p = false → t.writable p = false := by
  obtain ⟨u, hcalls, -, hends, hexact⟩ := clears_iff (Nat.le_refl 1024) fresh_ready rfl
    [0x2FFC0, 0x1003F, 0x20008, 0x2FFFF] (by unfold Protected; decide)
  obtain ⟨t, hclear⟩ := hends (by decide)
  have hfound : Found [0x2FFC0, 0x1003F, 0x20008, 0x2FFFF] := by decide
  have h := hexact t hclear hfound
  exact ⟨u, t, hcalls, hclear, (h.copied _).mpr ⟨0x1003F, by decide, by decide⟩,
    (h.copied _).mpr ⟨0x2FFFF, by decide, by decide⟩, h.ready, h.writable⟩

/-- The calls, then `ltckpt_clear_bitmap`. -/
def setAndClear (steps : ℕ) (s : ByteState) (calls : List ℕ) : Except Fault ByteState := do
  let u ← calls.foldlM setBit s
  clearBitmap steps u

/-- What two calls in the middle of a block leave: the copies, the byte of the second address and
    the first byte of the page's last word. -/
theorem setAndClear_middle :
    (setAndClear 1024 fresh [0x1000, 0x2000]).toOption.map
      (fun t => (t.copied, t.mem 0x5A000200, t.mem 0x5A000FFC)) = some ([0x1000], 1, 2) := by
  decide +kernel

/-- Two addresses in the middle of a block: the scan stops at the word of the first mark, the
    second region is not copied, and its mark and the sentinel stay. -/
theorem middle_word_missed :
    ∃ t, setAndClear 1024 fresh [0x1000, 0x2000] = .ok t ∧ ¬ SyncsAndClears [0x1000, 0x2000] t ∧
      0x2000 ∉ t.copied ∧ t.mem 0x5A000FFC ≠ 0 := by
  have hrun := setAndClear_middle
  cases hclear : setAndClear 1024 fresh [0x1000, 0x2000] with
  | error e =>
    rw [hclear] at hrun
    exact absurd hrun (by simp [Except.toOption])
  | ok t =>
    rw [hclear] at hrun
    have hview := Option.some.inj hrun
    simp only [Prod.mk.injEq] at hview
    obtain ⟨hcopied, -, hlast⟩ := hview
    have hmissed : 0x2000 ∉ t.copied := by
      rw [hcopied]
      decide
    refine ⟨t, rfl, fun h => hmissed (h.1 0x2000 (by decide)), hmissed, ?_⟩
    rw [hlast]
    decide

end Firestarter.Bitmap.PlainByte
