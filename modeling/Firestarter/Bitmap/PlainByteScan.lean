import Firestarter.Bitmap.Sweep

namespace Firestarter.Bitmap.PlainByte

open FlatMem
open Plain (shadowSpaceSize shadowSpaceOffset)

/-!
# The plain byte bitmap (`bitmap_plain_byte.h`, `ltckpt_bitmap_init.c`, 32-bit x86)

A byte of the bitmap stands for a region of 16 bytes.  The bitmap is write protected after every
checkpoint; the fault handler lists the pages that are written.  `ltckpt_clear_bitmap` sorts the
list and scans every page for words that are set, with a sentinel in the last word.  This file has
the code and what the scan of a page does.

* `setBit`, `clearBitmap` — the code, with the page faults;
* `scanPage_eq` — the scan handles the first word of the page and the first word after it that
  is set, and stops: the test meant for the last word holds of every word but the first;
* `clearPage_cleared`, `clearPages_cleared` — a page with marks in its first and last word only is
  handled completely, any other keeps its sentinel.
-/

/-! ### The code -/

/-- `LTCKPT_BITMAP_SIZE`. -/
def bitmapSize : ℕ := shadowSpaceSize / treeClick / 1

/-- `LTCKPT_BITMAP_OFFSET`. -/
def bitmapOffset : ℕ := pageRoundDown (shadowSpaceOffset - bitmapSize)

/-- `LTCKPT_MAX_PF`. -/
def maxPf : ℕ := 1024 * 1024

/-- The number of entries of `sorted_pages`. -/
def sortedPagesSize : ℕ := 1000

/-- Memory and the copies made, `pages` with `nr_pf` entries, and the pages of the bitmap that
    are writable. -/
structure ByteState extends TreeState where
  pages : List ℕ
  writable : ℕ → Bool

/-- How a call can end other than by returning. -/
inductive Fault
  /-- `ltckpt_panic`. -/
  | panic
  /-- A store beyond the end of `sorted_pages`. -/
  | outOfBounds
  /-- The bound on the number of steps is reached. -/
  | outOfFuel
  deriving DecidableEq, Repr

/-- `ltckpt_sigsegvhandler` for a store to the bitmap: list the page and make it writable. -/
def sigsegvHandler (s : ByteState) (addr : ℕ) : Except Fault ByteState :=
  let page := pageRoundDown addr
  if page = 0 then .error .panic
  else if s.pages.length + 1 = maxPf then .error .panic
  else .ok { s with
    pages := s.pages ++ [page]
    writable := fun p => if p = page then true else s.writable p }

/-- `ltckpt_set_bit`: `*p = 1`, which may fault. -/
def setBit (s : ByteState) (a : ℕ) : Except Fault ByteState := do
  let p := a >>> 4 + bitmapOffset
  let s ← if s.writable (pageRoundDown p) then .ok s else sigsegvHandler s p
  .ok { s with mem := write s.mem p [1] }

/-- `ltckpt_handle_bimap_word`: copy the regions of the bytes of a word that are set. -/
def handleBimapWord (s : TreeState) (w : ℕ) : TreeState :=
  let offset := (w - bitmapOffset) * treeClick % 2 ^ 32
  (List.range 4).foldl
    (fun s j => if s.mem (w + j) ≠ 0 then copyClick s (offset + j * treeClick) else s) s

/-- `while (!*addr) addr++;` with a bound on the number of steps. -/
def nextWord (m : Mem) : ℕ → ℕ → Option ℕ
  | 0, _ => none
  | n + 1, addr => if readLE m addr 4 = 0 then nextWord m n (addr + 4) else some addr

/-- The `while (1)` loop over a page; `steps` bounds the search for a word, and the first
    argument the number of rounds. -/
def scanPage (steps : ℕ) : ℕ → TreeState → ℕ → Option TreeState
  | 0, _, _ => none
  | n + 1, s, addr => do
    let addr ← nextWord s.mem steps addr
    if addr &&& 0xffc ≠ 0 then
      let s := (wordCell addr).set s (readLE s.mem addr 4 &&& 0xfffffffd)
      let s := handleBimapWord s addr
      some ((wordCell addr).set s 0)
    else
      let s := handleBimapWord s addr
      scanPage steps n ((wordCell addr).set s 0) addr

/-- A page of the list: set the sentinel `addr[1023] |= 0x2` and scan. -/
def clearPage (steps : ℕ) (s : TreeState) (page : ℕ) : Option TreeState :=
  let last := page + 4 * 1023
  scanPage steps steps ((wordCell last).set s (readLE s.mem last 4 ||| 2)) page

/-- The insertion into the list that `ltckpt_clear_bitmap` sorts. -/
def insertPage (page : ℕ) : List ℕ → List ℕ
  | [] => [page]
  | q :: ps => if q < page then q :: insertPage page ps else page :: q :: ps

/-- The sorted list of the pages. -/
def sortPages (pages : List ℕ) : List ℕ :=
  pages.foldl (fun sorted page => insertPage page sorted) []

/-- `TRESHOLD`. -/
def treshold : ℕ := 16 * 4096

/-- The `mprotect` calls over the sorted pages: a run of pages that are at most `TRESHOLD` apart
    is protected from `region_start` to its last page. -/
def protectRuns (writable : ℕ → Bool) : ℕ → List ℕ → ℕ → Bool
  | _, [] => writable
  | regionStart, page :: ps =>
    let regionStart := if regionStart = 0 then page else regionStart
    if ps = [] ∨ page + treshold < ps.headD 0 then
      protectRuns
        (fun p => if regionStart ≤ p ∧ p < page + 4096 then false else writable p) 0 ps
    else protectRuns writable regionStart ps

/-- `ltckpt_clear_bitmap`.  The source protects a run as soon as its last page is scanned; the
    pages scanned later lie above it, so the protection can be set after the scans. -/
def clearBitmap (steps : ℕ) (s : ByteState) : Except Fault ByteState :=
  if sortedPagesSize < s.pages.length then .error .outOfBounds
  else
    let sorted := sortPages s.pages
    match sorted.foldlM (clearPage steps) s.toTreeState with
    | none => .error .outOfFuel
    | some t => .ok ⟨t, [], protectRuns s.writable 0 sorted⟩

theorem bitmapOffset_eq : bitmapOffset = 0x5A000000 := by decide

/-! ### Scanning a page -/

/-- A page of the bitmap. -/
structure IsPage (page : ℕ) : Prop where
  aligned : page % 4096 = 0
  start : bitmapOffset ≤ page
  stop : page + 4096 ≤ shadowSpaceOffset

/-- The regions of the bytes of a word that are set. -/
def regionsOfWord (m : Mem) (w : ℕ) : List ℕ :=
  ((List.range 4).filter fun j => m (w + j) ≠ 0).map fun j => (w - bitmapOffset + j) * treeClick

variable {w n k page x p : ℕ} {m m' : Mem} {s t : TreeState}

/-- The search stops at the first word that is set. -/
theorem nextWord_eq {addr : ℕ} (hzero : ∀ j < k, readLE m (addr + 4 * j) 4 = 0)
    (hset : readLE m (addr + 4 * k) 4 ≠ 0) (hn : k < n) :
    nextWord m n addr = some (addr + 4 * k) := by
  induction n generalizing k addr with
  | zero => omega
  | succ n ih =>
    rw [nextWord]
    cases k with
    | zero =>
      rw [Nat.mul_zero, Nat.add_zero] at hset
      rw [if_neg hset]
      rfl
    | succ k =>
      have hfirst := hzero 0 (by omega)
      have hnext : ∀ j, addr + 4 * (j + 1) = addr + 4 + 4 * j := fun j => by omega
      rw [Nat.mul_zero, Nat.add_zero] at hfirst
      rw [hnext] at hset ⊢
      rw [if_pos hfirst]
      exact ih (fun j hj => hnext j ▸ hzero (j + 1) (by omega)) hset (by omega)

/-- The test for the end of the page sees the index of the word. -/
theorem and_ffc (hpage : page % 4096 = 0) (hk : k < 1024) : (page + 4 * k) &&& 0xffc = 4 * k := by
  have hshift : page + 4 * k = (1024 * (page / 4096) + k) <<< 2 := by
    rw [Nat.shiftLeft_eq]
    omega
  have hmask : (0xffc : ℕ) = 1023 <<< 2 := by decide
  rw [hshift, hmask, ← Nat.shiftLeft_and_distrib,
    show 1023 = 2 ^ 10 - 1 by decide, Nat.and_two_pow_sub_one_eq_mod, Nat.shiftLeft_eq]
  omega

/-- The bytes of a word that is zero are zero. -/
theorem byte_eq_zero_of_readLE {j : ℕ} (hzero : readLE m w 4 = 0) (hj : j < 4) : m (w + j) = 0 := by
  refine eq_zero_of_bitAt fun bit hbit => ?_
  have h := testBit_readLE m w (k := 4) (j := 8 * j + bit) (by omega)
  rw [hzero, Nat.zero_testBit, show (8 * j + bit) / 8 = j by omega,
    show (8 * j + bit) % 8 = bit by omega] at h
  exact h.symm

theorem set_mem (s : TreeState) (w v : ℕ) : ((wordCell w).set s v).mem = writeLE s.mem w 4 v := rfl

theorem set_copied (s : TreeState) (w v : ℕ) : ((wordCell w).set s v).copied = s.copied := rfl

/-- Handle a word and clear it. -/
def finishWord (s : TreeState) (addr : ℕ) : TreeState :=
  (wordCell addr).set (handleBimapWord s addr) 0

/-- The last word of a scan: without the sentinel's bit, then handled and cleared. -/
def stopAt (s : TreeState) (addr : ℕ) : TreeState :=
  finishWord ((wordCell addr).set s (readLE s.mem addr 4 &&& 0xfffffffd)) addr

/-- A word that is zero is handled by doing nothing. -/
theorem finishWord_zero (hzero : readLE s.mem w 4 = 0) : finishWord s w = s := by
  have hhandle : handleBimapWord s w = s := by
    rw [handleBimapWord]
    refine Drain.foldl_range_inv (n := 4) (I := fun _ t => t = s) (fun j hj t ht => ?_) rfl
    rw [ht, if_neg (not_not.mpr (byte_eq_zero_of_readLE hzero hj))]
  have hset := (wordCell w).set_get s
  rw [show (wordCell w).get s = 0 from hzero] at hset
  rw [finishWord, hhandle, hset]

/-- The shadows of the regions that were copied have their contents; regions of the bitmap apart,
    which change while it is scanned. -/
def Synced (s : TreeState) : Prop :=
  ∀ r ∈ s.copied, r % 16 = 0 ∧
    (r < bitmapOffset → ∀ i < 16, s.mem (r + shadowSpaceOffset + i) = s.mem (r + i))

/-- A copied region is in its shadow, and the rest of memory is unchanged. -/
theorem copyClick_mem (s : TreeState) {data : ℕ} (hlt : data < shadowSpaceOffset) :
    (∀ i < 16, (copyClick s data).mem (data + shadowSpaceOffset + i) = s.mem (data + i)) ∧
      ∀ x, x < data + shadowSpaceOffset ∨ data + shadowSpaceOffset + 16 ≤ x →
        (copyClick s data).mem x = s.mem x := by
  have hshadow := shadowSpaceOffset_eq
  have hdst : (data + shadowSpaceOffset) % 2 ^ 32 = data + shadowSpaceOffset := by omega
  have hlen : (FlatMem.read s.mem data treeClick).length = 16 := read_length ..
  simp only [copyClick, hdst]
  refine ⟨fun i hi => ?_, fun x hx => write_of_outside s.mem _ _ (by omega)⟩
  rw [write_of_inside s.mem _ _ (by omega) (by omega), Nat.add_sub_cancel_left,
    read_getD s.mem data (by rw [treeClick_eq]; omega)]

theorem Synced.copyClick (h : Synced s) {data : ℕ} (halign : data % 16 = 0)
    (hlt : data < shadowSpaceOffset) : Synced (copyClick s data) := by
  have hoffset := bitmapOffset_eq
  have hshadow := shadowSpaceOffset_eq
  obtain ⟨hcopy, hrest⟩ := copyClick_mem s hlt
  intro r hr
  by_cases heq : r = data
  · refine ⟨heq ▸ halign, fun hprog i hi => ?_⟩
    rw [heq, hcopy i hi, hrest (data + i) (by omega)]
  · -- another region: neither it nor its shadow is written
    obtain ⟨hr16, hsame⟩ := h r <| (List.mem_append.mp hr).resolve_right fun hnew =>
      heq (List.mem_singleton.mp hnew)
    refine ⟨hr16, fun hprog i hi => ?_⟩
    rw [hrest (r + shadowSpaceOffset + i) (by omega), hrest (r + i) (by omega)]
    exact hsame hprog i hi

section Word

variable (hlo : bitmapOffset ≤ w) (hhi : w + 4 ≤ shadowSpaceOffset)
include hlo hhi

/-- Handling a word copies the regions of its bytes to the shadow space. -/
theorem handleBimapWord_spec :
    (∀ x < shadowSpaceOffset, (handleBimapWord s w).mem x = s.mem x) ∧
      (handleBimapWord s w).copied = s.copied ++ regionsOfWord s.mem w := by
  rw [bitmapOffset_eq] at hlo
  rw [shadowSpaceOffset_eq] at hhi
  unfold handleBimapWord
  -- after `j` bytes
  refine Drain.foldl_range_inv (n := 4) (s := s)
    (I := fun j (t : TreeState) => (∀ x < shadowSpaceOffset, t.mem x = s.mem x) ∧
      t.copied = s.copied ++ ((List.range j).filter fun j => s.mem (w + j) ≠ 0).map
        fun j => (w - bitmapOffset + j) * treeClick) ?_ ⟨fun _ _ => rfl, (List.append_nil _).symm⟩
  rintro j hj t ⟨hmem, hcopied⟩
  have hbyte : t.mem (w + j) = s.mem (w + j) := hmem _ (by rw [shadowSpaceOffset_eq]; omega)
  have hdata : (w - bitmapOffset) * treeClick % 2 ^ 32 + j * treeClick =
      (w - bitmapOffset + j) * treeClick := by
    rw [bitmapOffset_eq, treeClick_eq]
    omega
  rw [List.range_succ, List.filter_append, List.map_append, ← List.append_assoc, ← hcopied,
    hbyte, hdata]
  by_cases hset : s.mem (w + j) ≠ 0
  · rw [if_pos hset]
    refine ⟨fun x hx => (copyClick_keeps t ?_).trans (hmem x hx), ?_⟩
    · rw [shadowSpaceOffset_eq] at hx
      rw [bitmapOffset_eq, treeClick_eq, shadowSpaceOffset_eq]
      omega
    · simp [copyClick, hset]
  · rw [if_neg hset]
    refine ⟨hmem, ?_⟩
    simp [not_not.mp hset]

/-- Handling a word changes nothing of the bitmap but the word. -/
theorem finishWord_mem (hx : x < shadowSpaceOffset) :
    (finishWord s w).mem x = if w ≤ x ∧ x < w + 4 then 0 else s.mem x := by
  show writeLE (handleBimapWord s w).mem w 4 0 x = _
  rw [writeLE_zero, (handleBimapWord_spec hlo hhi).1 x hx]

/-- The scan leaves the bitmap outside the page alone. -/
theorem stopAt_mem (hx : x < shadowSpaceOffset) :
    (stopAt s w).mem x = if w ≤ x ∧ x < w + 4 then 0 else s.mem x := by
  rw [stopAt, finishWord_mem hlo hhi hx]
  split_ifs with hin
  · rfl
  · exact writeLE_of_outside s.mem w 4 _ (by omega)

/-- Handling a word synchronises the regions of its marks. -/
theorem finishWord_copied : (finishWord s w).copied = s.copied ++ regionsOfWord s.mem w := by
  unfold finishWord
  rw [set_copied]
  exact (handleBimapWord_spec hlo hhi).2

theorem Synced.set (h : Synced s) {v : ℕ} : Synced ((wordCell w).set s v) := by
  have hoffset := bitmapOffset_eq
  intro r hr
  obtain ⟨halign, hsame⟩ := h r hr
  refine ⟨halign, fun hlt i hi => ?_⟩
  have hlow : r + i < w := by omega
  rw [set_mem, writeLE_of_outside s.mem w 4 v (Or.inr (by omega)),
    writeLE_of_outside s.mem w 4 v (Or.inl hlow)]
  exact hsame hlt i hi

theorem Synced.finishWord (h : Synced s) : Synced (finishWord s w) := by
  have hoffset := bitmapOffset_eq
  have hshadow := shadowSpaceOffset_eq
  refine Synced.set hlo hhi ?_
  rw [handleBimapWord]
  refine Drain.foldl_range_inv (n := 4) (I := fun _ (t : TreeState) => Synced t)
    (fun j hj t ht => ?_) h
  by_cases hset : t.mem (w + j) ≠ 0
  · rw [if_pos hset]
    have hclick := treeClick_eq
    exact ht.copyClick (by rw [hclick]; omega) (by rw [hclick]; omega)
  · rw [if_neg hset]
    exact ht

end Word

/-- The scan handles the first word of the page and the next one that is set, and stops. -/
theorem scanPage_eq (hp : IsPage page) (hk : 1 ≤ k) (hk' : k < 1024)
    (hzero : ∀ j, 1 ≤ j → j < k → readLE s.mem (page + 4 * j) 4 = 0)
    (hset : readLE s.mem (page + 4 * k) 4 ≠ 0) (hn : 1024 ≤ n) :
    scanPage n n s page = some (stopAt (finishWord s page) (page + 4 * k)) := by
  have hstart := hp.start
  have hstop := hp.stop
  obtain ⟨n, rfl⟩ : ∃ m, n = m + 2 := ⟨n - 2, by omega⟩
  have htest : (page + 4 * k) &&& 0xffc ≠ 0 := by
    rw [and_ffc hp.aligned hk']
    omega
  -- what remains of the loop once the first word is zero
  have hlast : ∀ t : TreeState, readLE t.mem page 4 = 0 →
      (∀ j, 1 ≤ j → j ≤ k → readLE t.mem (page + 4 * j) 4 = readLE s.mem (page + 4 * j) 4) →
      ∀ i, scanPage (n + 2) (i + 1) t page = some (stopAt t (page + 4 * k)) := by
    intro t hfirst hwords i
    have hnext : nextWord t.mem (n + 2) page = some (page + 4 * k) := by
      refine nextWord_eq (fun j hj => ?_) ?_ (by omega)
      · rcases Nat.eq_zero_or_pos j with rfl | hpos
        · exact hfirst
        · rw [hwords j hpos (by omega), hzero j hpos hj]
      · rw [hwords k hk le_rfl]
        exact hset
    rw [scanPage, hnext]
    show (if (page + 4 * k) &&& 0xffc ≠ 0 then _ else _) = _
    rw [if_pos htest]
    rfl
  by_cases hfirst : readLE s.mem page 4 = 0
  · rw [finishWord_zero hfirst]
    exact hlast s hfirst (fun _ _ _ => rfl) (n + 1)
  · have hnext : nextWord s.mem (n + 2) page = some page :=
      nextWord_eq (k := 0) (fun j hj => absurd hj (by omega)) hfirst (by omega)
    have htest0 : ¬ (page &&& 0xffc ≠ 0) := by
      have h := and_ffc (k := 0) hp.aligned (by omega)
      rw [Nat.mul_zero, Nat.add_zero] at h
      exact not_not.mpr h
    have hround : scanPage (n + 2) (n + 2) s page =
        scanPage (n + 2) (n + 1) (finishWord s page) page := by
      rw [scanPage, hnext]
      show (if page &&& 0xffc ≠ 0 then _ else _) = _
      rw [if_neg htest0]
      rfl
    rw [hround]
    refine hlast _ ?_ ?_ n
    · exact readLE_eq_zero fun i hi => by
        rw [finishWord_mem hstart (by omega) (by omega), if_pos (by omega)]
    · intro j hj hjk
      refine readLE_congr fun i hi => ?_
      rw [finishWord_mem hstart (by omega) (by omega), if_neg (by omega)]

/-- The state with the sentinel in the last word of the page. -/
def withSentinel (s : TreeState) (page : ℕ) : TreeState :=
  (wordCell (page + 4 * 1023)).set s (readLE s.mem (page + 4 * 1023) 4 ||| 2)

theorem withSentinel_mem (s : TreeState) (hx : x < page + 4092 ∨ page + 4096 ≤ x) :
    (withSentinel s page).mem x = s.mem x :=
  writeLE_of_outside s.mem _ 4 _ (by omega)

/-- The sentinel is bit 1 of the last word. -/
theorem withSentinel_bit (s : TreeState) (page : ℕ) {i : ℕ} (hi : i < 32) :
    bitAt (withSentinel s page).mem (page + 4092 + i / 8) (i % 8) =
      (bitAt s.mem (page + 4092 + i / 8) (i % 8) || decide (1 = i)) := by
  have hlt : readLE s.mem (page + 4092) 4 ||| 2 < 256 ^ 4 :=
    Nat.or_lt_two_pow (n := 32) (readLE_lt s.mem (page + 4092) 4) (by decide)
  refine (bitAt_writeLE s.mem (page + 4092) hlt (by omega)).trans ?_
  rw [Nat.testBit_or, testBit_readLE s.mem _ (by omega), show 2 = 2 ^ 1 by decide,
    Nat.testBit_two_pow]

theorem sentinel_byte (s : TreeState) (page : ℕ) : (withSentinel s page).mem (page + 4092) ≠ 0 := by
  intro hzero
  have hbit := withSentinel_bit s page (i := 1) (by omega)
  rw [show page + 4092 + 1 / 8 = page + 4092 from rfl, bitAt, hzero] at hbit
  simp at hbit

theorem sentinel_set (s : TreeState) (page : ℕ) :
    readLE (withSentinel s page).mem (page + 4 * 1023) 4 ≠ 0 :=
  fun hzero => sentinel_byte s page (byte_eq_zero_of_readLE (j := 0) hzero (by omega))

/-- **What the scan of a page does**: it stops at the first word after the first one that is
    set, which is the last one only if nothing else is set. -/
theorem clearPage_spec (s : TreeState) (hp : IsPage page) (hn : 1024 ≤ n) :
    ∃ k, 1 ≤ k ∧ k ≤ 1023 ∧ clearPage n s page =
        some (stopAt (finishWord (withSentinel s page) page) (page + 4 * k)) ∧
      (∀ j, 1 ≤ j → j < k → readLE s.mem (page + 4 * j) 4 = 0) ∧
      (k < 1023 → readLE s.mem (page + 4 * k) 4 ≠ 0) := by
  have hex : ∃ k, 1 ≤ k ∧ readLE (withSentinel s page).mem (page + 4 * k) 4 ≠ 0 :=
    ⟨1023, by omega, sentinel_set s page⟩
  have hle : Nat.find hex ≤ 1023 := Nat.find_min' hex ⟨by omega, sentinel_set s page⟩
  have hwords : ∀ j < 1023, readLE (withSentinel s page).mem (page + 4 * j) 4 =
      readLE s.mem (page + 4 * j) 4 :=
    fun j hj => readLE_congr fun i hi => withSentinel_mem s (by omega)
  have hzero : ∀ j, 1 ≤ j → j < Nat.find hex →
      readLE (withSentinel s page).mem (page + 4 * j) 4 = 0 := by
    intro j hj hlt
    by_contra hset
    exact Nat.find_min hex hlt ⟨hj, hset⟩
  have hfound := Nat.find_spec hex
  refine ⟨Nat.find hex, hfound.1, hle, ?_, fun j hj hlt => ?_, fun hlt => ?_⟩
  · exact scanPage_eq hp hfound.1 (by omega) hzero hfound.2 hn
  · rw [← hwords j (by omega)]
    exact hzero j hj hlt
  · rw [← hwords _ hlt]
    exact hfound.2

/-- The bytes of the page are those that `ltckpt_set_bit` stores. -/
def ZeroOne (m : Mem) (page : ℕ) : Prop := ∀ b < 4096, m (page + b) = 0 ∨ m (page + b) = 1

/-- The marks of the page lie in its first and last word. -/
def EndWords (m : Mem) (page : ℕ) : Prop :=
  ∀ b < 4096, m (page + b) ≠ 0 → b < 4 ∨ 4092 ≤ b

/-- The regions of the marks in the first and the last word of a page. -/
def regionsOfPage (m : Mem) (page : ℕ) : List ℕ :=
  regionsOfWord m page ++ regionsOfWord m (page + 4092)

theorem regionsOfWord_congr (h : ∀ j < 4, m (w + j) = m' (w + j)) :
    regionsOfWord m w = regionsOfWord m' w := by
  rw [regionsOfWord, regionsOfWord]
  congr 1
  refine List.filter_congr fun j hj => ?_
  rw [h j (List.mem_range.mp hj)]

/-- Taking the sentinel away leaves the word as it was. -/
theorem unsentinel (hone : ZeroOne s.mem page)
    (hsame : ∀ i < 4, t.mem (page + 4092 + i) = (withSentinel s page).mem (page + 4092 + i)) {j : ℕ}
    (hj : j < 4) :
    writeLE t.mem (page + 4092) 4 (readLE t.mem (page + 4092) 4 &&& 0xfffffffd)
      (page + 4092 + j) = s.mem (page + 4092 + j) := by
  have hlt : readLE t.mem (page + 4092) 4 &&& 0xfffffffd < 256 ^ 4 :=
    lt_of_le_of_lt Nat.and_le_right (by decide)
  have hmask : ∀ i < 32, (0xfffffffd : ℕ).testBit i = decide (1 ≠ i) := by decide
  have hword : readLE t.mem (page + 4092) 4 = readLE (withSentinel s page).mem (page + 4092) 4 :=
    readLE_congr hsame
  refine eq_of_bitAt fun bit hbit => ?_
  have hi : 8 * j + bit < 32 := by omega
  have hset := bitAt_writeLE t.mem (page + 4092) hlt (i := 8 * j + bit) (by omega)
  rw [Nat.testBit_and, hword, testBit_readLE _ _ (by omega), withSentinel_bit s page hi,
    hmask _ hi, show (8 * j + bit) / 8 = j by omega, show (8 * j + bit) % 8 = bit by omega] at hset
  rw [hword, hset]
  by_cases h1 : 1 = 8 * j + bit
  · -- a byte that is zero or one does not have the sentinel's bit
    obtain ⟨rfl, rfl⟩ : j = 0 ∧ bit = 1 := by omega
    have hbyte := hone 4092 (by omega)
    rw [bitAt, Nat.add_zero]
    rcases hbyte with h | h <;> rw [h] <;> rfl
  · simp [h1]

/-- **Scanned pages**: what holds after the scans of `ps`. -/
structure Cleared (s : TreeState) (ps : List ℕ) (t : TreeState) : Prop where
  /-- The rest of the bitmap is unchanged. -/
  frame : ∀ x < shadowSpaceOffset, (∀ p ∈ ps, x < p ∨ p + 4096 ≤ x) → t.mem x = s.mem x
  /-- A page with a mark between its first and last word keeps its sentinel. -/
  stops : ∀ p ∈ ps, ¬ EndWords s.mem p → t.mem (p + 4092) ≠ 0
  /-- Every copy is made. -/
  synced : Synced s → Synced t
  /-- Pages without such a mark are synchronised and cleared. -/
  clean : (∀ p ∈ ps, ZeroOne s.mem p ∧ EndWords s.mem p) →
    (∀ p ∈ ps, ∀ b < 4096, t.mem (p + b) = 0) ∧
      t.copied = s.copied ++ ps.flatMap (regionsOfPage s.mem)

/-- A mark in the middle of the page stops the scan before the last word. -/
theorem endWords_of_zero (hzero : ∀ j, 1 ≤ j → j < 1023 → readLE m (page + 4 * j) 4 = 0) :
    EndWords m page := by
  intro b hb hnz
  by_contra hmid
  have hword := hzero (b / 4) (by omega) (by omega)
  have hbyte := byte_eq_zero_of_readLE (j := b % 4) hword (by omega)
  rw [show page + 4 * (b / 4) + b % 4 = page + b by omega] at hbyte
  exact hnz hbyte

/-- Without a mark in the middle the scan reaches the last word. -/
theorem readLE_eq_zero_of_endWords (hend : EndWords m page) (hk : 1 ≤ k) (hk' : k < 1023) :
    readLE m (page + 4 * k) 4 = 0 := by
  refine readLE_eq_zero fun j hj => ?_
  by_contra hnz
  rw [Nat.add_assoc] at hnz
  have := hend (4 * k + j) (by omega) hnz
  omega

/-- A clean page is synchronised: the first word, then the last one without the sentinel. -/
theorem stopAt_copied (hp : IsPage page) (hone : ZeroOne s.mem page) :
    (stopAt (finishWord (withSentinel s page) page) (page + 4 * 1023)).copied =
      s.copied ++ regionsOfPage s.mem page := by
  have hstart := hp.start
  have hstop := hp.stop
  have hfirst : regionsOfWord (withSentinel s page).mem page = regionsOfWord s.mem page :=
    regionsOfWord_congr fun j hj => withSentinel_mem s (by omega)
  have hlast : regionsOfWord (writeLE (finishWord (withSentinel s page) page).mem (page + 4092) 4
      (readLE (finishWord (withSentinel s page) page).mem (page + 4092) 4 &&& 0xfffffffd))
        (page + 4092) = regionsOfWord s.mem (page + 4092) := by
    refine regionsOfWord_congr fun j hj => unsentinel hone (fun i hi => ?_) hj
    rw [finishWord_mem hstart (by omega) (by omega), if_neg (by omega)]
  rw [show page + 4 * 1023 = page + 4092 by omega, stopAt,
    finishWord_copied (by omega) (by omega), set_mem, hlast, set_copied,
    finishWord_copied hstart (by omega), hfirst, withSentinel, set_copied, List.append_assoc,
    regionsOfPage]

/-- The scan of a page does what `Cleared` says. -/
theorem clearPage_cleared (s : TreeState) (hp : IsPage page) (hn : 1024 ≤ n) :
    ∃ t, clearPage n s page = some t ∧ Cleared s [page] t := by
  have hstart := hp.start
  have hstop := hp.stop
  obtain ⟨k, hk, hk', hclear, hzero, hset⟩ := clearPage_spec s hp hn
  -- the words at `page` and `page + 4 * k` are cleared, and nothing else
  have hmem : ∀ x < shadowSpaceOffset,
      (stopAt (finishWord (withSentinel s page) page) (page + 4 * k)).mem x =
        if page + 4 * k ≤ x ∧ x < page + 4 * k + 4 then 0
        else if page ≤ x ∧ x < page + 4 then 0 else (withSentinel s page).mem x := by
    intro x hx
    rw [stopAt_mem (by omega) (by omega) hx, finishWord_mem hstart (by omega) hx]
  refine ⟨_, hclear, ⟨fun x hx hout => ?_, fun p hpage hend => ?_, fun hsynced => ?_,
    fun hclean => ?_⟩⟩
  · have hx' := hout page (List.mem_singleton_self page)
    rw [hmem x hx, if_neg (by omega), if_neg (by omega), withSentinel_mem s (by omega)]
  · obtain rfl := List.mem_singleton.mp hpage
    have hlt : k < 1023 := by
      by_contra hge
      exact hend (endWords_of_zero fun j hj hj' => hzero j hj (by omega))
    rw [hmem _ (by omega), if_neg (by omega), if_neg (by omega)]
    exact sentinel_byte s p
  · have hsentinel : Synced (withSentinel s page) := hsynced.set (by omega) (by omega)
    have hfirst := hsentinel.finishWord hstart (by omega)
    exact Synced.finishWord (by omega) (by omega) (hfirst.set (by omega) (by omega))
  · obtain ⟨hone, hend⟩ := hclean page (List.mem_singleton_self page)
    obtain rfl : k = 1023 := by
      by_contra hne
      exact hset (by omega) (readLE_eq_zero_of_endWords hend hk (by omega))
    refine ⟨fun p hpage b hb => ?_, ?_⟩
    · obtain rfl := List.mem_singleton.mp hpage
      rw [hmem _ (by omega)]
      split_ifs with hlast hfirst
      · rfl
      · rfl
      · rw [withSentinel_mem s (by omega)]
        by_contra hnz
        have := hend b hb hnz
        omega
    · rw [stopAt_copied hp hone, List.flatMap_singleton]

/-- Two pages are equal or disjoint. -/
theorem IsPage.disjoint {q : ℕ} (hp : IsPage p) (hq : IsPage q) (hne : p ≠ q) {b : ℕ}
    (hb : b < 4096) : p + b < q ∨ q + 4096 ≤ p + b := by
  have := hp.aligned
  have := hq.aligned
  omega

/-- The bytes of the other pages are unchanged. -/
theorem Cleared.other {q : ℕ} (h : Cleared s [p] t) (hp : IsPage p) (hq : IsPage q) (hne : q ≠ p)
    {b : ℕ} (hb : b < 4096) : t.mem (q + b) = s.mem (q + b) := by
  have := hq.stop
  refine h.frame _ (by omega) fun r hr => ?_
  obtain rfl := List.mem_singleton.mp hr
  exact hq.disjoint hp hne hb

theorem ZeroOne.congr (h : ∀ b < 4096, m (page + b) = m' (page + b)) (hone : ZeroOne m page) :
    ZeroOne m' page :=
  fun b hb => h b hb ▸ hone b hb

theorem EndWords.congr (h : ∀ b < 4096, m (page + b) = m' (page + b)) (hend : EndWords m page) :
    EndWords m' page :=
  fun b hb hnz => hend b hb (h b hb ▸ hnz)

theorem regionsOfPage_congr (h : ∀ b < 4096, m (page + b) = m' (page + b)) :
    regionsOfPage m page = regionsOfPage m' page := by
  have hfirst : regionsOfWord m page = regionsOfWord m' page :=
    regionsOfWord_congr fun j hj => h j (by omega)
  have hlast : regionsOfWord m (page + 4092) = regionsOfWord m' (page + 4092) := by
    refine regionsOfWord_congr fun j hj => ?_
    rw [Nat.add_assoc]
    exact h _ (by omega)
  rw [regionsOfPage, regionsOfPage, hfirst, hlast]

/-- The scan of one page, then the scans of others. -/
theorem Cleared.cons {u : TreeState} {ps : List ℕ} (hpage : Cleared s [p] t)
    (hrest : Cleared t ps u) (hp : IsPage p) (hps : ∀ q ∈ ps, IsPage q) (hnew : p ∉ ps) :
    Cleared s (p :: ps) u := by
  have hpstop := hp.stop
  -- the pages of the rest are as they were, and the rest leaves the first page alone
  have hsame : ∀ q ∈ ps, ∀ b < 4096, s.mem (q + b) = t.mem (q + b) := fun q hq b hb =>
    (hpage.other hp (hps q hq) (fun heq => hnew (heq ▸ hq)) hb).symm
  have hkeep : ∀ b < 4096, u.mem (p + b) = t.mem (p + b) := fun b hb =>
    hrest.frame _ (by omega) fun q hq =>
      hp.disjoint (hps q hq) (fun heq => hnew (heq ▸ hq)) hb
  refine ⟨fun x hx hout => ?_, fun q hq hend => ?_, fun h => hrest.synced (hpage.synced h),
    fun hclean => ?_⟩
  · rw [hrest.frame x hx fun q hq => hout q (List.mem_cons_of_mem _ hq)]
    refine hpage.frame x hx fun q hq => ?_
    exact hout q (List.mem_singleton.mp hq ▸ List.mem_cons_self)
  · rcases List.mem_cons.mp hq with rfl | hq
    · rw [hkeep 4092 (by omega)]
      exact hpage.stops q (List.mem_singleton_self q) hend
    · exact hrest.stops q hq fun h => hend (h.congr fun b hb => (hsame q hq b hb).symm)
  · obtain ⟨hzero, hcopied⟩ := hpage.clean fun q hq =>
      hclean q (List.mem_singleton.mp hq ▸ List.mem_cons_self)
    obtain ⟨hzeros, hcopies⟩ := hrest.clean fun q hq =>
      ⟨(hclean q (List.mem_cons_of_mem _ hq)).1.congr (hsame q hq),
        (hclean q (List.mem_cons_of_mem _ hq)).2.congr (hsame q hq)⟩
    refine ⟨fun q hq b hb => ?_, ?_⟩
    · rcases List.mem_cons.mp hq with rfl | hq
      · rw [hkeep b hb]
        exact hzero q (List.mem_singleton_self q) b hb
      · exact hzeros q hq b hb
    · have hregions : ps.flatMap (regionsOfPage t.mem) = ps.flatMap (regionsOfPage s.mem) :=
        List.flatMap_congr fun q hq => (regionsOfPage_congr (hsame q hq)).symm
      rw [hcopies, hcopied, hregions, List.flatMap_singleton, List.flatMap_cons,
        List.append_assoc]

/-- **All the pages.** The scans of distinct pages end, whatever the order. -/
theorem clearPages_cleared (hn : 1024 ≤ n) (ps : List ℕ) (hps : ∀ p ∈ ps, IsPage p)
    (hnodup : ps.Nodup) (s : TreeState) :
    ∃ t, ps.foldlM (clearPage n) s = some t ∧ Cleared s ps t := by
  induction ps generalizing s with
  | nil =>
    refine ⟨s, rfl, fun _ _ _ => rfl, fun p hp => absurd hp List.not_mem_nil, id, fun _ => ?_⟩
    exact ⟨fun p hp => absurd hp List.not_mem_nil, (List.append_nil _).symm⟩
  | cons p ps ih =>
    obtain ⟨hnew, hrest⟩ := List.nodup_cons.mp hnodup
    have hp := hps p List.mem_cons_self
    have hps' : ∀ q ∈ ps, IsPage q := fun q hq => hps q (List.mem_cons_of_mem _ hq)
    obtain ⟨t, hpage, hcleared⟩ := clearPage_cleared s hp hn
    obtain ⟨u, hfold, hcleareds⟩ := ih hps' hrest t
    refine ⟨u, ?_, hcleared.cons hcleareds hp hps' hnew⟩
    rw [List.foldlM_cons, hpage]
    exact hfold

end Firestarter.Bitmap.PlainByte
