import Firestarter.Bitmap.Regions
import Firestarter.Lib.CopyOnTouch
import Firestarter.Ltckpt.Writelog

namespace Firestarter.Bitmap.Epoch

open FlatMem Ltckpt

/-!
# The epoch bitmap (`bitmap_plain_epoch.h` with `LTCKPT_SYNC_SCHEME`, x86-64)

One byte of the bitmap stands for a region of 128 bytes.  It holds the epoch in which the
region was last copied to its shadow, so that a checkpoint only has to count the epoch up.
When the 8-bit epoch wraps, the bitmap is mapped anew.

* `setBit`, `storeHook`, `memcpyHook`, `topOfTheLoop` — the code;
* `Window` — an aligned window of program memory, away from the bitmap and the shadow space;
* `EpochInv` — no byte is ahead of the epoch, the bytes at the epoch mark the touched regions,
  and the shadows are those of a copy-on-touch checkpoint;
* `epochRun_exact` — every run keeps it, over any number of wraps of the epoch.
-/

/-! ### Constants and address mapping -/

/-- `LTCKPT_SHADOW_SPACE_SIZE`. -/
def shadowSpaceSize : ℕ := 0x1000000000

/-- `LTCKPT_SHADOW_SPACE_OFFSET`. -/
def shadowSpaceOffset : ℕ := 0x2000000000

/-- `LTCKPT_BITMAP_CLICK`. -/
def bitmapClick : ℕ := 128

/-- `LTCKPT_BITMAP_START`. -/
def bitmapStart : ℕ := 0x1000000000

/-- `LTCKPT_BITMAP_SIZE`. -/
def bitmapSize : ℕ := shadowSpaceSize / bitmapClick

/-- `LTCKPT_ADDR_TO_BITMAP`. -/
def addrToBitmap (x : ℕ) : ℕ := x % shadowSpaceSize / bitmapClick + bitmapStart

/-- `ltckpt_primary_to_shadow`. -/
def primaryToShadow (a : ℕ) : ℕ := a % shadowSpaceSize + shadowSpaceOffset

/-! ### The hooks -/

/-- Memory, `ltckpt_epoch`, the top-of-the-loop hook's `first_time`, and the context. -/
structure EpochState where
  mem : Mem
  epoch : UInt8
  firstTime : Bool
  ctx : Ctx

/-- `_ltckpt_save_sized_region`. -/
def saveSizedRegion (st : EpochState) (address : ℕ) : EpochState :=
  let p := addrToBitmap address
  if st.mem p ≠ st.epoch then
    let dst := primaryToShadow (addrToRegion bitmapClick address)
    let src := addrToRegion bitmapClick address
    let mem := write st.mem dst (read st.mem src bitmapClick)
    { st with mem := write mem p [st.epoch] }
  else st

/-- `ltckpt_set_bit`.  It returns 1 in every case, and in the SYNC scheme no caller acts on
    the result. -/
def setBit (st : EpochState) (a : ℕ) : EpochState :=
  if st.epoch ≠ st.mem (addrToBitmap a) then saveSizedRegion st a else st

/-- The store hook. -/
def storeHook (st : EpochState) (addr : ℕ) : EpochState := setBit st addr

/-- The memcpy hook. -/
def memcpyHook (st : EpochState) (addr size : ℕ) : EpochState :=
  let last := ulong (addr + size)
  let reg := addrToRegion bitmapClick addr
  regionLoop (2 ^ 64) bitmapClick setBit (last - reg) st reg last

/-- `ltckpt_allocate_bitmap`. -/
def allocateBitmap (m : Mem) : Mem := mapZero m bitmapStart bitmapSize

/-- `ltckpt_allocate_shadow_space`. -/
def allocateShadowSpace (m : Mem) : Mem := mapZero m shadowSpaceOffset shadowSpaceSize

/-- `if (++ltckpt_epoch == 0) { ltckpt_allocate_bitmap(); ltckpt_epoch = 1; }` -/
def nextEpoch (st : EpochState) : EpochState :=
  if st.epoch + 1 = 0 then { st with mem := allocateBitmap st.mem, epoch := 1 }
  else { st with epoch := st.epoch + 1 }

/-- The top-of-the-loop hook; `ltckpt_clear_bitmap` is empty for this bitmap type. -/
def topOfTheLoop (st : EpochState) : EpochState :=
  if ctxSkipsTol st.ctx then
    { st with ctx := { st.ctx with numTols := ulong (st.ctx.numTols + 1) } }
  else
    let st := { st with ctx := { st.ctx with
      numTols := ulong (st.ctx.numTols + 1)
      numCheckpoints := ulong (st.ctx.numCheckpoints + 1) } }
    let st := if st.firstTime then
        { st with mem := allocateShadowSpace (allocateBitmap st.mem), firstTime := false }
      else st
    nextEpoch st

/-! ### Runs of the instrumented program -/

/-- An aligned window of `2^36` bytes away from the bitmap and the shadow space.  Its end is
    an address, as C asks of the end of an object. -/
structure Window where
  base : ℕ
  aligned : base % shadowSpaceSize = 0
  apart_bitmap : Apart base shadowSpaceSize bitmapStart bitmapSize
  apart_shadow : Apart base shadowSpaceSize shadowSpaceOffset shadowSpaceSize
  fits : base + shadowSpaceSize < 2 ^ 64

/-- The `n` bytes from `a` on lie in the window. -/
def Window.Holds (W : Window) (a n : ℕ) : Prop := W.base ≤ a ∧ a + n ≤ W.base + shadowSpaceSize

instance (W : Window) (a n : ℕ) : Decidable (W.Holds a n) := inferInstanceAs (Decidable (_ ∧ _))

/-- `r` is a region of the window. -/
def Window.Region (W : Window) (r : ℕ) : Prop := r % bitmapClick = 0 ∧ W.Holds r 1

/-- A state of a run: the code's state, and for the statement the memory at the last
    checkpoint and the regions touched since. -/
structure EpochRun where
  st : EpochState
  base : Mem
  touched : List ℕ

/-- The state at program start. -/
def epochInit (m : Mem) (ctx : Ctx) : EpochRun := ⟨⟨m, 1, true, ctx⟩, m, []⟩

/-- One event of the instrumented program.  Its addresses lie in the window, and it writes
    only to regions that a hook call has touched since the last checkpoint: a store that does
    not straddle a region writes to the region its hook was called for. -/
def epochStep (W : Window) (s : EpochRun) : BmEvent → Option EpochRun
  | .storeHook a =>
    if W.Holds a 1 then
      some { s with
        st := storeHook s.st a
        touched := addrToRegion bitmapClick a :: s.touched }
    else none
  | .memcpyHook a n =>
    if W.Holds a n then
      some { s with
        st := memcpyHook s.st a n
        touched := regionsOf bitmapClick a n ++ s.touched }
    else none
  | .write a bs =>
    if W.Holds a bs.length ∧ ∀ r ∈ regionsOf bitmapClick a bs.length, r ∈ s.touched then
      some { s with st := { s.st with mem := write s.st.mem a bs } }
    else none
  | .topOfTheLoop =>
    if ctxSkipsTol s.st.ctx then some { s with st := topOfTheLoop s.st }
    else some { st := topOfTheLoop s.st, base := s.st.mem, touched := [] }

/-! ### Addresses of a window -/

section Addresses

variable (W : Window)

/-- Inside the window the two mappings are shifts. -/
theorem Window.mod_eq {x : ℕ} (h : W.Holds x 1) : x % shadowSpaceSize = x - W.base := by
  have := W.aligned
  simp only [Window.Holds, shadowSpaceSize] at *
  omega

/-- The bitmap byte of an address of the window lies in the bitmap. -/
theorem addrToBitmap_mem (x : ℕ) :
    bitmapStart ≤ addrToBitmap x ∧ addrToBitmap x < bitmapStart + bitmapSize := by
  simp only [addrToBitmap, bitmapSize, shadowSpaceSize, bitmapClick, bitmapStart]
  omega

/-- An address and its region have the same bitmap byte. -/
theorem addrToBitmap_region (a : ℕ) :
    addrToBitmap (addrToRegion bitmapClick a) = addrToBitmap a := by
  simp only [addrToBitmap, addrToRegion, shadowSpaceSize, bitmapClick]
  omega

/-- The region of an address of the window. -/
theorem Window.region_of_holds {a : ℕ} (ha : W.Holds a 1) :
    W.Region (addrToRegion bitmapClick a) := by
  have := W.aligned
  simp only [Window.Region, Window.Holds, addrToRegion, shadowSpaceSize, bitmapClick] at *
  omega

variable {r : ℕ}

/-- The regions of a range inside the window are regions of the window. -/
theorem Window.region_of_mem {a n : ℕ} (h : W.Holds a n) (hr : r ∈ regionsOf bitmapClick a n) :
    W.Region r := by
  obtain ⟨hmod, hle, hlt⟩ := (mem_regionsOf (by decide)).mp hr
  have := W.aligned
  simp only [Window.Region, Window.Holds, addrToRegion, shadowSpaceSize, bitmapClick] at *
  omega

/-- A region is its own region. -/
theorem Window.Region.addrToRegion_eq {W : Window} (hr : W.Region r) :
    addrToRegion bitmapClick r = r := by
  rw [addrToRegion, hr.1, Nat.sub_zero]

/-- Distinct regions have distinct bitmap bytes. -/
theorem addrToBitmap_inj {q : ℕ} (hq : W.Region q) (hr : W.Region r)
    (h : addrToBitmap q = addrToBitmap r) : q = r := by
  have hmod := W.aligned
  simp only [addrToBitmap, Window.Region, Window.Holds, shadowSpaceSize, bitmapClick] at *
  omega

/-- Distinct regions have shadows that are apart. -/
theorem shadow_apart {q : ℕ} (hq : W.Region q) (hr : W.Region r) (h : q ≠ r) :
    Apart (primaryToShadow r) bitmapClick (primaryToShadow q) bitmapClick := by
  have hq' := W.mod_eq hq.2
  have hr' := W.mod_eq hr.2
  simp only [Apart, primaryToShadow, hq', hr', Window.Region, Window.Holds, shadowSpaceSize,
    bitmapClick] at *
  omega

/-- A shadow lies in the shadow space. -/
theorem shadow_mem (hr : W.Region r) : shadowSpaceOffset ≤ primaryToShadow r ∧
    primaryToShadow r + bitmapClick ≤ shadowSpaceOffset + shadowSpaceSize := by
  have hr' := W.mod_eq hr.2
  have := W.aligned
  simp only [primaryToShadow, hr', Window.Region, Window.Holds, shadowSpaceSize,
    bitmapClick] at *
  omega

/-- A region lies in the window. -/
theorem Window.Region.subset {W : Window} (hr : W.Region r) : W.Holds r bitmapClick := by
  have := W.aligned
  simp only [Window.Region, Window.Holds, shadowSpaceSize, bitmapClick] at *
  omega

end Addresses

/-! ### What touching a region does -/

/-- What a region holds. -/
def contentOf (m : Mem) (r : ℕ) : List UInt8 := read m r bitmapClick

/-- What the shadow of a region holds. -/
def shadowOf (m : Mem) (r : ℕ) : List UInt8 := read m (primaryToShadow r) bitmapClick

section Touch

variable {W : Window} (st : EpochState)

@[simp] theorem setBit_epoch (a : ℕ) : (setBit st a).epoch = st.epoch := by
  simp only [setBit, saveSizedRegion]
  split_ifs <;> rfl

@[simp] theorem setBit_firstTime (a : ℕ) : (setBit st a).firstTime = st.firstTime := by
  simp only [setBit, saveSizedRegion]
  split_ifs <;> rfl

/-- The region is copied and its byte set, unless the byte is at the epoch already. -/
theorem setBit_mem (a : ℕ) : (setBit st a).mem =
    if st.mem (addrToBitmap a) = st.epoch then st.mem
    else write (write st.mem (primaryToShadow (addrToRegion bitmapClick a))
      (contentOf st.mem (addrToRegion bitmapClick a))) (addrToBitmap a) [st.epoch] := by
  simp only [setBit, saveSizedRegion, contentOf]
  by_cases h : st.mem (addrToBitmap a) = st.epoch
  · rw [if_neg (fun hne => hne h.symm), if_pos h]
  · rw [if_pos (Ne.symm h), if_pos h, if_neg h]

variable {a q : ℕ}

/-- Touching changes no region of the window. -/
theorem contentOf_setBit (ha : W.Holds a 1) (hq : W.Region q) :
    contentOf (setBit st a).mem q = contentOf st.mem q := by
  rw [setBit_mem]
  by_cases h : st.mem (addrToBitmap a) = st.epoch
  · rw [if_pos h]
  · have hshadow := shadow_mem W (W.region_of_holds ha)
    have hbyte := addrToBitmap_mem a
    have hbitmap := W.apart_bitmap
    have hspace := W.apart_shadow
    have hsub := hq.subset
    have hcopy : Apart (primaryToShadow (addrToRegion bitmapClick a)) bitmapClick
        q bitmapClick := by
      simp only [Apart, Window.Holds] at *
      omega
    have hmark : Apart (addrToBitmap a) 1 q bitmapClick := by
      simp only [Apart, Window.Holds] at *
      omega
    rw [if_neg h, contentOf, read_write_of_apart _ hmark,
      read_write_of_apart _ (by rwa [contentOf, read_length]), contentOf]

/-- Touching sets the byte of its region and no other. -/
theorem bitmap_setBit (ha : W.Holds a 1) (hq : W.Region q) :
    (setBit st a).mem (addrToBitmap q) =
      if q = addrToRegion bitmapClick a then st.epoch else st.mem (addrToBitmap q) := by
  have hregion := W.region_of_holds ha
  have hsame := addrToBitmap_region a
  rw [setBit_mem]
  by_cases h : st.mem (addrToBitmap a) = st.epoch
  · rw [if_pos h]
    by_cases hqa : q = addrToRegion bitmapClick a
    · rw [if_pos hqa, hqa, hsame, h]
    · rw [if_neg hqa]
  · rw [if_neg h]
    by_cases hqa : q = addrToRegion bitmapClick a
    · rw [if_pos hqa, hqa, hsame, write_of_inside _ _ _ le_rfl (by simp)]
      simp
    · have hne : addrToBitmap q ≠ addrToBitmap a := by
        intro heq
        exact hqa (addrToBitmap_inj W hq hregion (heq.trans hsame.symm))
      have hshadow := shadow_mem W hregion
      have hbyte := addrToBitmap_mem q
      rw [if_neg hqa, write_of_outside, write_of_outside]
      · -- the bitmap lies below the shadow space
        simp only [contentOf, read_length, bitmapStart, bitmapSize, shadowSpaceOffset,
          shadowSpaceSize, bitmapClick] at *
        omega
      · rw [List.length_singleton]
        omega

/-- Touching leaves the shadows of the other regions alone. -/
theorem shadowOf_setBit_of_ne (ha : W.Holds a 1) (hq : W.Region q)
    (hqa : q ≠ addrToRegion bitmapClick a) : shadowOf (setBit st a).mem q = shadowOf st.mem q := by
  rw [setBit_mem]
  by_cases h : st.mem (addrToBitmap a) = st.epoch
  · rw [if_pos h]
  · have hapart := shadow_apart W hq (W.region_of_holds ha) hqa
    have hshadow := shadow_mem W hq
    have hbyte := addrToBitmap_mem a
    rw [if_neg h, shadowOf, shadowOf, read_write_of_apart, read_write_of_apart]
    · rwa [contentOf, read_length]
    · simp only [Apart, List.length_singleton, bitmapStart, bitmapSize, shadowSpaceOffset,
        shadowSpaceSize, bitmapClick] at *
      omega

/-- Touching a region whose byte is not at the epoch copies it to its shadow. -/
theorem shadowOf_setBit_self (ha : W.Holds a 1) (h : st.mem (addrToBitmap a) ≠ st.epoch) :
    shadowOf (setBit st a).mem (addrToRegion bitmapClick a) =
      contentOf st.mem (addrToRegion bitmapClick a) := by
  have hshadow := shadow_mem W (W.region_of_holds ha)
  have hbyte := addrToBitmap_mem a
  have hlen : (contentOf st.mem (addrToRegion bitmapClick a)).length = bitmapClick :=
    read_length ..
  rw [setBit_mem, if_neg h, shadowOf, read_write_of_apart]
  · have hback := read_write st.mem (primaryToShadow (addrToRegion bitmapClick a))
      (contentOf st.mem (addrToRegion bitmapClick a))
    rwa [hlen] at hback
  · simp only [Apart, List.length_singleton, bitmapStart, bitmapSize, shadowSpaceOffset,
      shadowSpaceSize, bitmapClick] at *
    omega

end Touch

/-! ### The invariant -/

/-- The bitmap marks the touched regions, and their shadows hold the checkpoint. -/
structure EpochInv (W : Window) (st : EpochState) (base : Mem) (touched : ℕ → Prop) : Prop where
  /-- no byte is ahead of the epoch -/
  stale : ∀ r, W.Region r → st.mem (addrToBitmap r) ≤ st.epoch
  mark : ∀ r, W.Region r → (st.mem (addrToBitmap r) = st.epoch ↔ touched r)
  saves : CopyOnTouch.Exact W.Region (contentOf st.mem) (shadowOf st.mem) (contentOf base) touched

section Invariant

variable {W : Window} {st : EpochState} {base : Mem} {touched touched' : ℕ → Prop}

variable {a r : ℕ}

/-- Touching a region keeps the invariant. -/
theorem EpochInv.setBit (h : EpochInv W st base touched) (ha : W.Holds a 1)
    (ht : ∀ q, touched' q ↔ q = addrToRegion bitmapClick a ∨ touched q) :
    EpochInv W (setBit st a) base touched' := by
  have hregion := W.region_of_holds ha
  have hmark := h.mark _ hregion
  rw [addrToBitmap_region] at hmark
  refine ⟨fun r hr => ?_, fun r hr => ?_, ?_⟩
  · rw [bitmap_setBit st ha hr, setBit_epoch]
    split_ifs
    · exact UInt8.le_refl _
    · exact h.stale r hr
  · rw [bitmap_setBit st ha hr, setBit_epoch, ht r]
    by_cases hra : r = addrToRegion bitmapClick a
    · simp [hra]
    · rw [if_neg hra, h.mark r hr]
      simp [hra]
  · refine h.saves.touch (fun q hq => contentOf_setBit st ha hq) ?_ ?_
      (fun q hq hne => shadowOf_setBit_of_ne st ha hq hne) (fun q _ => ht q)
    · intro hnot
      exact shadowOf_setBit_self st ha fun heq => hnot (hmark.mp heq)
    · intro htouched
      rw [setBit_mem, if_pos (hmark.mpr htouched)]

/-- So does the walk over a list of regions. -/
theorem EpochInv.foldl_setBit {rs : List ℕ} (hrs : ∀ r ∈ rs, W.Region r)
    (h : EpochInv W st base touched) (ht : ∀ q, touched' q ↔ q ∈ rs ∨ touched q) :
    EpochInv W (rs.foldl Epoch.setBit st) base touched' := by
  induction rs generalizing st touched with
  | nil =>
    have heq : touched' = touched := funext fun q => propext ((ht q).trans (by simp))
    exact heq ▸ h
  | cons r rs ih =>
    have hr : W.Region r := hrs r (by simp)
    have hfirst : EpochInv W (Epoch.setBit st r) base (fun q => q = r ∨ touched q) :=
      h.setBit hr.2 fun q => by rw [hr.addrToRegion_eq]
    refine ih (fun q hq => hrs q (by simp [hq])) hfirst fun q => ?_
    rw [ht q, List.mem_cons, or_assoc, or_left_comm]

/-- The memcpy hook touches the regions of its range. -/
theorem EpochInv.memcpyHook (h : EpochInv W st base touched) {n : ℕ} (ha : W.Holds a n)
    (ht : ∀ q, touched' q ↔ q ∈ regionsOf bitmapClick a n ∨ touched q) :
    EpochInv W (memcpyHook st a n) base touched' := by
  have hfits := W.fits
  have hal := W.aligned
  have hlast : a + n + bitmapClick ≤ 2 ^ 64 := by
    simp only [Window.Holds, shadowSpaceSize, bitmapClick] at *
    omega
  have hwalk : Epoch.memcpyHook st a n = (regionsOf bitmapClick a n).foldl Epoch.setBit st := by
    rw [Epoch.memcpyHook, ulong_of_lt (show a + n < 2 ^ 64 by
      simp only [bitmapClick] at hlast
      omega)]
    exact regionLoop_regionsOf (by decide) Epoch.setBit hlast st
  rw [hwalk]
  exact h.foldl_setBit (fun r hr => W.region_of_mem ha hr) ht

/-- A write inside touched regions changes neither bitmap nor shadows. -/
theorem EpochInv.write (h : EpochInv W st base touched) {bs : List UInt8} (ha : W.Holds a bs.length)
    (ht : ∀ r ∈ regionsOf bitmapClick a bs.length, touched r) :
    EpochInv W { st with mem := write st.mem a bs } base touched := by
  have hbitmap := W.apart_bitmap
  have hspace := W.apart_shadow
  have hbyte : ∀ r, FlatMem.write st.mem a bs (addrToBitmap r) = st.mem (addrToBitmap r) := by
    intro r
    have := addrToBitmap_mem r
    refine write_of_outside _ _ _ ?_
    simp only [Apart, Window.Holds] at *
    omega
  refine ⟨fun r hr => ?_, fun r hr => ?_, h.saves.write (fun r hr hnot => ?_) fun r hr => ?_⟩
  · show FlatMem.write st.mem a bs (addrToBitmap r) ≤ st.epoch
    rw [hbyte]
    exact h.stale r hr
  · show FlatMem.write st.mem a bs (addrToBitmap r) = st.epoch ↔ touched r
    rw [hbyte]
    exact h.mark r hr
  · exact read_write_of_not_mem_regionsOf _ (by decide) hr.1 fun hmem => hnot (ht r hmem)
  · have := shadow_mem W hr
    refine read_write_of_apart _ ?_
    simp only [Apart, Window.Holds] at *
    omega

/-! ### Checkpoints -/

/-- In the window a mapping of the bitmap or the shadow space changes nothing. -/
theorem contentOf_mapZero (m : Mem) {start size : ℕ} (hr : W.Region r)
    (hW : Apart W.base shadowSpaceSize start size) :
    contentOf (mapZero m start size) r = contentOf m r := by
  have hsub := hr.subset
  refine read_congr fun i hi => mapZero_of_outside m ?_
  simp only [Apart, Window.Holds] at *
  omega

/-- A freshly mapped bitmap is zero. -/
theorem allocateBitmap_byte (m : Mem) (r : ℕ) : allocateBitmap m (addrToBitmap r) = 0 := by
  rw [allocateBitmap, mapZero, if_pos (addrToBitmap_mem r)]

/-- Counting the epoch up unmarks every region: a byte that is not ahead of the epoch is
    behind the next one, and after a wrap the bytes are zero. -/
theorem nextEpoch_unmarked (st : EpochState)
    (h : ∀ r, W.Region r → st.mem (addrToBitmap r) ≤ st.epoch) (hr : W.Region r) :
    (nextEpoch st).mem (addrToBitmap r) < (nextEpoch st).epoch := by
  rw [nextEpoch]
  by_cases hwrap : st.epoch + 1 = 0
  · simp only [if_pos hwrap, allocateBitmap_byte]
    decide
  · simp only [if_neg hwrap]
    have hle := UInt8.le_iff_toNat_le.mp (h r hr)
    have hne : (st.epoch + 1).toNat ≠ 0 := fun h0 => hwrap (UInt8.toNat_inj.mp h0)
    rw [UInt8.toNat_add] at hne
    rw [UInt8.lt_iff_toNat_lt, UInt8.toNat_add]
    have hlt := st.epoch.toNat_lt
    simp only [UInt8.reduceToNat, Nat.reducePow] at *
    omega

theorem contentOf_nextEpoch (st : EpochState) (hr : W.Region r) :
    contentOf (nextEpoch st).mem r = contentOf st.mem r := by
  rw [nextEpoch]
  split_ifs
  · exact contentOf_mapZero st.mem hr W.apart_bitmap
  · rfl

/-- A checkpoint starts the invariant anew. -/
theorem EpochInv.nextEpoch {touched : ℕ → Prop} (st : EpochState) {m : Mem}
    (h : ∀ r, W.Region r → st.mem (addrToBitmap r) ≤ st.epoch)
    (hm : ∀ r, W.Region r → contentOf st.mem r = contentOf m r) (ht : ∀ r, ¬ touched r) :
    EpochInv W (nextEpoch st) m touched := by
  refine ⟨fun r hr => UInt8.le_of_lt (nextEpoch_unmarked st h hr), fun r hr => ?_,
    CopyOnTouch.exact_checkpoint (fun r hr => ?_) fun r _ => ht r⟩
  · have hne := UInt8.ne_of_lt (nextEpoch_unmarked st h hr)
    exact ⟨fun heq => absurd heq hne, fun hr' => absurd hr' (ht r)⟩
  · rw [contentOf_nextEpoch st hr, hm r hr]

/-- A top-of-the-loop call that takes no checkpoint only counts. -/
theorem topOfTheLoop_of_skip (st : EpochState) (h : ctxSkipsTol st.ctx) :
    (topOfTheLoop st).mem = st.mem ∧ (topOfTheLoop st).epoch = st.epoch ∧
      (topOfTheLoop st).firstTime = st.firstTime := by
  rw [topOfTheLoop, if_pos h]
  exact ⟨rfl, rfl, rfl⟩

/-- One that takes a checkpoint establishes the invariant, on the first call from the freshly
    mapped bitmap and later from the bytes left by the epochs before. -/
theorem EpochInv.topOfTheLoop {touched : ℕ → Prop} (st : EpochState)
    (h : st.firstTime = false → ∀ r, W.Region r → st.mem (addrToBitmap r) ≤ st.epoch)
    (hckpt : ¬ ctxSkipsTol st.ctx) (ht : ∀ r, ¬ touched r) :
    EpochInv W (topOfTheLoop st) st.mem touched := by
  rw [Epoch.topOfTheLoop, if_neg hckpt]
  by_cases hfirst : st.firstTime
  · simp only [hfirst, if_true]
    refine EpochInv.nextEpoch _ (fun r _ => ?_) (fun r hr => ?_) ht
    · have hbyte : allocateShadowSpace (allocateBitmap st.mem) (addrToBitmap r) = 0 := by
        have := addrToBitmap_mem r
        rw [allocateShadowSpace, mapZero_of_outside, allocateBitmap_byte]
        simp only [bitmapStart, bitmapSize, shadowSpaceOffset, shadowSpaceSize, bitmapClick] at *
        omega
      simp only [hbyte]
      exact UInt8.le_iff_toNat_le.mpr (Nat.zero_le _)
    · show contentOf (allocateShadowSpace (allocateBitmap st.mem)) r = contentOf st.mem r
      rw [allocateShadowSpace, contentOf_mapZero _ hr W.apart_shadow, allocateBitmap,
        contentOf_mapZero _ hr W.apart_bitmap]
  · simp only [Bool.not_eq_true] at hfirst
    simp only [hfirst, Bool.false_eq_true, if_false]
    exact EpochInv.nextEpoch _ (h hfirst) (fun r _ => rfl) ht

/-! ### Steps and runs -/

/-- What a run keeps once a checkpoint has been taken. -/
def RunInv (W : Window) (s : EpochRun) : Prop :=
  s.st.firstTime = false → EpochInv W s.st s.base (· ∈ s.touched)

/-- **Step.** Every event keeps the invariant. -/
theorem epochStep_inv {s s' : EpochRun} {e : BmEvent} (h : RunInv W s)
    (hstep : epochStep W s e = some s') : RunInv W s' := by
  cases e with
  | storeHook a =>
    simp only [epochStep, Option.ite_none_right_eq_some, Option.some.injEq] at hstep
    obtain ⟨ha, rfl⟩ := hstep
    intro hfirst
    have hbefore : s.st.firstTime = false := (setBit_firstTime s.st a).symm.trans hfirst
    exact (h hbefore).setBit ha fun q => List.mem_cons
  | memcpyHook a n =>
    simp only [epochStep, Option.ite_none_right_eq_some, Option.some.injEq] at hstep
    obtain ⟨ha, rfl⟩ := hstep
    intro hfirst
    have hbefore : s.st.firstTime = false := by
      rw [← hfirst]
      exact (regionLoop_keeps (P := fun st => st.firstTime = s.st.firstTime)
        (fun st r hst => (setBit_firstTime st r).trans hst) _ _ _ _ rfl).symm
    exact (h hbefore).memcpyHook ha fun q => List.mem_append
  | write a bs =>
    simp only [epochStep, Option.ite_none_right_eq_some, Option.some.injEq] at hstep
    obtain ⟨⟨ha, ht⟩, rfl⟩ := hstep
    intro hfirst
    exact (h hfirst).write ha ht
  | topOfTheLoop =>
    simp only [epochStep] at hstep
    by_cases hskip : ctxSkipsTol s.st.ctx
    · rw [if_pos hskip, Option.some.injEq] at hstep
      subst hstep
      intro hfirst
      obtain ⟨hmem, hepoch, htime⟩ := topOfTheLoop_of_skip s.st hskip
      obtain ⟨hstale, hmark, hsaves⟩ := h (htime ▸ hfirst)
      exact ⟨by simpa only [hmem, hepoch] using hstale, by simpa only [hmem, hepoch] using hmark,
        by simpa only [hmem] using hsaves⟩
    · rw [if_neg hskip, Option.some.injEq] at hstep
      subst hstep
      intro _
      exact EpochInv.topOfTheLoop s.st (fun hf => (h hf).stale) hskip fun r => List.not_mem_nil

/-- **Epoch checkpoints are exact.**  In every state that a run reaches after the first
    checkpoint, the shadow of each region touched since the last checkpoint holds what the
    region held then, and the regions whose byte equals the epoch are the touched ones. -/
theorem epochRun_exact (W : Window) (m : Mem) (ctx : Ctx) (es : List BmEvent) (t : EpochRun)
    (hrun : es.foldlM (epochStep W) (epochInit m ctx) = some t) (hfirst : t.st.firstTime = false)
    (r : ℕ) (hr : W.Region r) :
    (r ∈ t.touched → shadowOf t.st.mem r = contentOf t.base r) ∧
      (t.st.mem (addrToBitmap r) = t.st.epoch ↔ r ∈ t.touched) := by
  have hinit : RunInv W (epochInit m ctx) := fun h => absurd h (by simp [epochInit])
  have hinv : RunInv W t :=
    Runs.invariant_of_run (P := fun _ _ => True) (fun s e s' h _ hs => epochStep_inv h hs) hinit
      (Runs.meets_of_forall fun _ _ _ => trivial) hrun
  exact ⟨(hinv hfirst).saves.saved r hr, (hinv hfirst).mark r hr⟩

end Invariant

/-- The window above the shadow space. -/
def sampleWindow : Window where
  base := 0x3000000000
  aligned := by decide
  apart_bitmap := by decide
  apart_shadow := by decide
  fits := by decide

/-- A checkpoint, two stores to one region with their hooks, and a copy over three more. -/
def sampleEvents : List BmEvent :=
  [.topOfTheLoop, .storeHook 0x3000000008, .write 0x3000000008 [1, 2],
    .storeHook 0x3000000010, .write 0x3000000010 [3],
    .memcpyHook 0x30000000fe 130, .write 0x30000000fe (List.replicate 130 4)]

/-- The state after `sampleEvents`. -/
def sampleRun : EpochRun :=
  (sampleEvents.foldlM (epochStep sampleWindow) (epochInit (fun _ => 7) ⟨1, 0, 0, 0⟩)).get
    (by decide +kernel)

/-- In the run of `sampleEvents` the region stored to is saved and marked, and the first
    region after the copy is not marked. -/
theorem epochRun_exact_sample :
    shadowOf sampleRun.st.mem 0x3000000000 = contentOf sampleRun.base 0x3000000000 ∧
      sampleRun.st.mem (addrToBitmap 0x3000000000) = sampleRun.st.epoch ∧
      sampleRun.st.mem (addrToBitmap 0x3000000200) ≠ sampleRun.st.epoch := by
  have hexact := epochRun_exact sampleWindow (fun _ => 7) ⟨1, 0, 0, 0⟩ sampleEvents sampleRun
    (Option.some_get _).symm (by decide +kernel)
  have htouched : 0x3000000000 ∈ sampleRun.touched := by decide +kernel
  have hnot : 0x3000000200 ∉ sampleRun.touched := by decide +kernel
  have hfirst := hexact 0x3000000000 ⟨by decide, by decide⟩
  exact ⟨hfirst.1 htouched, hfirst.2.mpr htouched,
    fun heq => hnot ((hexact 0x3000000200 ⟨by decide, by decide⟩).2.mp heq)⟩

end Firestarter.Bitmap.Epoch
