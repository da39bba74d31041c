import Firestarter.Bitmap.Regions
import Firestarter.Lib.CopyOnTouch
import Firestarter.Ltckpt.Writelog
import Mathlib.Data.Nat.Bitwise

namespace Firestarter.Bitmap.Plain

open FlatMem Ltckpt

/-!
# The plain bitmap (`bitmap_plain.h` with `LTCKPT_DIFF_SCHEME`, 32-bit x86)

One bit of the bitmap stands for a region of 8 bytes.  A hook sets the bit and is to copy the
region to its shadow if the bit was clear; a checkpoint maps the bitmap anew.

* `setBit`, `storeHook`, `memcpyHook`, `topOfTheLoop` — the code;
* `PlainInv` — the set bits mark the touched regions, and the shadows are those of a
  copy-on-touch checkpoint;
* `visitRegion_eq` — the memcpy hook tests the bit the other way round than the store hook;
* `plainRun_exact` — a run keeps the invariant as long as every memcpy hook call finds the
  regions it walks equal to their shadows.
-/

/-! ### Constants and address mapping -/

/-- `LTCKPT_SHADOW_SPACE_SIZE`. -/
def shadowSpaceSize : ℕ := 1536 * 1024 * 1024

/-- `LTCKPT_SHADOW_SPACE_OFFSET`, also `LTCKPT_SHADOW_SPACE_START`. -/
def shadowSpaceOffset : ℕ := 1536 * 1024 * 1024

/-- `LTCKPT_BITMAP_CLICK`. -/
def bitmapClick : ℕ := 8

/-- `LTCKPT_CLICKS_PER_BYTE`. -/
def clicksPerByte : ℕ := 8

/-- `LTCKPT_BITMAP_SIZE`. -/
def bitmapSize : ℕ := shadowSpaceSize / (bitmapClick * 8)

/-- `LTCKPT_BITMAP_OFFSET`, also `LTCKPT_BITMAP_START`. -/
def bitmapOffset : ℕ := shadowSpaceOffset - bitmapSize

/-- `ltckpt_primary_to_shadow`, with 32-bit addresses. -/
def primaryToShadow (a : ℕ) : ℕ := (a + shadowSpaceOffset) % 2 ^ 32

/-- The bitmap byte of an address. -/
def bitmapByte (address : ℕ) : ℕ := bitmapOffset + address / bitmapClick / clicksPerByte

/-- The mask `1 << bit` of an address in its bitmap byte. -/
def bitMask (address : ℕ) : ℕ := 1 <<< (address / bitmapClick % clicksPerByte)

/-! ### The hooks -/

/-- Memory, `ltckpt_bitmap_enabled`, the top-of-the-loop hook's `first_time`, the context. -/
structure PlainState where
  mem : Mem
  enabled : Bool
  firstTime : Bool
  ctx : Ctx

/-- `*p & (1 << bit)`, as a truth value. -/
def isSet (m : Mem) (address : ℕ) : Bool :=
  decide ((m (bitmapByte address)).toNat &&& bitMask address ≠ 0)

/-- `*p |= (1 << bit)`. -/
def setMask (m : Mem) (address : ℕ) : Mem :=
  write m (bitmapByte address)
    [UInt8.ofNat ((m (bitmapByte address)).toNat ||| bitMask address)]

/-- `ltckpt_set_bit`: set the bit and return whether it was set before. -/
def setBit (st : PlainState) (a : ℕ) : Bool × PlainState :=
  (isSet st.mem a, { st with mem := setMask st.mem a })

/-- `ltckpt_save_region`. -/
def saveRegion (st : PlainState) (region : ℕ) : PlainState :=
  { st with mem := write st.mem (primaryToShadow region) (read st.mem region bitmapClick) }

/-- The store hook: save the region if its bit was clear. -/
def storeHook (st : PlainState) (addr : ℕ) : PlainState :=
  if st.enabled then
    let (bitset, st) := setBit st addr
    if !bitset then saveRegion st (addrToRegion bitmapClick addr) else st
  else st

/-- The body of the memcpy hook's loop: save the region if its bit was set. -/
def visitRegion (st : PlainState) (reg : ℕ) : PlainState :=
  let (bitset, st) := setBit st reg
  if bitset then saveRegion st reg else st

/-- The memcpy hook. -/
def memcpyHook (st : PlainState) (addr size : ℕ) : PlainState :=
  if st.enabled then
    let last := (addr + size) % 2 ^ 32
    let reg := addrToRegion bitmapClick addr
    regionLoop (2 ^ 32) bitmapClick visitRegion (last - reg) st reg last
  else st

/-- `ltckpt_allocate_bitmap`. -/
def allocateBitmap (m : Mem) : Mem := mapZero m bitmapOffset bitmapSize

/-- `ltckpt_allocate_shadow_space`. -/
def allocateShadowSpace (m : Mem) : Mem := mapZero m shadowSpaceOffset shadowSpaceSize

/-- The top-of-the-loop hook.  With `LTCKPT_BITMAP_ALWAYS_ON` the mechanism is enabled from
    the start, so that setting the flag changes nothing. -/
def topOfTheLoop (st : PlainState) : PlainState :=
  if ctxSkipsTol st.ctx then
    { st with ctx := { st.ctx with numTols := ulong (st.ctx.numTols + 1) } }
  else
    let st := if st.firstTime then
        { st with mem := allocateShadowSpace (allocateBitmap st.mem), firstTime := false }
      else st
    { st with
      mem := allocateBitmap st.mem
      enabled := true
      ctx := { st.ctx with
        numTols := ulong (st.ctx.numTols + 1)
        numCheckpoints := ulong (st.ctx.numCheckpoints + 1) } }

/-! ### Runs of the instrumented program -/

/-- What a region holds. -/
def contentOf (m : Mem) (r : ℕ) : List UInt8 := read m r bitmapClick

/-- What the shadow of a region holds. -/
def shadowOf (m : Mem) (r : ℕ) : List UInt8 := read m (primaryToShadow r) bitmapClick

/-- A region of the program's memory, which ends where the bitmap starts. -/
def Region (r : ℕ) : Prop := r % bitmapClick = 0 ∧ r < bitmapOffset

/-- A state of a run: the code's state, and for the statement the memory at the last
    checkpoint and the regions touched by hooks and written since. -/
structure PlainRun where
  st : PlainState
  base : Mem
  touched : List ℕ
  written : List ℕ

/-- The state at program start; `alwaysOn` is `LTCKPT_BITMAP_ALWAYS_ON`. -/
def plainInit (alwaysOn : Bool) (m : Mem) (ctx : Ctx) : PlainRun :=
  ⟨⟨m, alwaysOn, true, ctx⟩, m, [], []⟩

/-- One event of the instrumented program, in the program's memory. -/
def plainStep (s : PlainRun) : BmEvent → Option PlainRun
  | .storeHook a =>
    if a < bitmapOffset then
      some { s with
        st := storeHook s.st a
        touched := addrToRegion bitmapClick a :: s.touched }
    else none
  | .memcpyHook a n =>
    if a + n ≤ bitmapOffset then
      some { s with
        st := memcpyHook s.st a n
        touched := regionsOf bitmapClick a n ++ s.touched }
    else none
  | .write a bs =>
    if a + bs.length ≤ bitmapOffset then
      some { s with
        st := { s.st with mem := write s.st.mem a bs }
        written := regionsOf bitmapClick a bs.length ++ s.written }
    else none
  | .topOfTheLoop =>
    if ctxSkipsTol s.st.ctx then some { s with st := topOfTheLoop s.st }
    else some { st := topOfTheLoop s.st, base := s.st.mem, touched := [], written := [] }

/-- The shadow of every region written since the last checkpoint holds what the region held
    then. -/
def CheckpointExact (s : PlainRun) : Prop :=
  ∀ r ∈ s.written, shadowOf s.st.mem r = contentOf s.base r

/-- The condition on a step once a checkpoint has been taken: a memcpy hook finds every region
    it walks equal to its shadow, and a write stays inside regions a hook was called for. -/
def FindsSaved (s : PlainRun) : BmEvent → Prop
  | .memcpyHook a n => s.st.firstTime = false →
      ∀ r ∈ regionsOf bitmapClick a n, shadowOf s.st.mem r = contentOf s.st.mem r
  | .write a bs => s.st.firstTime = false →
      ∀ r ∈ regionsOf bitmapClick a bs.length, r ∈ s.touched
  | _ => True

instance (s : PlainRun) (e : BmEvent) : Decidable (FindsSaved s e) := by
  unfold FindsSaved
  cases e <;> exact inferInstance

/-! ### The bits of the bitmap -/

/-- The test of a bit, as `Nat.testBit`. -/
theorem isSet_eq_testBit (m : Mem) (a : ℕ) :
    isSet m a = (m (bitmapByte a)).toNat.testBit (a / bitmapClick % clicksPerByte) := by
  rw [isSet, bitMask, Nat.one_shiftLeft, Nat.and_two_pow]
  cases (m (bitmapByte a)).toNat.testBit (a / bitmapClick % clicksPerByte) <;> simp

/-- The bitmap byte of an address of the program lies in the bitmap. -/
theorem bitmapByte_mem {a : ℕ} (ha : a < bitmapOffset) :
    bitmapOffset ≤ bitmapByte a ∧ bitmapByte a < bitmapOffset + bitmapSize := by
  simp only [bitmapByte, bitmapOffset, bitmapSize, shadowSpaceOffset, shadowSpaceSize,
    bitmapClick, clicksPerByte] at *
  omega

/-- A bitmap byte with one more bit is still a byte. -/
theorem toNat_setMask (b : UInt8) (a : ℕ) :
    (UInt8.ofNat (b.toNat ||| bitMask a)).toNat = b.toNat ||| bitMask a := by
  have hbit : a / bitmapClick % clicksPerByte < 8 := Nat.mod_lt _ (by decide)
  have hmask : bitMask a < 2 ^ 8 := by
    rw [bitMask, Nat.one_shiftLeft]
    exact Nat.pow_lt_pow_right (by decide) hbit
  rw [UInt8.toNat_ofNat', Nat.mod_eq_of_lt (Nat.or_lt_two_pow b.toNat_lt hmask)]

/-- Setting the bit of an address sets the bit of its region and no other. -/
theorem isSet_setMask (m : Mem) (a q : ℕ) :
    isSet (setMask m a) q = (decide (q / bitmapClick = a / bitmapClick) || isSet m q) := by
  rw [isSet_eq_testBit, isSet_eq_testBit, setMask]
  by_cases hbyte : bitmapByte q = bitmapByte a
  · have hiff : a / bitmapClick % clicksPerByte = q / bitmapClick % clicksPerByte ↔
        q / bitmapClick = a / bitmapClick := by
      simp only [bitmapByte, clicksPerByte] at *
      omega
    rw [hbyte, write_of_inside _ _ _ le_rfl (by simp)]
    simp only [Nat.sub_self, List.getD_cons_zero]
    rw [toNat_setMask, Nat.testBit_or, bitMask, Nat.one_shiftLeft, Nat.testBit_two_pow,
      decide_eq_decide.mpr hiff, Bool.or_comm]
  · have hne : q / bitmapClick ≠ a / bitmapClick := by
      intro h
      exact hbyte (by rw [bitmapByte, bitmapByte, h])
    rw [write_of_outside _ _ _ (by rw [List.length_singleton]; omega), decide_eq_false hne,
      Bool.false_or]

section Touch

variable (m : Mem)

variable {r q : ℕ}

/-- The shadow of a region of the program lies in the shadow space. -/
theorem primaryToShadow_eq (hr : Region r) : primaryToShadow r = r + shadowSpaceOffset := by
  simp only [Region, primaryToShadow, bitmapOffset, bitmapSize, shadowSpaceOffset,
    shadowSpaceSize, bitmapClick] at *
  omega

/-- Setting a bit changes no region. -/
theorem contentOf_setMask {a : ℕ} (ha : a < bitmapOffset) (hq : Region q) :
    contentOf (setMask m a) q = contentOf m q := by
  have := bitmapByte_mem ha
  refine read_write_of_apart m (Or.inr ?_)
  simp only [Region, bitmapOffset, bitmapSize, shadowSpaceOffset, shadowSpaceSize,
    bitmapClick] at *
  omega

/-- Setting a bit changes no shadow. -/
theorem shadowOf_setMask {a : ℕ} (ha : a < bitmapOffset) (hq : Region q) :
    shadowOf (setMask m a) q = shadowOf m q := by
  have := bitmapByte_mem ha
  refine read_write_of_apart m (Or.inl ?_)
  rw [primaryToShadow_eq hq, List.length_singleton]
  simp only [bitmapOffset, bitmapSize, shadowSpaceOffset, shadowSpaceSize, bitmapClick] at *
  omega

variable (st : PlainState)

theorem saveRegion_mem (r : ℕ) :
    (saveRegion st r).mem = write st.mem (primaryToShadow r) (contentOf st.mem r) := by
  simp only [saveRegion, contentOf]

/-- Saving a region changes no region. -/
theorem contentOf_saveRegion (hr : Region r) (hq : Region q) :
    contentOf (saveRegion st r).mem q = contentOf st.mem q := by
  rw [saveRegion_mem, contentOf, read_write_of_apart _ (Or.inr ?_), contentOf]
  rw [primaryToShadow_eq hr]
  simp only [Region, bitmapOffset, bitmapSize, shadowSpaceOffset, shadowSpaceSize,
    bitmapClick] at *
  omega

/-- Saving a region changes its shadow only. -/
theorem shadowOf_saveRegion (hr : Region r) (hq : Region q) :
    shadowOf (saveRegion st r).mem q = if q = r then contentOf st.mem r else shadowOf st.mem q := by
  have hlen : (contentOf st.mem r).length = bitmapClick := read_length ..
  rw [saveRegion_mem, shadowOf]
  by_cases hqr : q = r
  · rw [if_pos hqr, hqr, ← hlen]
    exact read_write st.mem (primaryToShadow r) (contentOf st.mem r)
  · rw [if_neg hqr, read_write_of_apart, shadowOf]
    rw [primaryToShadow_eq hr, primaryToShadow_eq hq, hlen]
    simp only [Apart, Region, bitmapClick] at *
    omega

/-- Saving a region sets no bit. -/
theorem isSet_saveRegion (hr : Region r) (hq : Region q) :
    isSet (saveRegion st r).mem q = isSet st.mem q := by
  have hbyte := bitmapByte_mem hq.2
  have hkeep : (saveRegion st r).mem (bitmapByte q) = st.mem (bitmapByte q) := by
    rw [saveRegion_mem, write_of_outside _ _ _ (Or.inl ?_)]
    rw [primaryToShadow_eq hr]
    simp only [bitmapOffset, bitmapSize, shadowSpaceOffset, shadowSpaceSize, bitmapClick] at *
    omega
  rw [isSet, isSet, hkeep]

end Touch

/-! ### The invariant -/

/-- The set bits mark the touched regions, and their shadows hold the checkpoint. -/
structure PlainInv (m base : Mem) (touched : ℕ → Prop) : Prop where
  mark : ∀ r, Region r → (isSet m r = true ↔ touched r)
  saves : CopyOnTouch.Exact Region (contentOf m) (shadowOf m) (contentOf base) touched

/-- The common part of the two hooks: set the bit of `a`, then save its region if `save`. -/
def touchRegion (st : PlainState) (a : ℕ) (save : Bool) : PlainState :=
  let st := { st with mem := setMask st.mem a }
  if save then saveRegion st (addrToRegion bitmapClick a) else st

theorem storeHook_eq (st : PlainState) (a : ℕ) (h : st.enabled = true) :
    storeHook st a = touchRegion st a (!isSet st.mem a) := by
  rw [storeHook, if_pos h]
  rfl

/-- The memcpy hook saves a region in the case in which the store hook does not. -/
theorem visitRegion_eq (st : PlainState) {r : ℕ} (hr : Region r) :
    visitRegion st r = touchRegion st r (isSet st.mem r) := by
  have hself : addrToRegion bitmapClick r = r := by rw [addrToRegion, hr.1, Nat.sub_zero]
  rw [touchRegion, hself]
  rfl

section Invariant

variable {st : PlainState} {base : Mem} {touched touched' : ℕ → Prop}

variable {a q r : ℕ}

/-- The region of an address of the program. -/
theorem region_of_lt (ha : a < bitmapOffset) : Region (addrToRegion bitmapClick a) := by
  simp only [Region, addrToRegion, bitmapClick] at *
  omega

/-- Two regions are equal when their addresses have one region number. -/
theorem region_eq_iff (hq : Region q) :
    q / bitmapClick = a / bitmapClick ↔ q = addrToRegion bitmapClick a := by
  simp only [Region, addrToRegion, bitmapClick] at *
  omega

theorem contentOf_touchRegion (ha : a < bitmapOffset) (hq : Region q) (save : Bool) :
    contentOf (touchRegion st a save).mem q = contentOf st.mem q := by
  cases save with
  | false => exact contentOf_setMask st.mem ha hq
  | true =>
    exact (contentOf_saveRegion _ (region_of_lt ha) hq).trans (contentOf_setMask st.mem ha hq)

theorem shadowOf_touchRegion (ha : a < bitmapOffset) (hq : Region q) (save : Bool) :
    shadowOf (touchRegion st a save).mem q =
      if save = true ∧ q = addrToRegion bitmapClick a then contentOf st.mem q
      else shadowOf st.mem q := by
  cases save with
  | false =>
    rw [if_neg (by simp)]
    exact shadowOf_setMask st.mem ha hq
  | true =>
    refine (shadowOf_saveRegion _ (region_of_lt ha) hq).trans ?_
    by_cases hqa : q = addrToRegion bitmapClick a
    · rw [if_pos hqa, if_pos ⟨rfl, hqa⟩, hqa]
      exact contentOf_setMask st.mem ha (region_of_lt ha)
    · rw [if_neg hqa, if_neg (fun h => hqa h.2)]
      exact shadowOf_setMask st.mem ha hq

theorem isSet_touchRegion (ha : a < bitmapOffset) (hq : Region q) (save : Bool) :
    isSet (touchRegion st a save).mem q = true ↔
      q = addrToRegion bitmapClick a ∨ isSet st.mem q = true := by
  have hbits : isSet (touchRegion st a save).mem q = isSet (setMask st.mem a) q := by
    cases save with
    | false => rfl
    | true => exact isSet_saveRegion _ (region_of_lt ha) hq
  rw [hbits, isSet_setMask, Bool.or_eq_true, decide_eq_true_eq, region_eq_iff hq]

/-- Touching a region keeps the invariant if a clean region is saved or equals its shadow, and
    a touched one is not saved again or equals its shadow. -/
theorem PlainInv.touchRegion (h : PlainInv st.mem base touched) (ha : a < bitmapOffset)
    {save : Bool} (hsave : save = !isSet st.mem a ∨ shadowOf st.mem (addrToRegion bitmapClick a) =
      contentOf st.mem (addrToRegion bitmapClick a))
    (ht : ∀ q, touched' q ↔ q = addrToRegion bitmapClick a ∨ touched q) :
    PlainInv (touchRegion st a save).mem base touched' := by
  have hregion := region_of_lt ha
  have hbit : isSet st.mem a = true ↔ touched (addrToRegion bitmapClick a) := by
    rw [← h.mark _ hregion]
    have hsame : addrToRegion bitmapClick a / bitmapClick = a / bitmapClick :=
      (region_eq_iff hregion).mpr rfl
    rw [isSet_eq_testBit, isSet_eq_testBit, bitmapByte, bitmapByte, hsame]
  refine ⟨fun r hr => ?_, h.saves.touch (fun q hq => contentOf_touchRegion ha hq save) ?_ ?_ ?_
    fun q _ => ht q⟩
  · rw [isSet_touchRegion ha hr, ht r, h.mark r hr]
  · intro hnot
    rw [shadowOf_touchRegion ha hregion]
    rcases hsave with hsave | hsame
    · have hclear : isSet st.mem a = false := by
        rw [← Bool.not_eq_true, hbit]
        exact hnot
      rw [if_pos ⟨by rw [hsave, hclear]; rfl, rfl⟩]
    · split_ifs
      · rfl
      · exact hsame
  · intro htouched
    rw [shadowOf_touchRegion ha hregion]
    rcases hsave with hsave | hsame
    · rw [if_neg]
      rw [hsave, hbit.mpr htouched]
      simp
    · split_ifs
      · exact hsame.symm
      · rfl
  · intro q hq hne
    rw [shadowOf_touchRegion ha hq, if_neg fun hc => hne hc.2]

/-- The walk of the memcpy hook over regions that equal their shadows. -/
theorem PlainInv.foldl_visitRegion {rs : List ℕ} (hrs : ∀ r ∈ rs, Region r)
    (h : PlainInv st.mem base touched) (hs : ∀ r ∈ rs, shadowOf st.mem r = contentOf st.mem r)
    (ht : ∀ q, touched' q ↔ q ∈ rs ∨ touched q) :
    PlainInv (rs.foldl visitRegion st).mem base touched' := by
  induction rs generalizing st touched with
  | nil =>
    have heq : touched' = touched := funext fun q => propext ((ht q).trans (by simp))
    exact heq ▸ h
  | cons r rs ih =>
    have hr : Region r := hrs r (by simp)
    have hself : addrToRegion bitmapClick r = r := by rw [addrToRegion, hr.1, Nat.sub_zero]
    have hfirst : PlainInv (visitRegion st r).mem base (fun q => q = r ∨ touched q) := by
      rw [visitRegion_eq st hr]
      refine h.touchRegion hr.2 (Or.inr ?_) fun q => by rw [hself]
      rw [hself]
      exact hs r (by simp)
    refine ih (fun q hq => hrs q (by simp [hq])) hfirst (fun q hq => ?_) fun q => ?_
    · -- a region that was saved holds its own content, the others keep their shadows
      have hq' : Region q := hrs q (by simp [hq])
      rw [visitRegion_eq st hr, contentOf_touchRegion hr.2 hq', shadowOf_touchRegion hr.2 hq']
      split_ifs
      · rfl
      · exact hs q (by simp [hq])
    · rw [ht q, List.mem_cons, or_assoc, or_left_comm]

/-- The regions of a range of the program's memory. -/
theorem region_of_mem {n : ℕ} (h : a + n ≤ bitmapOffset) (hr : r ∈ regionsOf bitmapClick a n) :
    Region r := by
  obtain ⟨hmod, -, hlt⟩ := (mem_regionsOf (by decide)).mp hr
  exact ⟨hmod, lt_of_lt_of_le hlt h⟩

/-- The memcpy hook, if every region of its range equals its shadow. -/
theorem PlainInv.memcpyHook (h : PlainInv st.mem base touched) (hon : st.enabled = true) {n : ℕ}
    (ha : a + n ≤ bitmapOffset)
    (hs : ∀ r ∈ regionsOf bitmapClick a n, shadowOf st.mem r = contentOf st.mem r)
    (ht : ∀ q, touched' q ↔ q ∈ regionsOf bitmapClick a n ∨ touched q) :
    PlainInv (memcpyHook st a n).mem base touched' := by
  have hlast : a + n + bitmapClick ≤ 2 ^ 32 := by
    simp only [bitmapOffset, bitmapSize, shadowSpaceOffset, shadowSpaceSize, bitmapClick] at *
    omega
  have hwalk : Plain.memcpyHook st a n = (regionsOf bitmapClick a n).foldl visitRegion st := by
    have hlt : a + n < 2 ^ 32 := lt_of_lt_of_le (Nat.lt_add_of_pos_right (by decide)) hlast
    rw [Plain.memcpyHook, if_pos hon, Nat.mod_eq_of_lt hlt]
    exact regionLoop_regionsOf (by decide) visitRegion hlast st
  rw [hwalk]
  exact h.foldl_visitRegion (fun r hr => region_of_mem ha hr) hs ht

/-- A write inside touched regions changes neither bitmap nor shadows. -/
theorem PlainInv.write (h : PlainInv st.mem base touched) {bs : List UInt8}
    (ha : a + bs.length ≤ bitmapOffset) (ht : ∀ r ∈ regionsOf bitmapClick a bs.length, touched r) :
    PlainInv (write st.mem a bs) base touched := by
  refine ⟨fun r hr => ?_, h.saves.write (fun r hr hnot => ?_) fun r hr => ?_⟩
  · have hbyte := bitmapByte_mem hr.2
    rw [← h.mark r hr, isSet, isSet, write_of_outside _ _ _ (Or.inr (by omega))]
  · exact read_write_of_not_mem_regionsOf _ (by decide) hr.1 fun hmem => hnot (ht r hmem)
  · rw [shadowOf, shadowOf, primaryToShadow_eq hr, read_write_of_apart _ (Or.inl ?_)]
    simp only [bitmapOffset] at ha
    omega

/-! ### Checkpoints -/

/-- In the program's memory a mapping of the bitmap or the shadow space changes nothing. -/
theorem contentOf_mapZero (m : Mem) {start size : ℕ} (hr : Region r)
    (hstart : bitmapOffset ≤ start) : contentOf (mapZero m start size) r = contentOf m r := by
  refine read_congr fun i hi => mapZero_of_outside m (Or.inl ?_)
  simp only [Region, bitmapOffset, bitmapSize, shadowSpaceOffset, shadowSpaceSize,
    bitmapClick] at *
  omega

/-- A freshly mapped bitmap has no bit set. -/
theorem isSet_allocateBitmap (m : Mem) (hr : Region r) : isSet (allocateBitmap m) r = false := by
  have hzero : allocateBitmap m (bitmapByte r) = 0 := by
    rw [allocateBitmap, mapZero, if_pos (bitmapByte_mem hr.2)]
  rw [isSet_eq_testBit, hzero]
  exact Nat.zero_testBit _

/-- A call that takes a checkpoint establishes the invariant. -/
theorem PlainInv.topOfTheLoop (st : PlainState) (hckpt : ¬ ctxSkipsTol st.ctx)
    (ht : ∀ r, ¬ touched r) :
    PlainInv (topOfTheLoop st).mem st.mem touched ∧ (topOfTheLoop st).enabled = true := by
  -- the memory the bitmap is mapped into agrees with the old one in the program's regions
  obtain ⟨m, hm, hcontent⟩ : ∃ m, (Plain.topOfTheLoop st).mem = allocateBitmap m ∧
      ∀ r, Region r → contentOf m r = contentOf st.mem r := by
    rw [Plain.topOfTheLoop, if_neg hckpt]
    by_cases hfirst : st.firstTime
    · refine ⟨allocateShadowSpace (allocateBitmap st.mem), by simp only [hfirst, if_true], ?_⟩
      intro r hr
      rw [allocateShadowSpace, contentOf_mapZero _ hr (by decide), allocateBitmap,
        contentOf_mapZero _ hr le_rfl]
    · refine ⟨st.mem, by simp only [hfirst, Bool.false_eq_true, if_false], fun _ _ => rfl⟩
  refine ⟨?_, ?_⟩
  · rw [hm]
    refine ⟨fun r hr => ?_, CopyOnTouch.exact_checkpoint (fun r hr => ?_) fun r _ => ht r⟩
    · rw [isSet_allocateBitmap m hr]
      exact ⟨fun hc => absurd hc (by decide), fun hc => absurd hc (ht r)⟩
    · rw [allocateBitmap, contentOf_mapZero _ hr le_rfl, hcontent r hr]
  · rw [Plain.topOfTheLoop, if_neg hckpt]

/-! ### Steps and runs -/

/-- Hooks leave the two flags alone. -/
theorem touchRegion_flags (st : PlainState) (a : ℕ) (save : Bool) :
    (Plain.touchRegion st a save).enabled = st.enabled ∧
      (Plain.touchRegion st a save).firstTime = st.firstTime := by
  simp only [Plain.touchRegion, saveRegion]
  cases save <;> simp

theorem storeHook_flags (st : PlainState) (a : ℕ) :
    (storeHook st a).enabled = st.enabled ∧ (storeHook st a).firstTime = st.firstTime := by
  by_cases h : st.enabled = true
  · rw [storeHook_eq st a h]
    exact touchRegion_flags st a _
  · rw [storeHook, if_neg h]
    exact ⟨rfl, rfl⟩

theorem memcpyHook_flags (st : PlainState) (a n : ℕ) :
    (memcpyHook st a n).enabled = st.enabled ∧ (memcpyHook st a n).firstTime = st.firstTime := by
  rw [Plain.memcpyHook]
  split_ifs
  · refine regionLoop_keeps 
      (P := fun t : PlainState => t.enabled = st.enabled ∧ t.firstTime = st.firstTime)
      (fun t r ht => ?_) _ _ _ _ ⟨rfl, rfl⟩
    have hkeep : (visitRegion t r).enabled = t.enabled ∧
        (visitRegion t r).firstTime = t.firstTime := by
      cases hbit : isSet t.mem r <;> simp [visitRegion, setBit, saveRegion, hbit]
    exact ⟨hkeep.1.trans ht.1, hkeep.2.trans ht.2⟩
  · exact ⟨rfl, rfl⟩

/-- What a run keeps once a checkpoint has been taken. -/
def RunInv (s : PlainRun) : Prop :=
  s.st.firstTime = false →
    s.st.enabled = true ∧ PlainInv s.st.mem s.base (· ∈ s.touched) ∧
      ∀ r ∈ s.written, Region r ∧ r ∈ s.touched

/-- **Step.** Every event that meets `FindsSaved` keeps the invariant. -/
theorem plainStep_inv {s s' : PlainRun} {e : BmEvent} (h : RunInv s) (hok : FindsSaved s e)
    (hstep : plainStep s e = some s') : RunInv s' := by
  cases e with
  | storeHook a =>
    simp only [plainStep, Option.ite_none_right_eq_some, Option.some.injEq] at hstep
    obtain ⟨ha, rfl⟩ := hstep
    intro hfirst
    obtain ⟨hon, hinv, hwritten⟩ := h ((storeHook_flags s.st a).2.symm.trans hfirst)
    refine ⟨(storeHook_flags s.st a).1.trans hon, ?_, fun r hr => ?_⟩
    · show PlainInv (storeHook s.st a).mem s.base _
      rw [storeHook_eq s.st a hon]
      exact hinv.touchRegion ha (Or.inl rfl) fun q => List.mem_cons
    · exact ⟨(hwritten r hr).1, List.mem_cons_of_mem _ (hwritten r hr).2⟩
  | memcpyHook a n =>
    simp only [plainStep, Option.ite_none_right_eq_some, Option.some.injEq] at hstep
    obtain ⟨ha, rfl⟩ := hstep
    intro hfirst
    have hbefore := (memcpyHook_flags s.st a n).2.symm.trans hfirst
    obtain ⟨hon, hinv, hwritten⟩ := h hbefore
    refine ⟨(memcpyHook_flags s.st a n).1.trans hon, ?_, fun r hr => ?_⟩
    · exact hinv.memcpyHook hon ha (hok hbefore) fun q => List.mem_append
    · exact ⟨(hwritten r hr).1, List.mem_append_right _ (hwritten r hr).2⟩
  | write a bs =>
    simp only [plainStep, Option.ite_none_right_eq_some, Option.some.injEq] at hstep
    obtain ⟨ha, rfl⟩ := hstep
    intro hfirst
    obtain ⟨hon, hinv, hwritten⟩ := h hfirst
    refine ⟨hon, hinv.write ha (hok hfirst), fun r hr => ?_⟩
    rcases List.mem_append.mp hr with hnew | hold
    · exact ⟨region_of_mem ha hnew, hok hfirst r hnew⟩
    · exact hwritten r hold
  | topOfTheLoop =>
    simp only [plainStep] at hstep
    by_cases hskip : ctxSkipsTol s.st.ctx
    · rw [if_pos hskip, Option.some.injEq] at hstep
      subst hstep
      intro hfirst
      rw [Plain.topOfTheLoop, if_pos hskip] at hfirst ⊢
      exact h hfirst
    · rw [if_neg hskip, Option.some.injEq] at hstep
      subst hstep
      intro _
      have hnone : ∀ r, r ∉ ([] : List ℕ) := fun r => List.not_mem_nil
      obtain ⟨hinv, hon⟩ := PlainInv.topOfTheLoop s.st hskip hnone
      exact ⟨hon, hinv, fun r hr => absurd hr List.not_mem_nil⟩

/-- **Plain-bitmap checkpoints, as far as they are exact.**  In every run whose steps all meet
    `FindsSaved`, in every state after the first checkpoint, the shadow of each region written
    since the last checkpoint holds what the region held then. -/
theorem plainRun_exact (alwaysOn : Bool) (m : Mem) (ctx : Ctx) (es : List BmEvent) (t : PlainRun)
    (hrun : es.foldlM plainStep (plainInit alwaysOn m ctx) = some t)
    (hok : Runs.Meets FindsSaved plainStep (plainInit alwaysOn m ctx) es)
    (hfirst : t.st.firstTime = false) : CheckpointExact t := by
  have hinit : RunInv (plainInit alwaysOn m ctx) := fun h => absurd h (by simp [plainInit])
  have hinv : RunInv t :=
    Runs.invariant_of_run (fun s e s' h hP hs => plainStep_inv h hP hs) hinit hok hrun
  obtain ⟨-, hplain, hwritten⟩ := hinv hfirst
  intro r hr
  exact hplain.saves.saved r (hwritten r hr).1 (hwritten r hr).2

end Invariant

/-! ### A run that is exact and two that are not -/

/-- The state after a run from a memory of sevens, with a checkpoint at every call. -/
def runFrom (es : List BmEvent) : Option PlainRun :=
  es.foldlM plainStep (plainInit false (fun _ => 7) ⟨1, 0, 0, 0⟩)

/-- A checkpoint, a hooked store, and a memcpy hook on another region that a store hook has
    just saved. -/
def savedEvents : List BmEvent :=
  [.topOfTheLoop, .storeHook 0x1000, .write 0x1000 [1], .storeHook 0x2000,
    .memcpyHook 0x2000 8, .write 0x2000 [2]]

/-- The state after `savedEvents`. -/
def savedRun : PlainRun := (runFrom savedEvents).get (by decide +kernel)

theorem plainRun_exact_saved : CheckpointExact savedRun ∧ 0x2000 ∈ savedRun.written := by
  have hmeets : Runs.Meets FindsSaved plainStep (plainInit false (fun _ => 7) ⟨1, 0, 0, 0⟩)
      savedEvents := by
    decide +kernel
  exact ⟨plainRun_exact false _ _ savedEvents savedRun (Option.some_get _).symm hmeets
    (by decide +kernel), by decide +kernel⟩

/-- A memcpy into a clean region is not saved, and one into a dirty region is saved again over
    the content at the checkpoint. -/
theorem memcpyHook_loses_checkpoint :
    (∃ t, runFrom [.topOfTheLoop, .memcpyHook 0x1000 8, .write 0x1000 [1]] = some t ∧
      t.st.firstTime = false ∧ ¬ CheckpointExact t) ∧
    ∃ t, runFrom [.topOfTheLoop, .storeHook 0x1000, .write 0x1000 [1],
        .memcpyHook 0x1000 8, .write 0x1000 [2]] = some t ∧
      t.st.firstTime = false ∧ ¬ CheckpointExact t := by
  refine ⟨⟨(runFrom [.topOfTheLoop, .memcpyHook 0x1000 8, .write 0x1000 [1]]).get
      (by decide +kernel), (Option.some_get _).symm, by decide +kernel, fun h => ?_⟩,
    ⟨(runFrom [.topOfTheLoop, .storeHook 0x1000, .write 0x1000 [1],
        .memcpyHook 0x1000 8, .write 0x1000 [2]]).get (by decide +kernel),
      (Option.some_get _).symm, by decide +kernel, fun h => ?_⟩⟩
  · have hr := h 0x1000 (by decide +kernel)
    revert hr
    decide +kernel
  · have hr := h 0x1000 (by decide +kernel)
    revert hr
    decide +kernel

end Firestarter.Bitmap.Plain
