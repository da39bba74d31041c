import Firestarter.Bitmap.Tree
import Mathlib.Data.List.Induction

namespace Firestarter.Bitmap.Tree

open FlatMem
open Plain (shadowSpaceOffset)

/-!
# First touch with the bit tree (`bitmap_tree.h` with `LTCKPT_DIFF_SCHEME`, `ltckpt_bitmap.c`)

With the diff scheme the store hook saves a region when `ltckpt_set_bit` returns zero.  The value
returned is the old bit of the third level, which the regions of 256 KiB share.

* `setBit_ret` — what a call returns, from the bits that were set before it;
* `reports_iff` — the calls report first touches exactly as long as no region shares its bit of
  the third level with an earlier one;
* `mem_saved_iff` — the regions that a run of stores saves;
* `SavesOnce` — every region stored to is saved once, with what it held before the first store.
-/

/-! ### What a call returns -/

/-- `ltckpt_allocate_bitmap`: `mmap` maps whole pages anew. -/
def allocateBitmap (m : Mem) : Mem :=
  mapZero m layout.first (pageRoundDown (treeSize layout.cpb + 4095))

/-- The bit of the third level that a call tests and sets. -/
def thirdBit (a : ℕ) : ℕ × ℕ := (layout.third + a / 2 ^ 21, a / 2 ^ 18 % 8)

/-- The bit of the third level is set before the call looks at it: by an earlier call, or by the
    call itself in one of the levels below (for addresses beyond the tree's own range). -/
def Masked (before : List ℕ) (a : ℕ) : Prop :=
  (∃ a' ∈ before, thirdBit a ∈ bitsOf a') ∨ thirdBit a ∈ (bitsOf a).take 2

/-- Two addresses of one region. -/
def SameRegion (a a' : ℕ) : Prop := addrToRegion treeClick a = addrToRegion treeClick a'

instance (a a' : ℕ) : Decidable (SameRegion a a') := inferInstanceAs (Decidable (_ = _))

/-- Every call returns nonzero exactly if an earlier one was for the same region. -/
def Reports (m : Mem) (calls : List ℕ) : Prop :=
  ∀ before a after, calls = before ++ a :: after →
    ((setBit .diff (setBits .diff m before) a).1 ≠ 0 ↔ ∃ a' ∈ before, SameRegion a' a)

/-- Every call that finds its bit of the third level set has an earlier call for its region. -/
def MasksRegions (calls : List ℕ) : Prop :=
  ∀ before a after, calls = before ++ a :: after → Masked before a →
    ∃ a' ∈ before, SameRegion a' a

theorem allocateBitmap_area (m : Mem) {x : ℕ} (hx : x ∈ layout.area) : allocateBitmap m x = 0 := by
  have hsize : layout.first + pageRoundDown (treeSize layout.cpb + 4095) = shadowSpaceOffset := by
    decide
  rw [allocateBitmap, mapZero, hsize]
  exact if_pos hx

variable {a a' : ℕ}

theorem sameRegion_iff : SameRegion a a' ↔ a / 16 = a' / 16 := by
  rw [SameRegion, addrToRegion, addrToRegion, treeClick_eq]
  omega

/-- A call returns the bit of the third level as the first two levels leave it. -/
theorem setBit_ret (m : Mem) (a : ℕ) :
    (setBit .diff m a).1 ≠ 0 ↔
      bitAt m (thirdBit a).1 (thirdBit a).2 = true ∨ thirdBit a ∈ (bitsOf a).take 2 := by
  have hand : ∀ n, n &&& (8 - 1) = n % 8 := fun n => Nat.and_two_pow_sub_one_eq_mod n 3
  have hmod : ∀ n : ℕ, n % 8 < 8 := fun n => Nat.mod_lt n (by decide)
  have hret : (setBit .diff m a).1 =
      (((bitsOf a).take 2).foldl (fun m b => orBit m b.1 b.2) m (thirdBit a).1).toNat &&&
        1 <<< (thirdBit a).2 := by
    simp only [setBit, bitsOf, thirdBit, List.take, List.foldl_cons, List.foldl_nil, layout_cpb,
      hand, treeClick_eq, Nat.div_div_eq_div_mul, Nat.reduceMul, Nat.reducePow]
  rw [hret, and_ne_zero_iff_bitAt]
  simp only [bitsOf, List.take, List.foldl_cons, List.foldl_nil, bitAt_orBit _ (hmod _),
    Bool.or_eq_true, decide_eq_true_eq, List.mem_cons, List.not_mem_nil, or_false, or_assoc]
  refine or_congr Iff.rfl (or_congr ?_ ?_) <;>
    rw [Prod.ext_iff] <;> exact and_congr eq_comm eq_comm

/-- After calls on a fresh bitmap a call returns nonzero if and only if its bit is masked. -/
theorem setBits_ret (m : Mem) (before : List ℕ) (ha : a < 2 ^ 32) :
    (setBit .diff (setBits .diff (allocateBitmap m) before) a).1 ≠ 0 ↔ Masked before a := by
  have hfresh : allocateBitmap m (thirdBit a).1 = 0 := by
    refine allocateBitmap_area m ?_
    simp only [TreeLayout.area, Set.mem_Ico, thirdBit, layout_first, layout_third,
      shadowSpaceOffset_eq]
    omega
  rw [setBit_ret, bitAt_setBits, bitAt, hfresh, Masked, Bool.or_eq_true, decide_eq_true_eq,
    show (0 : UInt8).toNat = 0 from rfl, Nat.zero_testBit]
  simp only [Bool.false_eq_true, false_or, Prod.mk.eta]

/-- An earlier call for the same region masks the bit. -/
theorem masked_of_sameRegion {before : List ℕ} (ha' : a' ∈ before) (h : SameRegion a' a) :
    Masked before a := by
  rw [sameRegion_iff] at h
  refine Or.inl ⟨a', ha', ?_⟩
  have hthird : thirdBit a = thirdBit a' := by
    have hdiv : a / 2 ^ 21 = a' / 2 ^ 21 ∧ a / 2 ^ 18 = a' / 2 ^ 18 := by omega
    rw [thirdBit, thirdBit, hdiv.1, hdiv.2]
  rw [hthird, bitsOf, thirdBit]
  simp

theorem Masked.mono {before before' : List ℕ} (h : Masked before a) (hsub : before ⊆ before') :
    Masked before' a := by
  rcases h with ⟨a', ha', hbit⟩ | hself
  · exact Or.inl ⟨a', hsub ha', hbit⟩
  · exact Or.inr hself

/-- The bit of the third level is a matter of the region. -/
theorem SameRegion.masked_iff {before : List ℕ} (h : SameRegion a a') :
    Masked before a ↔ Masked before a' := by
  rw [sameRegion_iff] at h
  have hthird : thirdBit a = thirdBit a' ∧ bitsOf a = bitsOf a' := by
    have hdiv : a / 2 ^ 21 = a' / 2 ^ 21 ∧ a / 2 ^ 18 = a' / 2 ^ 18 ∧ a / 2 ^ 14 = a' / 2 ^ 14 ∧
        a / 2 ^ 11 = a' / 2 ^ 11 ∧ a / 2 ^ 7 = a' / 2 ^ 7 ∧ a / 2 ^ 4 = a' / 2 ^ 4 := by omega
    obtain ⟨h21, h18, h14, h11, h7, h4⟩ := hdiv
    rw [thirdBit, thirdBit, bitsOf, bitsOf, h21, h18, h14, h11, h7, h4]
    exact ⟨rfl, rfl⟩
  rw [Masked, Masked, hthird.1, hthird.2]

/-- For addresses below the shadow space the bit of the third level stands for 256 KiB. -/
theorem masked_iff {before : List ℕ} (ha : a < shadowSpaceOffset)
    (hbefore : ∀ a' ∈ before, a' < shadowSpaceOffset) :
    Masked before a ↔ ∃ a' ∈ before, a' / 2 ^ 18 = a / 2 ^ 18 := by
  rw [shadowSpaceOffset_eq] at ha
  have hpair : thirdBit a = (0x5FFFF000 + a / 2 ^ 21, a / 2 ^ 18 % 8) := by
    rw [thirdBit, layout_third]
  have hself : thirdBit a ∉ (bitsOf a).take 2 := by
    rw [hpair]
    simp only [bitsOf, List.take, List.mem_cons, List.not_mem_nil, or_false, Prod.mk.injEq,
      layout_first, layout_second]
    omega
  rw [Masked, or_iff_left hself]
  refine exists_congr fun a' => and_congr_right fun ha' => ?_
  have hlt := hbefore a' ha'
  rw [shadowSpaceOffset_eq] at hlt
  rw [hpair, mem_bitsOf]
  have hdiv : ∀ n : ℕ, n / 2097152 = n / 262144 / 8 := fun n => by omega
  rw [show (2 : ℕ) ^ 21 = 2097152 from rfl, show (2 : ℕ) ^ 18 = 262144 from rfl, hdiv a, hdiv a']
  omega

/-- A sequence of calls on a fresh bitmap reports first touches if and only if a call that finds
    its bit of the third level set has an earlier call for its region. -/
theorem reports_iff (m : Mem) {calls : List ℕ} (hcalls : ∀ a ∈ calls, a < 2 ^ 32) :
    Reports (allocateBitmap m) calls ↔ MasksRegions calls := by
  refine forall_congr' fun before => forall_congr' fun a => forall_congr' fun after =>
    forall_congr' fun hsplit => ?_
  have ha : a < 2 ^ 32 := hcalls a (hsplit ▸ List.mem_append_right before (List.mem_cons_self ..))
  rw [setBits_ret m before ha]
  refine ⟨fun h => h.mp, fun h => ⟨h, ?_⟩⟩
  rintro ⟨a', ha', hsame⟩
  exact masked_of_sameRegion ha' hsame

/-! ### The store hook -/

/-- The store hook with the diff scheme; `enabled` is `ltckpt_bitmap_enabled`. -/
def storeHook (enabled : Bool) (s : TreeState) (addr : ℕ) : TreeState :=
  if enabled then
    let (bitset, mem) := setBit .diff s.mem addr
    let s := { s with mem := mem }
    if bitset = 0 then copyClick s (addrToRegion treeClick addr) else s
  else s

/-- A store of the instrumented program, which the hook precedes. -/
structure Store where
  addr : ℕ
  bytes : List UInt8

/-- A store to the program's memory that stays in one region: it is aligned to its width. -/
def Store.Aligned (st : Store) : Prop :=
  st.addr % treeClick + st.bytes.length ≤ treeClick ∧ st.addr < layout.first

/-- The hook, then the store; the bitmap is enabled from the checkpoint on. -/
def storeStep (s : TreeState) (st : Store) : TreeState :=
  let s := storeHook true s st.addr
  { s with mem := write s.mem st.addr st.bytes }

/-- The stores since the checkpoint, which maps the bitmap anew. -/
def runStores (m : Mem) (stores : List Store) : TreeState :=
  stores.foldl storeStep ⟨allocateBitmap m, []⟩

/-- Every region stored to is saved once, with what it held at the checkpoint. -/
def SavesOnce (m : Mem) (stores : List Store) : Prop :=
  (runStores m stores).copied.Nodup ∧
    (∀ r, r ∈ (runStores m stores).copied ↔
      ∃ st ∈ stores, addrToRegion treeClick st.addr = r) ∧
    ∀ r ∈ (runStores m stores).copied,
      read (runStores m stores).mem (r + shadowSpaceOffset) treeClick = read m r treeClick

theorem runStores_concat (m : Mem) (stores : List Store) (st : Store) :
    runStores m (stores ++ [st]) = storeStep (runStores m stores) st := by
  rw [runStores, List.foldl_append]
  rfl

theorem setBits_concat (scheme : Scheme) (m : Mem) (calls : List ℕ) (a : ℕ) :
    setBits scheme m (calls ++ [a]) = (setBit scheme (setBits scheme m calls) a).2 := by
  rw [setBits, List.foldl_append]
  rfl

/-- What a call does to a byte depends on that byte alone. -/
theorem setBit_congr {m m' : Mem} (scheme : Scheme) (a : ℕ) {x : ℕ} (h : m x = m' x) :
    (setBit scheme m a).2 x = (setBit scheme m' a).2 x := by
  have hor : ∀ {m m' : Mem} (p bit : ℕ), m x = m' x → orBit m p bit x = orBit m' p bit x := by
    intro m m' p bit h
    by_cases hx : x = p
    · subst hx
      rw [orBit, orBit, write, write, h]
    · rw [orBit_of_ne m bit hx, orBit_of_ne m' bit hx, h]
  rw [setBit_mem, setBit_mem, bitsOf]
  exact hor _ _ (hor _ _ (hor _ _ h))

/-- Where an element can stand in a list with one more element at its end. -/
theorem concat_eq_append_cons {α : Type*} {l before after : List α} {x y : α} :
    l ++ [x] = before ++ y :: after ↔
      (before = l ∧ y = x ∧ after = []) ∨
        ∃ rest, after = rest ++ [x] ∧ l = before ++ y :: rest := by
  constructor
  · intro h
    rcases List.eq_nil_or_concat' after with rfl | ⟨rest, z, rfl⟩
    · obtain ⟨rfl, hy⟩ := List.append_inj' h rfl
      exact Or.inl ⟨rfl, (List.singleton_inj.mp hy).symm, rfl⟩
    · rw [← List.cons_append, ← List.append_assoc] at h
      obtain ⟨rfl, hz⟩ := List.append_inj' h rfl
      exact Or.inr ⟨rest, by rw [List.singleton_inj.mp hz], rfl⟩
  · rintro (⟨rfl, rfl, rfl⟩ | ⟨rest, rfl, rfl⟩)
    · rfl
    · simp

section Stores

variable {m : Mem} {stores : List Store}

variable {a x r : ℕ} {st : Store}

/-- The region of a program address, as a part of the program's memory. -/
theorem programRegion_of_lt (ha : a < layout.first) :
    ProgramRegion layout (addrToRegion treeClick a) := by
  rw [layout_first] at ha
  rw [ProgramRegion, addrToRegion, layout_first, treeClick_eq]
  omega

/-- The hook and the store leave the tree as the call of `ltckpt_set_bit` does. -/
theorem storeStep_area (hst : st.Aligned) (s : TreeState) (hx : x ∈ layout.area) :
    (storeStep s st).mem x = (setBit .diff s.mem st.addr).2 x := by
  obtain ⟨hlen, hlt⟩ := hst
  have hx1 : layout.first ≤ x := hx.1
  have hstore : x < st.addr ∨ st.addr + st.bytes.length ≤ x := by
    rw [layout_first] at hlt hx1
    rw [treeClick_eq] at hlen
    omega
  show write (storeHook true s st.addr).mem st.addr st.bytes x = _
  rw [write_of_outside _ _ _ hstore, storeHook, if_pos rfl]
  dsimp only
  split_ifs
  · rw [copyClick_eq (programRegion_of_lt hlt), sweep_below _ _ (Set.notMem_empty x) hx.2]
  · rfl

/-- A run leaves the tree as its calls of `ltckpt_set_bit` do. -/
theorem runStores_area (hst : ∀ st ∈ stores, st.Aligned) (hx : x ∈ layout.area) :
    (runStores m stores).mem x = setBits .diff (allocateBitmap m) (stores.map Store.addr) x := by
  induction stores using List.reverseRecOn with
  | nil => rfl
  | append_singleton stores st ih =>
    rw [runStores_concat, storeStep_area (hst st (by simp)) _ hx, List.map_append,
      List.map_singleton, setBits_concat]
    exact setBit_congr .diff st.addr (ih fun st' hst' => hst st' (List.mem_append_left _ hst'))

/-- In a run, too, a call returns nonzero if and only if its bit is masked. -/
theorem runStores_ret (hst : ∀ st ∈ stores, st.Aligned) (ha : a < layout.first) :
    (setBit .diff (runStores m stores).mem a).1 ≠ 0 ↔ Masked (stores.map Store.addr) a := by
  have hlt : a < 2 ^ 32 := lt_trans ha (by rw [layout_first]; decide)
  have harea : (thirdBit a).1 ∈ layout.area := by
    simp only [TreeLayout.area, Set.mem_Ico, thirdBit, layout_first, layout_third,
      shadowSpaceOffset_eq] at ha ⊢
    omega
  rw [← setBits_ret m _ hlt, setBit_ret, setBit_ret, bitAt, bitAt, runStores_area hst harea]

/-- The regions that the hook saves for `a`: its region if the call returns zero. -/
def savedBy (s : TreeState) (a : ℕ) : List ℕ :=
  if (setBit .diff s.mem a).1 = 0 then [addrToRegion treeClick a] else []

theorem storeHook_copied (s : TreeState) (a : ℕ) :
    (storeHook true s a).copied = s.copied ++ savedBy s a := by
  rw [storeHook, if_pos rfl, savedBy]
  dsimp only
  split_ifs
  · rfl
  · exact (List.append_nil _).symm

/-- The hook saves the region unless its bit is masked. -/
theorem mem_savedBy (hst : ∀ st ∈ stores, st.Aligned) (ha : a < layout.first) :
    r ∈ savedBy (runStores m stores) a ↔
      ¬ Masked (stores.map Store.addr) a ∧ addrToRegion treeClick a = r := by
  rw [← runStores_ret (m := m) hst ha, savedBy, not_not]
  split_ifs with hret
  · rw [List.mem_singleton, eq_comm]
    exact (and_iff_right hret).symm
  · exact ⟨fun h => absurd h List.not_mem_nil, fun h => absurd h.1 hret⟩

theorem copied_concat (m : Mem) (stores : List Store) (st : Store) :
    (runStores m (stores ++ [st])).copied =
      (runStores m stores).copied ++ savedBy (runStores m stores) st.addr := by
  rw [runStores_concat]
  exact storeHook_copied _ _

/-- The regions that a run saves are those of its unmasked stores. -/
theorem mem_saved_iff (hst : ∀ st ∈ stores, st.Aligned) :
    r ∈ (runStores m stores).copied ↔
      ∃ before st after, stores = before ++ st :: after ∧
        ¬ Masked (before.map Store.addr) st.addr ∧ addrToRegion treeClick st.addr = r := by
  induction stores using List.reverseRecOn with
  | nil =>
    refine ⟨fun h => absurd h List.not_mem_nil, ?_⟩
    rintro ⟨before, st, after, hsplit, -⟩
    exact absurd hsplit (by simp)
  | append_singleton stores st ih =>
    have hst' : ∀ st ∈ stores, st.Aligned := fun st' h => hst st' (List.mem_append_left _ h)
    have hlast : st.Aligned := hst st (by simp)
    rw [copied_concat, List.mem_append, mem_savedBy hst' hlast.2, ih hst']
    constructor
    · rintro (⟨before, st', after, rfl, hmask, hreg⟩ | ⟨hmask, hreg⟩)
      · exact ⟨before, st', after ++ [st], by simp, hmask, hreg⟩
      · exact ⟨stores, st, [], rfl, hmask, hreg⟩
    · rintro ⟨before, st', after, hsplit, hmask, hreg⟩
      rcases concat_eq_append_cons.mp hsplit with ⟨rfl, rfl, rfl⟩ | ⟨rest, rfl, rfl⟩
      · exact Or.inr ⟨hmask, hreg⟩
      · exact Or.inl ⟨before, st', rest, rfl, hmask, hreg⟩

/-- A store whose region is saved has an unmasked store to that region at or before it. -/
theorem masksRegions_of_saved (hst : ∀ st ∈ stores, st.Aligned)
    (hsaved : ∀ st ∈ stores, addrToRegion treeClick st.addr ∈ (runStores m stores).copied) :
    MasksRegions (stores.map Store.addr) := by
  intro before a after hsplit hmask
  obtain ⟨sb, rest, hstores, rfl, hrest⟩ := List.map_eq_append_iff.mp hsplit
  obtain ⟨st, sa, rfl, rfl, -⟩ := List.map_eq_cons_iff.mp hrest
  obtain ⟨sb', st', sa', hsplit', hmask', hreg⟩ :=
    (mem_saved_iff hst).mp (hsaved st (hstores ▸ by simp))
  rw [hstores] at hsplit'
  -- if the saving store came later, it would find the bit set as well
  have hlater : ∀ l, sb' = sb ++ l → False := by
    rintro l rfl
    refine hmask' ((SameRegion.masked_iff hreg).mpr (hmask.mono ?_))
    rw [List.map_append]
    exact List.subset_append_left _ _
  rcases List.append_eq_append_iff.mp hsplit' with ⟨l, hl, -⟩ | ⟨l, hl, hcons⟩
  · exact (hlater l hl).elim
  · cases l with
    | nil => exact (hlater [] (by rw [hl, List.append_nil, List.append_nil])).elim
    | cons x l =>
      obtain ⟨rfl, -⟩ := List.cons.inj hcons
      exact ⟨st'.addr, List.mem_map_of_mem (hl ▸ by simp), hreg⟩

/-! ### Saving under the condition -/

/-- Calls for program addresses leave the program's memory and the shadows alone. -/
theorem setBit_outside (scheme : Scheme) (m : Mem) (ha : a < layout.first) (hx : x ∉ layout.area) :
    (setBit scheme m a).2 x = m x := by
  have hcalls : ∀ b ∈ [a], b < layout.first := fun b hb => List.mem_singleton.mp hb ▸ ha
  refine setBits_of_not_inTree scheme m hcalls fun hin => hx ?_
  rw [inTree_iff] at hin
  simp only [TreeLayout.area, Set.mem_Ico, layout_first, shadowSpaceOffset_eq]
  omega

/-- The hook leaves the program's memory alone. -/
theorem storeHook_below (s : TreeState) (ha : a < layout.first) (hx : x < layout.first) :
    (storeHook true s a).mem x = s.mem x := by
  have hout : x ∉ layout.area := fun h => absurd h.1 (Nat.not_le.mpr hx)
  have hsh : x < shadowSpaceOffset := lt_of_lt_of_le hx layout.first_le_shadow
  rw [storeHook, if_pos rfl]
  dsimp only
  split_ifs
  · rw [copyClick_eq (programRegion_of_lt ha), sweep_below _ _ (Set.notMem_empty x) hsh]
    exact setBit_outside .diff s.mem ha hout
  · exact setBit_outside .diff s.mem ha hout

/-- The shadows after the hook: that of the region is new if the call returned zero. -/
theorem storeHook_shadow (s : TreeState) (ha : a < layout.first) (hx : shadowSpaceOffset ≤ x) :
    (storeHook true s a).mem x = syncRegions s.mem (savedBy s a) x := by
  have hout : x ∉ layout.area := fun h => absurd h.2 (Nat.not_lt.mpr hx)
  rw [storeHook, if_pos rfl, savedBy]
  dsimp only
  split_ifs
  · rw [copyClick_eq (programRegion_of_lt ha), sweep_of_not_mem _ _ (Set.notMem_empty x)]
    exact syncRegions_congr (fun r hr => List.mem_singleton.mp hr ▸ programRegion_of_lt ha)
      (fun y hy => setBit_outside .diff s.mem ha fun h => absurd h.1 (Nat.not_le.mpr hy))
      (setBit_outside .diff s.mem ha hout)
  · rw [syncRegions_nil]
    exact setBit_outside .diff s.mem ha hout

/-- What the program's regions hold. -/
def contents (m : Mem) (r : ℕ) : List UInt8 := read m r treeClick

/-- What their shadows hold. -/
def shadows (m : Mem) (r : ℕ) : List UInt8 := read m (r + shadowSpaceOffset) treeClick

/-- The shadow of a region that is copied, and of one that is not. -/
theorem shadows_sync {m m' : Mem} {rs : List ℕ}
    (h : ∀ x, shadowSpaceOffset ≤ x → m' x = syncRegions m rs x) (hr : ProgramRegion layout r) :
    shadows m' r = if r ∈ rs then contents m r else shadows m r := by
  have hreg : ∀ i < treeClick, addrToRegion treeClick (r + shadowSpaceOffset + i -
      shadowSpaceOffset) = r := by
    intro i hi
    have h16 := hr.1
    rw [treeClick_eq] at hi h16 ⊢
    rw [addrToRegion]
    omega
  split_ifs with hmem
  · rw [shadows, contents, FlatMem.read, FlatMem.read]
    refine List.map_congr_left fun i hi => ?_
    have hi' := List.mem_range.mp hi
    rw [h _ (by omega), syncRegions_of_mem _ (by omega) (by rw [hreg i hi']; exact hmem)]
    have hsrc : r + shadowSpaceOffset + i - shadowSpaceOffset = r + i := by omega
    rw [hsrc]
  · refine read_congr fun i hi => ?_
    rw [h _ (by omega), syncRegions_of_not_mem _ (Or.inr (by rw [hreg i hi]; exact hmem))]

/-- The checkpoint of a run: every region stored to is saved once, and the saved and the
    untouched regions are those of the checkpoint. -/
structure Checkpointed (m : Mem) (stores : List Store) : Prop where
  nodup : (runStores m stores).copied.Nodup
  touched : ∀ r, r ∈ (runStores m stores).copied ↔
    ∃ st ∈ stores, addrToRegion treeClick st.addr = r
  exact : CopyOnTouch.Exact (ProgramRegion layout) (contents (runStores m stores).mem)
    (shadows (runStores m stores).mem) (contents m) (· ∈ (runStores m stores).copied)

theorem checkpointed_nil (m : Mem) : Checkpointed m [] where
  nodup := List.nodup_nil
  touched r := ⟨fun h => absurd h List.not_mem_nil,
    fun h => absurd h (by rintro ⟨st, hst, -⟩; exact absurd hst List.not_mem_nil)⟩
  exact := by
    refine CopyOnTouch.exact_checkpoint (fun r hr => read_congr fun i hi => ?_)
      fun r _ => List.not_mem_nil
    have hbound := hr.2
    exact mapZero_of_outside m (Or.inl (by omega))

/-- A store to a region that is saved changes no region that is not, and no shadow. -/
theorem exact_store {s : TreeState} {base : ℕ → List UInt8} (hst : st.Aligned)
    (h : CopyOnTouch.Exact (ProgramRegion layout) (contents s.mem) (shadows s.mem) base
      (· ∈ s.copied)) (hsaved : addrToRegion treeClick st.addr ∈ s.copied) :
    CopyOnTouch.Exact (ProgramRegion layout) (contents (write s.mem st.addr st.bytes))
      (shadows (write s.mem st.addr st.bytes)) base (· ∈ s.copied) := by
  obtain ⟨hlen, hlt⟩ := hst
  have hfirst := layout.first_le_shadow
  have hregion := (programRegion_of_lt hlt).2
  have hbounds := addrToRegion_bounds st.addr
  refine h.write (fun r hr hno => read_write_of_apart _ ?_) fun r hr => read_write_of_apart _ ?_
  · -- two regions are equal or apart
    have hne : r ≠ addrToRegion treeClick st.addr := fun heq => hno (heq ▸ hsaved)
    have hr16 := hr.1
    rw [addrToRegion] at hne
    rw [treeClick_eq] at hne hr16 hlen ⊢
    unfold Apart
    omega
  · rw [addrToRegion] at hregion hbounds
    rw [treeClick_eq] at hregion hbounds hlen ⊢
    unfold Apart
    omega

/-- Where bits are masked by their own region only, a bit is masked exactly if its region is
    saved. -/
theorem Checkpointed.masked_iff_saved (h : Checkpointed m stores)
    (hmasks : MasksRegions ((stores ++ [st]).map Store.addr)) :
    Masked (stores.map Store.addr) st.addr ↔
      addrToRegion treeClick st.addr ∈ (runStores m stores).copied := by
  rw [h.touched]
  constructor
  · intro hmasked
    obtain ⟨a', ha', hsame⟩ := hmasks (stores.map Store.addr) st.addr [] (by simp) hmasked
    obtain ⟨st', hmem, rfl⟩ := List.mem_map.mp ha'
    exact ⟨st', hmem, hsame⟩
  · rintro ⟨st', hmem, hsame⟩
    exact masked_of_sameRegion (List.mem_map_of_mem hmem) hsame

/-- A hook that saves a region unless it is saved already adds this region. -/
theorem mem_copied_concat (hsavedBy : ∀ r, r ∈ savedBy (runStores m stores) st.addr ↔
      addrToRegion treeClick st.addr ∉ (runStores m stores).copied ∧
        addrToRegion treeClick st.addr = r) (r : ℕ) :
    r ∈ (runStores m (stores ++ [st])).copied ↔
      r = addrToRegion treeClick st.addr ∨ r ∈ (runStores m stores).copied := by
  rw [copied_concat, List.mem_append, hsavedBy]
  constructor
  · rintro (h | ⟨-, rfl⟩)
    · exact Or.inr h
    · exact Or.inl rfl
  · rintro (rfl | h)
    · by_cases hold : addrToRegion treeClick st.addr ∈ (runStores m stores).copied
      · exact Or.inl hold
      · exact Or.inr ⟨hold, rfl⟩
    · exact Or.inl h

/-- **Step.** A store whose hook saves the region unless it is saved already. -/
theorem Checkpointed.concat (h : Checkpointed m stores) (hst : st.Aligned)
    (hsavedBy : ∀ r, r ∈ savedBy (runStores m stores) st.addr ↔
      addrToRegion treeClick st.addr ∉ (runStores m stores).copied ∧
        addrToRegion treeClick st.addr = r) : Checkpointed m (stores ++ [st]) := by
  obtain ⟨hnodup, htouched, hexact⟩ := h
  have hboth := mem_copied_concat hsavedBy
  refine ⟨?_, ?_, ?_⟩
  · rw [copied_concat]
    refine hnodup.append ?_ ?_
    · rw [savedBy]
      split_ifs
      · exact List.nodup_singleton _
      · exact List.nodup_nil
    · intro r hr hr'
      exact ((hsavedBy r).mp hr').1 (((hsavedBy r).mp hr').2 ▸ hr)
  · intro r
    rw [hboth, htouched]
    simp only [List.mem_append, List.mem_singleton, or_and_right, exists_or, exists_eq_left]
    exact or_comm.trans (or_congr Iff.rfl eq_comm)
  · -- first the hook, which saves before the store changes the region
    have hshadow := fun r hr => shadows_sync (r := r)
      (fun x hx => storeHook_shadow (runStores m stores) hst.2 hx) hr
    have hhook : CopyOnTouch.Exact (ProgramRegion layout)
        (contents (storeHook true (runStores m stores) st.addr).mem)
        (shadows (storeHook true (runStores m stores) st.addr).mem) (contents m)
        (· ∈ (runStores m (stores ++ [st])).copied) := by
      refine hexact.touch (r := addrToRegion treeClick st.addr) (fun r hr => ?_)
        (fun hnew => ?_) (fun hold => ?_) (fun r hr hne => ?_) fun r _ => hboth r
      · have hbound := hr.2
        exact read_congr fun i hi => storeHook_below _ hst.2 (by omega)
      · rw [hshadow _ (programRegion_of_lt hst.2), if_pos ((hsavedBy _).mpr ⟨hnew, rfl⟩)]
      · rw [hshadow _ (programRegion_of_lt hst.2), if_neg fun h => ((hsavedBy _).mp h).1 hold]
      · rw [hshadow _ hr, if_neg fun h => hne ((hsavedBy _).mp h).2.symm]
    have hcopied : (storeHook true (runStores m stores) st.addr).copied =
        (runStores m (stores ++ [st])).copied := by
      rw [copied_concat, storeHook_copied]
    rw [← hcopied] at hhook hboth ⊢
    rw [runStores_concat]
    exact exact_store hst hhook ((hboth _).mpr (Or.inl rfl))

theorem checkpointed (hst : ∀ st ∈ stores, st.Aligned)
    (hmasks : MasksRegions (stores.map Store.addr)) : Checkpointed m stores := by
  induction stores using List.reverseRecOn with
  | nil => exact checkpointed_nil m
  | append_singleton stores st ih =>
    have hst' : ∀ st ∈ stores, st.Aligned := fun st' h => hst st' (List.mem_append_left _ h)
    have hlast : st.Aligned := hst st (by simp)
    have hstores' : MasksRegions (stores.map Store.addr) := by
      rintro before a after hsplit
      exact hmasks before a (after ++ [st.addr]) (by simp [hsplit])
    have hbefore := ih hst' hstores'
    refine hbefore.concat hlast fun r => ?_
    rw [mem_savedBy hst' hlast.2, hbefore.masked_iff_saved hmasks]

/-- A run saves every region once and in time if and only if no store is masked by another
    region. -/
theorem savesOnce_iff (hst : ∀ st ∈ stores, st.Aligned) :
    SavesOnce m stores ↔ MasksRegions (stores.map Store.addr) := by
  constructor
  · rintro ⟨-, htouched, -⟩
    exact masksRegions_of_saved hst fun st hmem => (htouched _).mpr ⟨st, hmem, rfl⟩
  · intro hmasks
    obtain ⟨hnodup, htouched, hexact⟩ := checkpointed (m := m) hst hmasks
    refine ⟨hnodup, htouched, fun r hr => ?_⟩
    obtain ⟨st, hmem, rfl⟩ := (htouched r).mp hr
    exact hexact.saved _ (programRegion_of_lt (hst st hmem).2) hr

end Stores

/-- A call in a 256 KiB block that an earlier call touched has an earlier call for its region. -/
def BlocksRepeat (calls : List ℕ) : Prop :=
  ∀ before a after, calls = before ++ a :: after →
    (∃ a' ∈ before, a' / 2 ^ 18 = a / 2 ^ 18) → ∃ a' ∈ before, SameRegion a' a

theorem masksRegions_iff {calls : List ℕ} (hcalls : ∀ a ∈ calls, a < shadowSpaceOffset) :
    MasksRegions calls ↔ BlocksRepeat calls := by
  refine forall_congr' fun before => forall_congr' fun a => forall_congr' fun after =>
    forall_congr' fun hsplit => ?_
  rw [masked_iff (hcalls a (by simp [hsplit])) fun a' ha' => hcalls a' (by simp [hsplit, ha'])]

/-- **First touch.** On a fresh bitmap the calls report first touches exactly if every call that
    finds its bit of the third level set has an earlier call for its region; for addresses below
    the shadow space the bit stands for a block of 256 KiB.  Exactly then the store hook saves
    every region once, before the first store to it. -/
theorem firstTouch_iff (m : Mem) (calls : List ℕ) (hcalls : ∀ a ∈ calls, a < 2 ^ 32) :
    (Reports (allocateBitmap m) calls ↔ MasksRegions calls) ∧
      ((∀ a ∈ calls, a < shadowSpaceOffset) →
        (Reports (allocateBitmap m) calls ↔ BlocksRepeat calls)) ∧
      ∀ stores : List Store, stores.map Store.addr = calls → (∀ st ∈ stores, st.Aligned) →
        (SavesOnce m stores ↔ BlocksRepeat calls) := by
  refine ⟨reports_iff m hcalls, fun hshadow => ?_, ?_⟩
  · rw [reports_iff m hcalls, masksRegions_iff hshadow]
  · rintro stores rfl hst
    rw [savesOnce_iff hst, masksRegions_iff]
    intro a ha
    obtain ⟨st, hmem, rfl⟩ := List.mem_map.mp ha
    exact lt_of_lt_of_le (hst st hmem).2 layout.first_le_shadow

/-- Two stores to one region: the second is reported, and the region is saved once. -/
theorem firstTouch_iff_repeated :
    Reports (allocateBitmap fun _ => 0) [0x1000, 0x1008] ∧
      SavesOnce (fun _ => 0) [⟨0x1000, [1, 2]⟩, ⟨0x1008, [3]⟩] := by
  have hblocks : BlocksRepeat [0x1000, 0x1008] := by
    rintro (_ | ⟨b, _ | ⟨c, before⟩⟩) a after hsplit ⟨a', ha', -⟩
    · exact absurd ha' List.not_mem_nil
    · obtain ⟨rfl, rfl, rfl⟩ : 0x1000 = b ∧ 0x1008 = a ∧ [] = after := by simpa using hsplit
      exact ⟨0x1000, List.mem_singleton_self _, by decide⟩
    · simp at hsplit
  have hiff := firstTouch_iff (fun _ => 0) [0x1000, 0x1008] (by decide)
  refine ⟨(hiff.2.1 (by decide)).mpr hblocks, (hiff.2.2 _ rfl ?_).mpr hblocks⟩
  intro st hst
  simp only [List.mem_cons, List.not_mem_nil, or_false] at hst
  rcases hst with rfl | rfl <;> exact ⟨by decide, by decide⟩

/-- Two regions of one 256 KiB block: the first call for the second region is reported as a
    repeated one, and the region is not saved. -/
theorem shared_block_reported :
    (setBit .diff (setBits .diff (allocateBitmap fun _ => 0) [0x1000]) 0x2000).1 ≠ 0 ∧
      ¬ Reports (allocateBitmap fun _ => 0) [0x1000, 0x2000] ∧
      (runStores (fun _ => 0) [⟨0x1000, [1]⟩, ⟨0x2000, [1]⟩]).copied = [0x1000] := by
  have hret : (setBit .diff (setBits .diff (allocateBitmap fun _ => 0) [0x1000]) 0x2000).1 ≠ 0 := by
    decide +kernel
  refine ⟨hret, fun h => ?_, by decide +kernel⟩
  obtain ⟨a', ha', hsame⟩ := (h [0x1000] 0x2000 [] rfl).mp hret
  rw [List.mem_singleton.mp ha'] at hsame
  exact absurd hsame (by decide)

end Firestarter.Bitmap.Tree
