import Mathlib.Order.Bounds.Defs
import Firestarter.Ltckpt.StoreElim

namespace Firestarter.Ltckpt

open Cfg

/-!
# The range of an aggregated chain

`dump` calls `instrumentRange` with the smallest offset of a chain as the start and with the
largest offset as the size.

* `rangeHook_chain`: the members of a range hook and the extremes of their offsets.
* `rangeHook_contains_iff`: for which chains the range contains every byte of every store.
-/

variable {ι : Type*} {F : PassFunction ι} {DT : DominatorTree F.graph} {o : ElimOptions}

/-! ### The members of a chain -/

/-- Every entry of the chain is a store to the object, with its offset. -/
def ChainOf (F : PassFunction ι) (V : ℕ) (dc : DominationChain ι) : Prop :=
  ∀ e ∈ dc, ∃ s, F.storeAt e.1 = some s ∧ s.base = V ∧ s.offset = e.2

/-- Adding a store to the chains of its object. -/
theorem chainOf_addToChains {V : ℕ} {I : ι} {s : StoreOp} (hs : F.storeAt I = some s)
    (hV : s.base = V) {dcl : List (DominationChain ι)} (h : ∀ dc ∈ dcl, ChainOf F V dc) :
    ∀ dc ∈ addToChains F DT I s.offset dcl, ChainOf F V dc := by
  have hnew : ∃ s', F.storeAt I = some s' ∧ s'.base = V ∧ s'.offset = s.offset := ⟨s, hs, hV, rfl⟩
  induction dcl with
  | nil =>
    intro dc hdc e he
    rw [addToChains, List.mem_singleton] at hdc
    subst hdc
    rw [List.mem_singleton.mp he]
    exact hnew
  | cons dc dcl ih =>
    rw [List.forall_mem_cons] at h
    obtain ⟨hdc, hdcl⟩ := h
    rcases dc with - | ⟨⟨leader, off⟩, dc⟩
    · rw [addToChains, List.forall_mem_cons]
      exact ⟨hdc, ih hdcl⟩
    · rw [addToChains]
      split_ifs
      · rw [List.forall_mem_cons]
        refine ⟨fun e he => ?_, hdcl⟩
        rcases List.mem_append.mp he with he | he
        · exact hdc e he
        · rw [List.mem_singleton.mp he]
          exact hnew
      · rw [List.forall_mem_cons]
        refine ⟨fun e he => ?_, hdcl⟩
        rcases List.mem_cons.mp he with rfl | he
        · exact hnew
        · exact hdc e he
      · rw [List.forall_mem_cons]
        exact ⟨hdc, ih hdcl⟩

/-- All chains of the map consist of stores to their object. -/
theorem chainOf_storeDominationMap {L : List ι} {V : ℕ} :
    ∀ dc ∈ storeDominationMap F DT L V, ChainOf F V dc :=
  forall_storeDominationMap fun _ _ _ hs h => chainOf_addToChains hs rfl h

/-- What `dump` makes of a chain. -/
theorem dumpChain_eq_some {V : ℕ} {dc : DominationChain ι} {r : RangeHook ι}
    (h : dumpChain V dc = some r) :
    r.base = V ∧ r.members = dc.map Prod.fst ∧ (dc.map Prod.snd).min? = some r.lo ∧
      (dc.map Prod.snd).max? = some r.size := by
  match dc, h with
  | (leader, off) :: e :: dc, rfl =>
    exact ⟨rfl, rfl, List.min?_cons' .., List.max?_cons' ..⟩

/-- The offsets of the stores whose hooks a range hook replaces. -/
def RangeHook.offsets (F : PassFunction ι) (r : RangeHook ι) : Set ℤ :=
  {z | ∃ n ∈ r.members, ∃ s, F.storeAt n = some s ∧ s.offset = z}

/-- **A range hook and its chain**: the members are stores to the object, the start is their
    smallest offset, and the size is their largest. -/
theorem rangeHook_chain {L : List ι} {r : RangeHook ι} (hr : r ∈ aggregateStores F DT o L) :
    (∀ n ∈ r.members, ∃ s, F.storeAt n = some s ∧ s.base = r.base) ∧
      IsLeast (r.offsets F) r.lo ∧ IsGreatest (r.offsets F) r.size := by
  unfold aggregateStores at hr
  split at hr
  · obtain ⟨V, -, hr⟩ := List.mem_flatMap.mp hr
    obtain ⟨dc, hdc, hdump⟩ := List.mem_filterMap.mp hr
    have hchain := chainOf_storeDominationMap dc hdc
    obtain ⟨hbase, hmembers, hlo, hsize⟩ := dumpChain_eq_some hdump
    have hoffsets : r.offsets F = {z | z ∈ dc.map Prod.snd} := by
      ext z
      simp only [RangeHook.offsets, hmembers, Set.mem_ofPred_eq, List.mem_map]
      constructor
      · rintro ⟨_, ⟨e, he, rfl⟩, s, hs, rfl⟩
        obtain ⟨s', hs', -, hoff⟩ := hchain e he
        rw [hs, Option.some.injEq] at hs'
        exact ⟨e, he, by rw [hs', hoff]⟩
      · rintro ⟨e, he, rfl⟩
        obtain ⟨s, hs, -, hoff⟩ := hchain e he
        exact ⟨e.1, ⟨e, he, rfl⟩, s, hs, hoff⟩
    rw [hoffsets]
    refine ⟨fun n hn => ?_, List.min?_eq_some_iff.mp hlo, List.max?_eq_some_iff.mp hsize⟩
    rw [hmembers] at hn
    obtain ⟨e, he, rfl⟩ := List.mem_map.mp hn
    obtain ⟨s, hs, hV, -⟩ := hchain e he
    exact ⟨s, hs, hV.trans hbase.symm⟩
  · exact absurd hr (List.not_mem_nil)

/-! ### Bytes of the stores and of the range -/

/-- The bytes that a hook call passes as a range: the hook ends at `addr + size`. -/
def HookCall.Passes : HookCall → ℕ → Prop
  | .memcpyHook addr size, x => addr ≤ x ∧ x < ulong (addr + size)
  | .storeInstHook _, _ => False

/-- The object lies at `V`, with all stores of the chain inside the address space. -/
structure ChainAt (F : PassFunction ι) (r : RangeHook ι) (V : ℕ) : Prop where
  first : ∀ n ∈ r.members, ∀ s, F.storeAt n = some s → 0 ≤ V + s.offset ∧ V + s.offset < 2 ^ 64
  last : ∀ n ∈ r.members, ∀ s, F.storeAt n = some s → V + s.offset + s.width ≤ 2 ^ 64

/-- **The range covers the chain**: it contains every byte of every store. -/
def RangeContains (F : PassFunction ι) (r : RangeHook ι) (V : ℕ) : Prop :=
  ∀ n ∈ r.members, ∀ s, F.storeAt n = some s → ∀ x : ℕ, V + s.offset ≤ x →
    x < V + s.offset + s.width → (instrumentRange V (ulongOfInt r.lo) (ulongOfInt r.size)).Passes x

/-- No store of the chain ends behind the object's address moved by the smallest and by the
    largest of the offsets. -/
def ChainFits (F : PassFunction ι) (r : RangeHook ι) (V : ℕ) : Prop :=
  ∃ lo hi, IsLeast (r.offsets F) lo ∧ IsGreatest (r.offsets F) hi ∧
    ∀ n ∈ r.members, ∀ s, F.storeAt n = some s → 0 < s.width →
      V + s.offset + s.width ≤ (V + lo + hi) % 2 ^ 64

/-- The start of the range. -/
theorem rangeStart_eq {V : ℕ} {lo : ℤ} (h0 : 0 ≤ V + lo) (h64 : V + lo < 2 ^ 64) :
    (ulong (V + ulongOfInt lo) : ℤ) = V + lo := by
  simp only [ulong, ulongOfInt]
  omega

/-- The end of the range. -/
theorem rangeEnd_eq {V : ℕ} {lo : ℤ} (h0 : 0 ≤ V + lo) (h64 : V + lo < 2 ^ 64) (hi : ℤ) :
    (ulong (ulong (V + ulongOfInt lo) + ulongOfInt hi) : ℤ) = (V + lo + hi) % 2 ^ 64 := by
  have hstart := rangeStart_eq h0 h64
  simp only [ulong, ulongOfInt] at hstart ⊢
  omega

/-- **The range of an aggregated chain.**  Wherever the object lies, the range passed at the
    leader contains every byte of every store of the chain exactly when the chain fits. -/
theorem rangeHook_contains_iff {L : List ι} {r : RangeHook ι} (hr : r ∈ aggregateStores F DT o L)
    {V : ℕ} (hV : ChainAt F r V) : RangeContains F r V ↔ ChainFits F r V := by
  obtain ⟨-, hlo, hsize⟩ := rangeHook_chain hr
  obtain ⟨n₀, hn₀, s₀, hs₀, hoff₀⟩ := hlo.1
  obtain ⟨h0, h64⟩ := hV.first n₀ hn₀ s₀ hs₀
  rw [hoff₀] at h0 h64
  have hstart := rangeStart_eq h0 h64
  have hend := rangeEnd_eq h0 h64 r.size
  constructor
  · intro h
    refine ⟨r.lo, r.size, hlo, hsize, fun n hn s hs hw => ?_⟩
    obtain ⟨hfirst, -⟩ := hV.first n hn s hs
    -- the last byte of the store
    obtain ⟨-, hlt⟩ := h n hn s hs (V + s.offset + s.width - 1).toNat (by omega) (by omega)
    omega
  · rintro ⟨lo, hi, hlo', hhi', hfits⟩ n hn s hs x hx hx'
    obtain rfl := hlo.unique hlo'
    obtain rfl := hsize.unique hhi'
    have hle := hlo.2 ⟨n, hn, s, hs, rfl⟩
    have hfit := hfits n hn s hs (by omega)
    show ulong (V + ulongOfInt r.lo) ≤ x ∧
      x < ulong (ulong (V + ulongOfInt r.lo) + ulongOfInt r.size)
    omega

/-- Stores to the second and third field of an object. -/
def storeTailFields : List PassInst := [.store ⟨1, 0, 8, 8⟩, .store ⟨2, 0, 16, 8⟩]

/-- The range hook of two aggregated stores, with the given start and size. -/
def pairHook (lo size : ℤ) : RangeHook ℕ := ⟨0, 0, lo, size, [0, 1]⟩

theorem storeTailFields_storeAt {n : ℕ} {s : StoreOp} (hn : n ∈ (pairHook 8 16).members)
    (hs : (straightFunction storeTailFields fun _ => .nil).storeAt n = some s) :
    s = ⟨1, 0, 8, 8⟩ ∨ s = ⟨2, 0, 16, 8⟩ := by
  rcases List.mem_cons.mp hn with rfl | hn
  · exact Or.inl (Option.some.inj hs).symm
  · rw [List.mem_singleton.mp hn] at hs
    exact Or.inr (Option.some.inj hs).symm

/-- The range for the two tail fields starts at offset 8 and is 16 bytes long, which is both of
    them. -/
theorem rangeHook_contains_iff_tail_fields :
    RangeContains (straightFunction storeTailFields fun _ => .nil) (pairHook 8 16) 0x10000 := by
  have hr : pairHook 8 16 ∈ aggregateStores (straightFunction storeTailFields fun _ => .nil)
      (straightTree storeTailFields fun _ => .nil) ⟨false, true⟩ [0, 1] :=
    List.mem_singleton_self _
  refine (rangeHook_contains_iff hr ⟨fun n hn s hs => ?_, fun n hn s hs => ?_⟩).mpr
    ⟨8, 16, (rangeHook_chain hr).2.1, (rangeHook_chain hr).2.2, fun n hn s hs _ => ?_⟩
  all_goals rcases storeTailFields_storeAt hn hs with rfl | rfl <;> decide

/-- The range for the first two fields is eight bytes long and contains no byte of the second. -/
theorem range_misses_second_field :
    pairHook 0 8 ∈ aggregateStores (straightFunction storeFields fun _ => .nil)
        (straightTree storeFields fun _ => .nil) ⟨false, true⟩ [0, 1] ∧
      ¬ RangeContains (straightFunction storeFields fun _ => .nil) (pairHook 0 8) 0x10000 := by
  refine ⟨List.mem_singleton_self _, fun h => ?_⟩
  have hbyte := h 1 (by decide) ⟨1, 0, 8, 8⟩ rfl 0x10008 (by decide) (by decide)
  exact absurd hbyte.2 (by decide)

end Firestarter.Ltckpt
