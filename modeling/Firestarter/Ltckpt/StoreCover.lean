import Firestarter.Ltckpt.Writelog

namespace Firestarter.Ltckpt

open FlatMem

/-!
# Which bytes a hook call logs

The instrumentation passes put a hook call in front of a store; the runtime appends entries
to the log.  This file follows one call from the instruction it is inserted for
(`instrumentStore`, `instrumentRange`) to the granules that stand in the log afterwards.

* `loggedGranules` — the address slots appended between two positions of the log;
* `ltckptStoreHook_logged`, `ltckptMemcpyHook_logged` — what each hook appends;
* `storeLogged_iff` — a store is logged in full exactly when it stays in one granule.
-/

/-! ### The inserted calls -/

/-- A store instruction at run time: its pointer operand and the size of the stored value. -/
structure StoreInst where
  ptr : ℕ
  width : ℕ
  ptr_lt : ptr < 2 ^ 64

/-- A call the instrumentation passes insert, with the arguments it gets. -/
inductive HookCall
  | storeInstHook (addr : ℕ)
  | memcpyHook (addr size : ℕ)
  deriving DecidableEq, Repr

/-- `LtCkptPass::instrumentStore`: the only argument that reaches the log is the pointer
    operand (with `ltckpt_window_profiling` a constant 0 follows it). -/
def instrumentStore (s : StoreInst) : HookCall := .storeInstHook s.ptr

/-- `LtCkptPass::instrumentRange`: the object's address moved by `off`, and `size`. -/
def instrumentRange (ptr off size : ℕ) : HookCall := .memcpyHook (ulong (ptr + off)) size

/-- Run an inserted call. -/
def runHook (L : Layout) (st : WlState) : HookCall → WlState
  | .storeInstHook addr => ltckptStoreHook L st addr
  | .memcpyHook addr size => ltckptMemcpyHook L st addr size

/-! ### The entries a call appends -/

/-- The address slots of the log entries between two positions. -/
def loggedGranules (L : Layout) (m : Mem) (lo hi : ℕ) : List ℕ :=
  (List.range ((hi - lo) / entrySize)).map fun k => readLE m (L.wlData + (lo + entrySize * k)) 8

/-- Every one of the `n` bytes from `a` on lies in a granule of `gs`. -/
def Covers (gs : List ℕ) (a n : ℕ) : Prop :=
  ∀ x, a ≤ x → x < a + n → ∃ g ∈ gs, g ≤ x ∧ x < g + writelogGranularity

/-- The granules that a hook call logs. -/
def hookGranules (L : Layout) (st : WlState) (c : HookCall) : List ℕ :=
  loggedGranules L (runHook L st c).mem st.wlPosition (runHook L st c).wlPosition

/-- The hook call inserted before a store logs every byte the store writes. -/
def StoreLogged (L : Layout) (st : WlState) (s : StoreInst) : Prop :=
  Covers (hookGranules L st (instrumentStore s)) s.ptr s.width

variable (L : Layout) (st : WlState)

/-- Appending an entry leaves every byte below the end of the log as it was. -/
theorem ltckptWriteWl_mem_of_lt (a : ℕ) {x : ℕ} (hx : x < L.wlData + st.wlPosition) :
    (ltckptWriteWl L st a).mem x = st.mem x := by
  rw [ltckptWriteWl_eq]
  show write _ _ _ x = _
  rw [write_of_outside _ _ _ (Or.inl (by omega)), writeLE_of_outside _ _ _ _ (Or.inl hx)]

/-- The address slot of the entry just appended. -/
theorem ltckptWriteWl_slot {a : ℕ} (ha : a < 2 ^ 64) :
    readLE (ltckptWriteWl L st a).mem (L.wlData + st.wlPosition) 8 = granule a := by
  have hg : granule a < 256 ^ 8 := by
    have := (granule_spec a).1
    omega
  rw [ltckptWriteWl_eq]
  show readLE (write _ _ _) _ 8 = _
  rw [readLE_write_of_apart _ (Or.inr (by omega)), readLE_writeLE _ _ hg]

/-- How many entries lie between two positions. -/
theorem numEntries_eq (lo n : ℕ) : (lo + 16 * n - lo) / entrySize = n := by
  rw [entrySize_eq]
  omega

/-- The first of several slots. -/
theorem loggedGranules_cons (L : Layout) (m : Mem) (lo n : ℕ) :
    loggedGranules L m lo (lo + 16 * (n + 1)) =
      readLE m (L.wlData + lo) 8 :: loggedGranules L m (lo + 16) (lo + 16 + 16 * n) := by
  rw [loggedGranules, loggedGranules, numEntries_eq, numEntries_eq, List.range_succ_eq_map,
    List.map_cons, List.map_map]
  refine congrArg₂ _ (by simp) (List.map_congr_left fun k _ => ?_)
  show readLE m (L.wlData + (lo + entrySize * (k + 1))) 8 =
    readLE m (L.wlData + (lo + 16 + entrySize * k)) 8
  have hnext : lo + entrySize * (k + 1) = lo + 16 + entrySize * k := by
    rw [entrySize_eq]
    omega
  rw [hnext]

/-- Nothing lies between a position and itself. -/
@[simp] theorem loggedGranules_self (L : Layout) (m : Mem) (lo : ℕ) :
    loggedGranules L m lo lo = [] := by
  simp [loggedGranules]

/-- The store hook appends the granule of its argument. -/
theorem ltckptStoreHook_logged {a : ℕ} (ha : a < 2 ^ 64) :
    hookGranules L st (.storeInstHook a) = [granule a] := by
  show loggedGranules L (ltckptWriteWl L st a).mem _ (ltckptWriteWl L st a).wlPosition = _
  rw [ltckptWriteWl_wlPosition, loggedGranules_cons L _ st.wlPosition 0, ltckptWriteWl_slot L st ha,
    Nat.mul_zero, Nat.add_zero, loggedGranules_self]

/-- What the call inserted for a store logs. -/
theorem hookGranules_instrumentStore (s : StoreInst) :
    hookGranules L st (instrumentStore s) = [granule s.ptr] :=
  ltckptStoreHook_logged L st s.ptr_lt

/-! ### Ranges -/

/-- Appending entries leaves every byte below the end of the log as it was. -/
theorem foldl_writeWl_mem_of_lt (as : List ℕ) {x : ℕ} (hx : x < L.wlData + st.wlPosition) :
    (as.foldl (ltckptWriteWl L) st).mem x = st.mem x := by
  induction as generalizing st with
  | nil => rfl
  | cons a as ih =>
    rw [List.foldl_cons, ih _ (by rw [ltckptWriteWl_wlPosition]; omega),
      ltckptWriteWl_mem_of_lt L st a hx]

/-- The entries of several calls of `ltckpt_write_wl`. -/
theorem foldl_writeWl_logged (as : List ℕ) (has : ∀ a ∈ as, a < 2 ^ 64) :
    (as.foldl (ltckptWriteWl L) st).wlPosition = st.wlPosition + 16 * as.length ∧
      loggedGranules L (as.foldl (ltckptWriteWl L) st).mem st.wlPosition
        (st.wlPosition + 16 * as.length) = as.map granule := by
  induction as generalizing st with
  | nil => exact ⟨rfl, loggedGranules_self L st.mem st.wlPosition⟩
  | cons a as ih =>
    obtain ⟨ha, has⟩ := List.forall_mem_cons.mp has
    obtain ⟨hpos, hlog⟩ := ih (ltckptWriteWl L st a) has
    rw [ltckptWriteWl_wlPosition] at hpos hlog
    rw [List.foldl_cons, List.length_cons]
    refine ⟨by omega, ?_⟩
    -- the first slot is not touched by what is appended behind it
    have hslot : readLE (as.foldl (ltckptWriteWl L) (ltckptWriteWl L st a)).mem
        (L.wlData + st.wlPosition) 8 = granule a := by
      rw [← ltckptWriteWl_slot L st ha, readLE, readLE,
        read_congr fun i hi => foldl_writeWl_mem_of_lt L _ as ?_]
      rw [ltckptWriteWl_wlPosition]
      omega
    rw [loggedGranules_cons, hslot, hlog, List.map_cons]

/-- **The loop of the memcpy hook** is one call of `ltckpt_write_wl` for every eight bytes it walks
    over, as long as `reg` stays in the address space. -/
theorem memcpyHookLoop_eq {last : ℕ} (n reg : ℕ)
    (hend : reg + 8 * ((last - reg + 7) / 8) < 2 ^ 64) (hn : (last - reg + 7) / 8 ≤ n) :
    memcpyHookLoop L n st reg last =
      ((List.range ((last - reg + 7) / 8)).map fun j => reg + 8 * j).foldl (ltckptWriteWl L)
        st := by
  induction n generalizing st reg with
  | zero =>
    have hnone : (last - reg + 7) / 8 = 0 := by omega
    rw [hnone]
    rfl
  | succ n ih =>
    rw [memcpyHookLoop]
    by_cases hreg : reg < last
    · have hnext : ulong (reg + writelogGranularity) = reg + 8 := ulong_of_lt (by
        rw [writelogGranularity_eq]
        omega)
      have hcount : (last - reg + 7) / 8 = (last - (reg + 8) + 7) / 8 + 1 := by omega
      rw [if_pos hreg, hnext, ih _ _ (by omega) (by omega), hcount, List.range_succ_eq_map,
        List.map_cons, List.map_map, List.foldl_cons]
      refine congrArg _ (List.map_congr_left fun j _ => ?_)
      show reg + 8 + 8 * j = reg + 8 * (j + 1)
      omega
    · have hnone : (last - reg + 7) / 8 = 0 := by omega
      rw [if_neg hreg, hnone]
      rfl

section Hook

variable {a n : ℕ} (hlast : a + n < 2 ^ 64) (hend : a - a % 4 + 8 * ((n + a % 4 + 7) / 8) < 2 ^ 64)
include hlast hend

/-- The memcpy hook on a range for which `reg` stays in the address space. -/
theorem ltckptMemcpyHook_eq : ltckptMemcpyHook L st a n =
    ((List.range ((n + a % 4 + 7) / 8)).map fun j => a - a % 4 + 8 * j).foldl
      (ltckptWriteWl L) st := by
  have hcount : (a + n - (a - a % 4) + 7) / 8 = (n + a % 4 + 7) / 8 := by omega
  simp only [ltckptMemcpyHook, ulong_of_lt hlast]
  rw [memcpyHookLoop_eq L st _ _ (by omega) (by omega), hcount]

/-- **The memcpy hook** on such a range: how far the log grows, and the granules that stand in it
    afterwards. -/
theorem ltckptMemcpyHook_spec :
    (ltckptMemcpyHook L st a n).wlPosition = st.wlPosition + 16 * ((n + a % 4 + 7) / 8) ∧
      hookGranules L st (.memcpyHook a n) =
        (List.range ((n + a % 4 + 7) / 8)).map fun j => granule (a - a % 4 + 8 * j) := by
  obtain ⟨hpos, hlog⟩ := foldl_writeWl_logged L st
    ((List.range ((n + a % 4 + 7) / 8)).map fun j => a - a % 4 + 8 * j) (by simp; omega)
  rw [← ltckptMemcpyHook_eq L st hlast hend, List.length_map, List.length_range] at hpos hlog
  refine ⟨hpos, ?_⟩
  show loggedGranules L (ltckptMemcpyHook L st a n).mem _ (ltckptMemcpyHook L st a n).wlPosition = _
  rw [hpos, hlog, List.map_map]
  rfl

end Hook

/-- What the memcpy hook logs for a range that does not reach the end of the address space. -/
theorem ltckptMemcpyHook_logged {a n : ℕ} (h : a + n + 8 ≤ 2 ^ 64) :
    hookGranules L st (.memcpyHook a n) =
      (List.range ((n + a % 4 + 7) / 8)).map fun j => granule (a - a % 4 + 8 * j) :=
  (ltckptMemcpyHook_spec L st (by omega) (by omega)).2

/-- The end of the last granule that the memcpy hook logs for the range of `n` bytes at `a`. -/
def rangeEnd (a n : ℕ) : ℕ := granule (a - a % 4) + 8 * ((n + a % 4 + 7) / 8)

/-- The granules from the start of the range on reach up to `rangeEnd`. -/
theorem covers_rangeEnd {a n x w : ℕ} (hlo : granule a ≤ x) (hhi : x + w ≤ rangeEnd a n) :
    Covers ((List.range ((n + a % 4 + 7) / 8)).map fun j => granule (a - a % 4 + 8 * j)) x w := by
  intro y hy hy'
  have hg : ∀ b, granule b = b - b % 8 := fun _ => rfl
  rw [rangeEnd, hg] at hhi
  rw [hg] at hlo
  refine ⟨granule (a - a % 4 + 8 * ((y - granule (a - a % 4)) / 8)), List.mem_map_of_mem
    (List.mem_range.mpr ?_), ?_, ?_⟩
  · rw [hg]
    omega
  · rw [hg, hg]
    omega
  · rw [hg, hg, writelogGranularity_eq]
    omega

/-- The memcpy hook logs everything from the start of the range to `rangeEnd`. -/
theorem covers_memcpyHook {a n x w : ℕ} (h : a + n + 8 ≤ 2 ^ 64) (hlo : granule a ≤ x)
    (hhi : x + w ≤ rangeEnd a n) : Covers (hookGranules L st (.memcpyHook a n)) x w := by
  rw [ltckptMemcpyHook_logged L st h]
  exact covers_rangeEnd hlo hhi

/-! ### Coverage by one granule -/

/-- One granule covers a range exactly when the range ends at or before it does. -/
theorem covers_granule_iff (a n : ℕ) : Covers [granule a] a n ↔ a % 8 + n ≤ 8 := by
  have hg : granule a = a - a % 8 := rfl
  constructor
  · intro h
    by_contra hn
    -- the first byte past the granule is one the store writes
    obtain ⟨g, hmem, -, hlt⟩ := h (granule a + 8) (by omega) (by omega)
    rw [List.mem_singleton] at hmem
    rw [hmem, writelogGranularity_eq] at hlt
    omega
  · intro h x hlo hhi
    refine ⟨granule a, List.mem_singleton_self _, ?_, ?_⟩
    · omega
    · rw [writelogGranularity_eq]
      omega

/-- **A store is logged in full exactly when it stays in one granule.**  `instrumentStore`
    hands over the pointer and not the size, and the runtime logs one granule for it. -/
theorem storeLogged_iff (L : Layout) (st : WlState) (s : StoreInst) :
    StoreLogged L st s ↔ s.ptr % 8 + s.width ≤ 8 := by
  rw [StoreLogged, hookGranules_instrumentStore]
  exact covers_granule_iff s.ptr s.width

/-- A 16-byte vector store loses its upper half even at an aligned address, and an 8-byte
    store to a packed field at offset 4 its upper four bytes. -/
theorem wide_and_packed_store_not_logged :
    (∀ L st, ¬ StoreLogged L st ⟨0x10000, 16, by decide⟩) ∧
      ∀ L st, ¬ StoreLogged L st ⟨0x10004, 8, by decide⟩ := by
  have hnot : ∀ (L : Layout) (st : WlState) (s : StoreInst), 8 < s.ptr % 8 + s.width →
      ¬ StoreLogged L st s := by
    intro L st s hs hlog
    rw [StoreLogged, hookGranules_instrumentStore, covers_granule_iff] at hlog
    omega
  exact ⟨fun L st => hnot L st _ (by decide), fun L st => hnot L st _ (by decide)⟩

end Firestarter.Ltckpt
