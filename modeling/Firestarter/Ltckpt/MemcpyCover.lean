import Firestarter.Ltckpt.Rollback
import Firestarter.Ltckpt.StoreCover

namespace Firestarter.Ltckpt

open FlatMem

/-!
# The range of the memcpy hook

`ltckpt_memcpy_hook_undolog` starts at `addr & ~0x3`, moves on by 8 bytes, and
`ltckpt_write_wl` aligns every address again to 8.

* `memcpyHookLoop_wraps`: near the end of the address space the loop does not end.
* `WindowInv.memcpyHook`, `WindowInv.copy`: the hook and the copy keep the window invariant.
* `memcpyHook_covers_iff`: for which ranges the hook logs every granule it has to.
-/

variable {L : Layout}

/-! ### How the loop ends -/

/-- The hook returns: its loop comes to an end, so that more iterations change nothing, and all
    its entries lie in the log area, in front of the guard page. -/
structure MemcpyHookReturns (L : Layout) (st : WlState) (a n : ℕ) : Prop where
  ends : ∀ m, ulong (a + n) - (a - a % 4) ≤ m →
    memcpyHookLoop L m st (a - a % 4) (ulong (a + n)) = ltckptMemcpyHook L st a n
  fits : (ltckptMemcpyHook L st a n).wlPosition ≤ writelogBytes

/-- A loop whose pointer never reaches the end appends an entry in every iteration. -/
theorem memcpyHookLoop_wraps (L : Layout) {last : ℕ} (m : ℕ) (st : WlState) (reg : ℕ)
    (hreg : reg < 2 ^ 64) (hnever : ∀ k, ulong (reg + 8 * k) < last) :
    (memcpyHookLoop L m st reg last).wlPosition = st.wlPosition + 16 * m := by
  induction m generalizing st reg with
  | zero => rfl
  | succ m ih =>
    have hlt : reg < last := by
      have h0 := hnever 0
      rwa [Nat.mul_zero, Nat.add_zero, ulong_of_lt hreg] at h0
    rw [memcpyHookLoop, if_pos hlt, writelogGranularity_eq]
    -- the pointer after the wrap runs through the same addresses
    have hnever' : ∀ k, ulong (ulong (reg + 8) + 8 * k) < last := by
      intro k
      have h := hnever (k + 1)
      simp only [ulong] at h ⊢
      omega
    rw [ih _ _ (ulong_lt _) hnever', ltckptWriteWl_wlPosition]
    omega

/-- **When the loop ends**: `reg` stays in the address space, and the log has room. -/
theorem memcpyHookReturns_iff (L : Layout) (st : WlState) {a n : ℕ} (h : a + n < 2 ^ 64) :
    MemcpyHookReturns L st a n ↔ a - a % 4 + 8 * ((n + a % 4 + 7) / 8) < 2 ^ 64 ∧
      st.wlPosition + 16 * ((n + a % 4 + 7) / 8) ≤ writelogBytes := by
  have hhook : ltckptMemcpyHook L st a n =
      memcpyHookLoop L (a + n - (a - a % 4)) st (a - a % 4) (a + n) := by
    simp only [ltckptMemcpyHook, ulong_of_lt h]
  constructor
  · intro hret
    have hend : a - a % 4 + 8 * ((n + a % 4 + 7) / 8) < 2 ^ 64 := by
      by_contra hwrap
      have hnever : ∀ k, ulong (a - a % 4 + 8 * k) < a + n := by
        intro k
        simp only [ulong]
        omega
      -- with one more iteration the log is longer by an entry
      have hsame := congrArg WlState.wlPosition (hret.ends (a + n - (a - a % 4) + 1) (by
        rw [ulong_of_lt h]
        omega))
      rw [hhook, ulong_of_lt h, memcpyHookLoop_wraps L _ st _ (by omega) hnever,
        memcpyHookLoop_wraps L _ st _ (by omega) hnever] at hsame
      omega
    have hfits := hret.fits
    rw [(ltckptMemcpyHook_spec L st h hend).1] at hfits
    exact ⟨hend, hfits⟩
  · rintro ⟨hend, hroom⟩
    refine ⟨fun m hm => ?_, by rwa [(ltckptMemcpyHook_spec L st h hend).1]⟩
    rw [ulong_of_lt h] at hm ⊢
    rw [hhook, memcpyHookLoop_eq L st m _ (by omega) (by omega),
      memcpyHookLoop_eq L st _ _ (by omega) (by omega)]

/-! ### Which ranges are covered -/

/-- The granules that the loop logs cover the range exactly when they reach its end. -/
theorem covers_range_iff (a n : ℕ) :
    Covers ((List.range ((n + a % 4 + 7) / 8)).map fun j => granule (a - a % 4 + 8 * j)) a n ↔
      n = 0 ∨ a + n ≤ rangeEnd a n := by
  have hg : ∀ b, granule b = b - b % 8 := fun _ => rfl
  constructor
  · intro h
    by_cases hn : n = 0
    · exact Or.inl hn
    · -- the granule of the last byte is one of those that the loop logs
      obtain ⟨g, hmem, -, hlt⟩ := h (a + n - 1) (by omega) (by omega)
      obtain ⟨j, hj, rfl⟩ := List.mem_map.mp hmem
      rw [List.mem_range] at hj
      rw [hg, writelogGranularity_eq] at hlt
      rw [rangeEnd, hg]
      exact Or.inr (by omega)
  · rintro (rfl | hend)
    · intro x hlo hhi
      omega
    · exact covers_rangeEnd (granule_spec a).1 hend

/-- A range the hook gets right: it starts in the lower half of a granule, or it ends in the upper
    half of one (or is empty); and it keeps clear of the end of the address space. -/
def MemcpySafe (a n : ℕ) : Prop :=
  (a % 8 < 4 ∧ a + n + 8 ≤ 2 ^ 64) ∨
    (4 ≤ a % 8 ∧ a + n + 4 ≤ 2 ^ 64 ∧ (n = 0 ∨ (a + n) % 8 = 0 ∨ 4 < (a + n) % 8))

instance (a n : ℕ) : Decidable (MemcpySafe a n) := inferInstanceAs (Decidable (_ ∨ _))

/-- A range is safe exactly when `reg` stays in the address space and reaches its end. -/
theorem memcpySafe_iff {a n : ℕ} (h : a + n < 2 ^ 64) :
    MemcpySafe a n ↔ a - a % 4 + 8 * ((n + a % 4 + 7) / 8) < 2 ^ 64 ∧
      (n = 0 ∨ a + n ≤ rangeEnd a n) := by
  have hg : ∀ b, granule b = b - b % 8 := fun _ => rfl
  rw [MemcpySafe, rangeEnd, hg]
  constructor
  · rintro (⟨hlow, hspace⟩ | ⟨hhigh, hspace, hend⟩)
    · exact ⟨by omega, by omega⟩
    · exact ⟨by omega, by omega⟩
  · rintro ⟨hspace, hend⟩
    by_cases hlow : a % 8 < 4
    · exact Or.inl ⟨hlow, by omega⟩
    · exact Or.inr ⟨by omega, by omega, by omega⟩

/-! ### The log behind the hook -/

/-- The hook call for one region: an entry, and no write. -/
def touch (a : ℕ) (h : a < 2 ^ 64) : Store where
  addr := a
  dst := granule a
  bytes := []
  addr_lt := h
  granule_le := le_rfl
  le_granule := by simp

theorem hookedStore_touch (L : Layout) (st : WlState) (a : ℕ) (h : a < 2 ^ 64) :
    hookedStore L st (touch a h) = ltckptWriteWl L st a := by
  have hnone : ∀ m : Mem, write m (granule a) [] = m := by
    intro m
    funext x
    exact write_of_outside _ _ _ (by simp only [List.length_nil]; omega)
  simp only [hookedStore, ltckptStoreHook, touch, hnone]

section Hook

variable {m₀ : Mem} {st : WlState} {log : List Entry} (h : WindowInv L m₀ st log)
include h

/-- Calls of `ltckpt_write_wl` keep the window invariant. -/
theorem WindowInv.foldl_writeWl (as : List ℕ)
    (has : ∀ a ∈ as, a < 2 ^ 64 ∧ Restorable L (granule a))
    (hroom : 16 * (log.length + as.length) ≤ writelogBytes) :
    ∃ log', log'.map Entry.addr = log.map Entry.addr ++ as.map granule ∧
      WindowInv L m₀ (as.foldl (ltckptWriteWl L) st) log' := by
  induction as generalizing st log with
  | nil => exact ⟨log, by simp, h⟩
  | cons a as ih =>
    obtain ⟨⟨hlt, hok⟩, has⟩ := List.forall_mem_cons.mp has
    rw [List.length_cons] at hroom
    have hinv := h.hookedStore (s := touch a hlt) hok (by omega)
    rw [hookedStore_touch] at hinv
    obtain ⟨log', haddr, hinv⟩ := ih hinv has
      (by simp only [List.length_append, List.length_singleton]; omega)
    refine ⟨log', ?_, hinv⟩
    rw [haddr, List.map_append, List.append_assoc]
    rfl

/-- **The hook keeps the window invariant**; the log grows by the granules it walks over. -/
theorem WindowInv.memcpyHook {a n : ℕ} (hlast : a + n < 2 ^ 64)
    (hend : a - a % 4 + 8 * ((n + a % 4 + 7) / 8) < 2 ^ 64)
    (hok : ∀ j < (n + a % 4 + 7) / 8, Restorable L (granule (a - a % 4 + 8 * j)))
    (hroom : st.wlPosition + 16 * ((n + a % 4 + 7) / 8) ≤ writelogBytes) :
    ∃ log', log'.map Entry.addr = log.map Entry.addr ++
        (List.range ((n + a % 4 + 7) / 8)).map (fun j => granule (a - a % 4 + 8 * j)) ∧
      WindowInv L m₀ (ltckptMemcpyHook L st a n) log' := by
  have hpos := h.represents.position
  rw [ltckptMemcpyHook_eq L st hlast hend]
  obtain ⟨log', haddr, hinv⟩ := h.foldl_writeWl
    ((List.range ((n + a % 4 + 7) / 8)).map fun j => a - a % 4 + 8 * j)
    (by
      simp only [List.mem_map, List.mem_range, forall_exists_index, and_imp]
      rintro _ j hj rfl
      exact ⟨by omega, hok j hj⟩)
    (by rw [List.length_map, List.length_range]; omega)
  exact ⟨log', by rw [haddr, List.map_map]; rfl, hinv⟩

end Hook

/-- **The copy keeps the window invariant** if every byte it writes lies in a logged granule. -/
theorem WindowInv.copy {m₀ : Mem} {st : WlState} {log : List Entry} (h : WindowInv L m₀ st log)
    (a : ℕ) (bs : List UInt8)
    (hlog : ∀ x, a ≤ x → x < a + bs.length → granule x ∈ log.map Entry.addr) :
    WindowInv L m₀ { st with mem := write st.mem a bs } log := by
  refine ⟨h.represents.congr rfl fun x hx => write_of_outside _ _ _ ?_, fun x hx => ?_⟩
  · -- a logged granule lies outside the log area
    by_contra hc
    obtain ⟨e, he, heq⟩ := List.mem_map.mp (hlog x (by omega) (by omega))
    have hapart := (h.represents.ok e he).1.apart_log
    have hg := granule_spec x
    rw [heq] at hapart
    simp only [InLog] at hx
    simp only [Apart] at hapart
    omega
  · rw [← h.undoes x hx]
    by_cases hin : a ≤ x ∧ x < a + bs.length
    · obtain ⟨e, he, heq⟩ := List.mem_map.mp (hlog x hin.1 hin.2)
      exact UndoLog.rollback_of_logged _ _ ⟨e.undo, List.mem_map_of_mem he, heq⟩
    · exact UndoLog.rollback_congr _ (write_of_outside _ _ _ (by omega))

/-- The state behind the hook and the copy it was inserted for. -/
def hookedCopy (L : Layout) (st : WlState) (a : ℕ) (bs : List UInt8) : WlState :=
  let st := ltckptMemcpyHook L st a bs.length
  { st with mem := write st.mem a bs }

/-- **Restored**: in a window that started with `m₀`, if the copy is made after the hook and the
    process then restarts, every byte of the range is as in `m₀`. -/
def RestoresRange (L : Layout) (st : WlState) (a n : ℕ) : Prop :=
  ∀ (F : Frame L) (m₀ : Mem) (log : List Entry) (bs : List UInt8), WindowInv L m₀ st log →
    bs.length = n → (∀ g ∈ log.map Entry.addr, Apart g 8 F.lo F.size) →
    (∀ g ∈ hookGranules L st (.memcpyHook a n), Restorable L g ∧ Apart g 8 F.lo F.size) →
    ∃ r, ltckptRestartHook F true (hookedCopy L st a bs) = .ok r ∧ r.code = 0 ∧
      ∀ x, a ≤ x → x < a + n → r.state.mem x = m₀ x

/-- What the hook covers, a restart puts back. -/
theorem restoresRange_of_covers {st : WlState} {a n : ℕ} (h : a + n < 2 ^ 64)
    (hret : MemcpyHookReturns L st a n)
    (hcov : Covers (hookGranules L st (.memcpyHook a n)) a n) : RestoresRange L st a n := by
  intro F m₀ log bs hinv hlen hF hok
  obtain ⟨hend, hroom⟩ := (memcpyHookReturns_iff L st h).mp hret
  rw [(ltckptMemcpyHook_spec L st h hend).2] at hcov hok
  have hlogged : ∀ j < (n + a % 4 + 7) / 8, granule (a - a % 4 + 8 * j) ∈
      (List.range ((n + a % 4 + 7) / 8)).map fun j => granule (a - a % 4 + 8 * j) :=
    fun j hj => List.mem_map_of_mem (List.mem_range.mpr hj)
  obtain ⟨log', haddr, hhook⟩ := hinv.memcpyHook h hend (fun j hj => (hok _ (hlogged j hj)).1) hroom
  have hmem : ∀ g ∈ (List.range ((n + a % 4 + 7) / 8)).map fun j => granule (a - a % 4 + 8 * j),
      g ∈ log'.map Entry.addr := fun g hg => haddr ▸ List.mem_append_right _ hg
  -- every byte of the range lies in a granule that was logged
  have hbyte : ∀ x, a ≤ x → x < a + n →
      granule x ∈ (List.range ((n + a % 4 + 7) / 8)).map fun j => granule (a - a % 4 + 8 * j) := by
    intro x hlo hhi
    obtain ⟨g, hg, hgx, hxg⟩ := hcov x hlo hhi
    rwa [granule_eq_of_mem (hok g hg).1.aligned hgx hxg]
  have hcopy := hhook.copy a bs fun x hlo hhi => hmem _ (hbyte x hlo (hlen ▸ hhi))
  obtain ⟨r, hr, hcode, -, hrestored⟩ := hcopy.restart F fun g hg => by
    rcases List.mem_append.mp (haddr ▸ hg) with hold | hnew
    · exact hF g hold
    · exact (hok g hnew).2
  refine ⟨r, ?_, hcode, fun x hlo hhi => hrestored x ?_ ?_⟩
  · rw [hookedCopy, hlen]
    exact hr
  · have hapart := (hok _ (hbyte x hlo hhi)).1.apart_log
    have hg := granule_spec x
    simp only [Apart] at hapart
    simp only [InLog]
    omega
  · have hapart := (hok _ (hbyte x hlo hhi)).2
    have hg := granule_spec x
    simp only [Apart] at hapart
    simp only [InFrame]
    omega

/-! ### The range of the hook -/

/-- **The range of the memcpy hook.**  The hook returns with every granule of the range in the log
    exactly when the range is safe and the log has room for its entries; a restart then restores
    every byte of the range. -/
theorem memcpyHook_covers_iff (L : Layout) (st : WlState) (a n : ℕ) (h : a + n < 2 ^ 64) :
    (MemcpyHookReturns L st a n ∧ Covers (hookGranules L st (.memcpyHook a n)) a n ∧
        RestoresRange L st a n) ↔
      MemcpySafe a n ∧ st.wlPosition + 16 * ((n + a % 4 + 7) / 8) ≤ writelogBytes := by
  constructor
  · rintro ⟨hret, hcov, -⟩
    obtain ⟨hend, hroom⟩ := (memcpyHookReturns_iff L st h).mp hret
    rw [(ltckptMemcpyHook_spec L st h hend).2] at hcov
    exact ⟨(memcpySafe_iff h).mpr ⟨hend, (covers_range_iff a n).mp hcov⟩, hroom⟩
  · rintro ⟨hsafe, hroom⟩
    obtain ⟨hend, hreach⟩ := (memcpySafe_iff h).mp hsafe
    have hret := (memcpyHookReturns_iff L st h).mpr ⟨hend, hroom⟩
    have hcov : Covers (hookGranules L st (.memcpyHook a n)) a n := by
      rw [(ltckptMemcpyHook_spec L st h hend).2]
      exact (covers_range_iff a n).mpr hreach
    exact ⟨hret, hcov, restoresRange_of_covers h hret hcov⟩

/-- A range from the lower half of a granule on. -/
theorem memcpyHook_covers_iff_aligned :
    MemcpyHookReturns sampleLayout ⟨fun _ => 0, 0, ⟨1, 0, 0, 0⟩⟩ 0x4001 21 ∧
      Covers (hookGranules sampleLayout ⟨fun _ => 0, 0, ⟨1, 0, 0, 0⟩⟩ (.memcpyHook 0x4001 21))
        0x4001 21 ∧
      RestoresRange sampleLayout ⟨fun _ => 0, 0, ⟨1, 0, 0, 0⟩⟩ 0x4001 21 :=
  (memcpyHook_covers_iff sampleLayout ⟨fun _ => 0, 0, ⟨1, 0, 0, 0⟩⟩ 0x4001 21 (by decide)).mpr
    (by decide)

/-- The eight bytes at `0x4004` lie in two granules.  The loop stops after the first, and a
    restart leaves the upper four bytes as the copy wrote them. -/
theorem memcpy_upper_half_lost :
    ¬ Covers (hookGranules sampleLayout ⟨fun _ => 0, 0, ⟨1, 0, 0, 0⟩⟩ (.memcpyHook 0x4004 8))
        0x4004 8 ∧
      (ltckptRestartHook sampleFrame true (hookedCopy sampleLayout ⟨fun _ => 0, 0, ⟨1, 0, 0, 0⟩⟩
          0x4004 [1, 2, 3, 4, 5, 6, 7, 8])).map (fun r => read r.state.mem 0x4004 8) =
        .ok [0, 0, 0, 0, 5, 6, 7, 8] := by
  refine ⟨fun hcov => ?_, by decide +kernel⟩
  rw [ltckptMemcpyHook_logged _ _ (by decide)] at hcov
  exact absurd ((covers_range_iff 0x4004 8).mp hcov) (by decide)

end Firestarter.Ltckpt
