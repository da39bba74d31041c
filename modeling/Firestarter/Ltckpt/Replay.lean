import Mathlib.Data.List.Induction
import Firestarter.Lib.UndoLog
import Firestarter.Ltckpt.Writelog

namespace Firestarter.Ltckpt

open FlatMem

/-!
# The reverse walk, entry by entry

What the restart hook does to a memory that holds a log, in the terms of the abstract undo
log of `UndoLog`: the blocks are the 8-byte granules.

* `LogAt` — the bytes of the log area spell a list of entries;
* `logged_passes_restore_test` — what the logger accepts passes the test of the walk;
* `replayEntry_spec` — one iteration of the walk, for an entry that may be restored;
* `replayLoop_rollback` — the whole walk puts back every entry, newest first, and outside the
  hook's frame computes `UndoLog.rollback`;
* `replayLoop_locals` — the hook's own locals, when no entry touches its frame;
* `ltckptRestartHook_spec` — the restart hook as a whole.
-/

/-! ### The log in memory -/

/-- One log entry: the address slot and the region copied from there. -/
structure Entry where
  addr : ℕ
  region : List UInt8

/-- The abstract undo-log entry: a granule and its content. -/
def Entry.undo (e : Entry) : ℕ × Mem := (e.addr, fun a => e.region.getD (a - e.addr) 0)

/-- `addr` is a granule that `ltckpt_can_restore` lets through and that the walk writes:
    not `NULL`, inside the address space, apart from the log area and the two variables. -/
structure Restorable (L : Layout) (addr : ℕ) : Prop where
  aligned : addr % 8 = 0
  ne_zero : addr ≠ 0
  lt : addr < 2 ^ 64
  apart_log : Apart addr 8 L.wlData writelogBytes
  apart_wlData : Apart addr 8 L.wlDataVar 8
  apart_wlPosition : Apart addr 8 L.wlPositionVar 8

/-- A well-formed entry: a restorable granule with eight bytes of content. -/
structure Entry.Ok (L : Layout) (e : Entry) : Prop where
  restorable : Restorable L e.addr
  length_eq : e.region.length = 8

/-- The log area spells `log`, oldest entry first. -/
def LogAt (L : Layout) (m : Mem) (log : List Entry) : Prop :=
  ∀ k e, log[k]? = some e →
    readLE m (L.wlData + 16 * k) 8 = e.addr ∧ read m (L.wlData + (16 * k + 8)) 8 = e.region

/-- A byte of the log area. -/
def InLog (L : Layout) (x : ℕ) : Prop := L.wlData ≤ x ∧ x < L.wlData + writelogBytes

/-- A byte of the restart hook's frame. -/
def InFrame {L : Layout} (F : Frame L) (x : ℕ) : Prop := F.lo ≤ x ∧ x < F.lo + F.size

variable {L : Layout}

variable {log : List Entry} {e : Entry} {r : Replay} {st : WlState}

/-- The log depends on the bytes of the log area only. -/
theorem LogAt.congr {m m' : Mem} (h : LogAt L m log) (hfits : 16 * log.length ≤ writelogBytes)
    (hm : ∀ x, InLog L x → m' x = m x) : LogAt L m' log := by
  intro k e hk
  have hlt : k < log.length := (List.getElem?_eq_some_iff.mp hk).1
  have hword : read m' (L.wlData + 16 * k) 8 = read m (L.wlData + 16 * k) 8 :=
    read_congr fun i hi => hm _ ⟨by omega, by omega⟩
  have hregion : read m' (L.wlData + (16 * k + 8)) 8 = read m (L.wlData + (16 * k + 8)) 8 :=
    read_congr fun i hi => hm _ ⟨by omega, by omega⟩
  rw [readLE, hword, hregion]
  exact h k e hk

/-- A prefix of a log is in memory as well. -/
theorem LogAt.of_append {m : Mem} (h : LogAt L m (log ++ [e])) : LogAt L m log := by
  intro k e' hk
  refine h k e' ?_
  rw [List.getElem?_append_left (List.getElem?_eq_some_iff.mp hk).1]
  exact hk

/-- The newest entry of a log in memory. -/
theorem LogAt.last {m : Mem} (h : LogAt L m (log ++ [e])) :
    readLE m (L.wlData + 16 * log.length) 8 = e.addr ∧
      read m (L.wlData + (16 * log.length + 8)) 8 = e.region :=
  h log.length e (by simp)

/-- Extend a log by the entry that stands behind it. -/
theorem LogAt.concat {m : Mem} (h : LogAt L m log)
    (haddr : readLE m (L.wlData + 16 * log.length) 8 = e.addr)
    (hregion : read m (L.wlData + (16 * log.length + 8)) 8 = e.region) :
    LogAt L m (log ++ [e]) := by
  intro k e' hk
  rw [List.getElem?_append] at hk
  split at hk
  · exact h k e' hk
  · rename_i hge
    obtain ⟨hk0, rfl⟩ : k - log.length = 0 ∧ e = e' := by
      cases hd : k - log.length with
      | zero => rw [hd] at hk; exact ⟨rfl, by simpa using hk⟩
      | succ j => rw [hd] at hk; simp at hk
    obtain rfl : k = log.length := by omega
    exact ⟨haddr, hregion⟩

/-! ### The restore test -/

/-- Ranges that are apart and do not wrap do not overlap in the sense of the code. -/
theorem ltckptOverlaps_of_apart {p q n : ℕ} (hn : 0 < n) (hq : q + n < 2 ^ 64)
    (h : Apart p 8 q n) : ltckptOverlaps p 8 q n = false := by
  have hp8 : ulong (p + 8) ≤ p + 8 := Nat.mod_le _ _
  simp only [ltckptOverlaps, ulong_of_lt hq, decide_eq_false_iff_not]
  unfold Apart at h
  omega

/-- **`ltckpt_overlaps` is overlap**, for ranges that are not empty and do not wrap. -/
theorem ltckptOverlaps_iff {p1 s1 p2 s2 : ℕ} (h1 : 0 < s1) (h2 : 0 < s2) (hfits1 : p1 + s1 < 2 ^ 64)
    (hfits2 : p2 + s2 < 2 ^ 64) :
    ltckptOverlaps p1 s1 p2 s2 = true ↔ ∃ b, (p1 ≤ b ∧ b < p1 + s1) ∧ (p2 ≤ b ∧ b < p2 + s2) := by
  simp only [ltckptOverlaps, ulong_of_lt hfits1, ulong_of_lt hfits2, decide_eq_true_eq]
  constructor
  · -- the greater of the two starts is in both ranges
    rintro (⟨hle, hlt⟩ | ⟨hle, hlt⟩)
    · exact ⟨p2, ⟨hle, hlt⟩, le_rfl, by omega⟩
    · exact ⟨p1, ⟨le_rfl, by omega⟩, hle, hlt⟩
  · rintro ⟨b, ⟨hlo1, hhi1⟩, hlo2, hhi2⟩
    omega

/-- The test of `ltckpt_write_wl` that leads to `lt_panic`. -/
def WriteWlPanics (L : Layout) (addr : ℕ) : Prop :=
  L.wlData ≤ granule addr ∧ granule addr < ulong (L.wlData + writelogBytes)

instance (L : Layout) (addr : ℕ) : Decidable (WriteWlPanics L addr) :=
  inferInstanceAs (Decidable (_ ∧ _))

/-- The address that `ltckpt_write_wl` puts into the log is the granule of its argument. -/
theorem readLE_ltckptWriteWl (st : WlState) {addr : ℕ} (hlt : granule addr < 2 ^ 64) :
    readLE (ltckptWriteWl L st addr).mem (L.wlData + st.wlPosition) 8 = granule addr := by
  rw [ltckptWriteWl_eq]
  refine (readLE_write_of_apart _ (.inr ?_)).trans (readLE_writeLE _ _ hlt)
  omega

/-- A granule that does not start in an aligned log area has no byte in it. -/
theorem apart_log_of_not_panics (hpage : L.wlData % 4096 = 0) {addr : ℕ}
    (h : ¬ WriteWlPanics L addr) : Apart (granule addr) 8 L.wlData writelogBytes := by
  have haligned := (granule_spec addr).2.2
  unfold WriteWlPanics at h
  rw [ulong_of_lt L.wlData_fits] at h
  unfold Apart
  omega

/-- **What the logger accepts the restorer accepts.**  With a page-aligned log area, an address
    that `ltckpt_write_wl` logs without a panic passes the log-area test of `ltckpt_can_restore`;
    and the test for overlap is exact. -/
theorem logged_passes_restore_test (hpage : L.wlData % 4096 = 0) :
    (∀ st addr, addr < 2 ^ 64 → ¬ WriteWlPanics L addr →
      ltckptOverlaps (readLE (ltckptWriteWl L st addr).mem (L.wlData + st.wlPosition) sizeofPtr)
        writelogGranularity L.wlData writelogBytes = false) ∧
    ∀ p1 s1 p2 s2, 0 < s1 → 0 < s2 → p1 + s1 < 2 ^ 64 → p2 + s2 < 2 ^ 64 →
      (ltckptOverlaps p1 s1 p2 s2 = true ↔
        ∃ b, (p1 ≤ b ∧ b < p1 + s1) ∧ (p2 ≤ b ∧ b < p2 + s2)) := by
  refine ⟨fun st addr hlt hok => ?_, fun p1 s1 p2 s2 h1 h2 hfits1 hfits2 =>
    ltckptOverlaps_iff h1 h2 hfits1 hfits2⟩
  have hgranule : granule addr < 2 ^ 64 := lt_of_le_of_lt (granule_spec addr).1 hlt
  rw [sizeofPtr_eq, readLE_ltckptWriteWl st hgranule]
  exact ltckptOverlaps_of_apart (by decide) L.wlData_fits (apart_log_of_not_panics hpage hok)

/-- A page-aligned log area. -/
def pageLayout : Layout where
  wlData := 0x7000
  wlDataVar := 0x3010
  wlPositionVar := 0x3018
  wlData_pos := by decide
  wlData_fits := by decide
  wlDataVar_fits := by decide
  wlPositionVar_fits := by decide

/-- The byte below the area. -/
theorem logged_passes_restore_test_below :
    ltckptOverlaps (readLE (ltckptWriteWl pageLayout ⟨fun _ => 0, 0, ⟨1, 0, 0, 0⟩⟩ 0x6fff).mem
      (pageLayout.wlData + 0) sizeofPtr) writelogGranularity pageLayout.wlData writelogBytes =
        false :=
  (logged_passes_restore_test (L := pageLayout) rfl).1 ⟨fun _ => 0, 0, ⟨1, 0, 0, 0⟩⟩ 0x6fff
    (by decide) (by decide)

/-- **A restorable granule passes `ltckpt_can_restore`.** -/
theorem ltckptCanRestore_of_restorable {a : ℕ} (h : Restorable L a) :
    ltckptCanRestore L a = true := by
  have hlog := ltckptOverlaps_of_apart (by decide) L.wlData_fits h.apart_log
  have hdata := ltckptOverlaps_of_apart (by decide) L.wlDataVar_fits h.apart_wlData
  have hpos := ltckptOverlaps_of_apart (by decide) L.wlPositionVar_fits h.apart_wlPosition
  simp only [sizeofPtr_eq] at hdata hpos
  simp [ltckptCanRestore, hlog, hdata, hpos]

/-! ### Locals -/

section Locals

variable (F : Frame L) (m : Mem)

variable {l : Local} {v x a : ℕ}

theorem readLocal_writeLocal (hv : v < 2 ^ 64) : readLocal F (writeLocal F m l v) l = v :=
  readLE_writeLE m _ (by simpa using hv)

theorem readLocal_writeLocal_of_ne {l' : Local} (h : l ≠ l') :
    readLocal F (writeLocal F m l v) l' = readLocal F m l' :=
  readLE_writeLE_of_apart m (F.slot_apart l l' h)

/-- An assignment to a local stays inside the frame. -/
theorem writeLocal_of_outside (hx : ¬ InFrame F x) : writeLocal F m l v x = m x := by
  have hslot := F.slot_mem l
  simp only [InFrame, sizeofPtr_eq] at hx hslot
  exact writeLE_of_outside m _ _ _ (by simp only [sizeofPtr_eq]; omega)

/-- The log area lies outside the frame. -/
theorem not_inFrame_of_inLog (hx : InLog L x) : ¬ InFrame F x := by
  have h := F.apart_log
  simp only [Apart, InLog, InFrame] at *
  omega

/-- `memcpy` of a pointer into a local. -/
theorem readLocal_write_slot : readLocal F (write m (F.slot l) (read m a 8)) l = readLE m a 8 := by
  have h := read_write m (F.slot l) (read m a 8)
  rw [read_length] at h
  rw [readLocal, readLE, sizeofPtr_eq, h, readLE]

theorem readLocal_write_slot_of_ne {l' : Local} (h : l ≠ l') :
    readLocal F (write m (F.slot l) (read m a 8)) l' = readLocal F m l' :=
  readLE_write_of_apart m (by rw [read_length]; exact F.slot_apart l l' h)

theorem write_slot_of_outside (hx : ¬ InFrame F x) : write m (F.slot l) (read m a 8) x = m x := by
  have hslot := F.slot_mem l
  simp only [InFrame, sizeofPtr_eq] at hx hslot
  exact write_of_outside m _ _ (by rw [read_length]; omega)

end Locals

/-! ### One iteration -/

/-- The memory an iteration has when it decides whether to put the region back: `i`, `addr`,
    `region` and possibly `stack_entries` have been assigned. -/
def fetchEntry (F : Frame L) (r : Replay) : Mem :=
  let m := writeLocal F r.mem .i (ulong (readLocal F r.mem .i + 1))
  let m := write m (F.slot .addr) (read m (L.wlData + (r.wlPosition - 16)) 8)
  let m := writeLocal F m .region (L.wlData + (r.wlPosition - 16 + 8))
  if readLocal F m .addr > readLocal F m .datamax then
    writeLocal F m .stackEntries (ulong (readLocal F m .stackEntries + 1))
  else m

/-- Fetching an entry writes the frame only. -/
theorem fetchEntry_of_outside (F : Frame L) (r : Replay) {x : ℕ} (hx : ¬ InFrame F x) :
    fetchEntry F r x = r.mem x := by
  simp only [fetchEntry]
  split <;> simp only [writeLocal_of_outside F _ hx, write_slot_of_outside F _ hx]

theorem readLocal_fetchEntry_i (F : Frame L) (r : Replay) :
    readLocal F (fetchEntry F r) .i = ulong (readLocal F r.mem .i + 1) := by
  simp only [fetchEntry]
  split <;> simp only [readLocal_writeLocal_of_ne, readLocal_write_slot_of_ne,
    readLocal_writeLocal F _ (ulong_lt _), ne_eq, reduceCtorEq, not_false_eq_true]

theorem readLocal_fetchEntry_numEntries (F : Frame L) (r : Replay) :
    readLocal F (fetchEntry F r) .numEntries = readLocal F r.mem .numEntries := by
  simp only [fetchEntry]
  split <;> simp only [readLocal_writeLocal_of_ne, readLocal_write_slot_of_ne,
    ne_eq, reduceCtorEq, not_false_eq_true]

/-- Counting the iteration leaves the entry in the log as it is. -/
theorem readLE_word_of_inLog (F : Frame L) (r : Replay) (hpos : 16 ≤ r.wlPosition)
    (hfits : r.wlPosition ≤ writelogBytes) :
    readLE (writeLocal F r.mem .i (ulong (readLocal F r.mem .i + 1)))
      (L.wlData + (r.wlPosition - 16)) 8 = readLE r.mem (L.wlData + (r.wlPosition - 16)) 8 := by
  rw [readLE, readLE]
  congr 1
  refine read_congr fun i hi => writeLocal_of_outside F _ (not_inFrame_of_inLog F ?_)
  exact ⟨by omega, by omega⟩

/-- The address fetched is the one in the log, which no local overlaps. -/
theorem readLocal_fetchEntry_addr (F : Frame L) (r : Replay)
    (hpos : 16 ≤ r.wlPosition) (hfits : r.wlPosition ≤ writelogBytes) :
    readLocal F (fetchEntry F r) .addr = readLE r.mem (L.wlData + (r.wlPosition - 16)) 8 := by
  have hlog := readLE_word_of_inLog F r hpos hfits
  simp only [fetchEntry]
  split <;> simp only [readLocal_writeLocal_of_ne, readLocal_write_slot, hlog,
    ne_eq, reduceCtorEq, not_false_eq_true]

theorem readLocal_fetchEntry_region (F : Frame L) (r : Replay)
    (hpos : 16 ≤ r.wlPosition) (hfits : r.wlPosition ≤ writelogBytes) :
    readLocal F (fetchEntry F r) .region = L.wlData + (r.wlPosition - 16 + 8) := by
  have hlt : L.wlData + (r.wlPosition - 16 + 8) < 2 ^ 64 := by
    have := L.wlData_fits
    omega
  simp only [fetchEntry]
  split <;> simp only [readLocal_writeLocal_of_ne, readLocal_writeLocal F _ hlt,
    ne_eq, reduceCtorEq, not_false_eq_true]

/-- **One iteration.** With `LTCKPT_LIBCALL_INTERVALS`, an entry that may be restored is
    copied back whatever the frame holds. -/
theorem replayEntry_spec (F : Frame L) {n : ℕ} (hpos : r.wlPosition = 16 * (n + 1))
    (hfits : 16 * (n + 1) ≤ writelogBytes) (haddr : readLE r.mem (L.wlData + 16 * n) 8 = e.addr)
    (hregion : read r.mem (L.wlData + (16 * n + 8)) 8 = e.region) (hok : Restorable L e.addr) :
    replayEntry F true r =
      ⟨write (fetchEntry F r) e.addr e.region, 16 * n, r.restored ++ [e.addr]⟩ := by
  have hn : r.wlPosition - 16 = 16 * n := by omega
  have haddr' : readLocal F (fetchEntry F r) .addr = e.addr := by
    rw [readLocal_fetchEntry_addr F r (by omega) (by omega), hn, haddr]
  have hregion' : read (fetchEntry F r) (readLocal F (fetchEntry F r) .region) 8 = e.region := by
    rw [readLocal_fetchEntry_region F r (by omega) (by omega), hn, ← hregion]
    refine read_congr fun i hi => fetchEntry_of_outside F r (not_inFrame_of_inLog F ?_)
    exact ⟨by omega, by omega⟩
  -- the hook tests `addr` before it fetches `region`, so in a memory of its own
  have hcan := ltckptCanRestore_of_restorable hok
  have htest : readLocal F (write (writeLocal F r.mem .i (ulong (readLocal F r.mem .i + 1)))
      (F.slot .addr) (read (writeLocal F r.mem .i (ulong (readLocal F r.mem .i + 1)))
        (L.wlData + (r.wlPosition - 16)) 8)) .addr = e.addr := by
    rw [← haddr', readLocal_fetchEntry_addr F r (by omega) (by omega), readLocal_write_slot]
    exact readLE_word_of_inLog F r (by omega) (by omega)
  rw [hn] at htest
  have heq : replayEntry F true r =
      if readLocal F (fetchEntry F r) .addr = 0 then ⟨fetchEntry F r, 16 * n, r.restored⟩
      else ⟨write (fetchEntry F r) (readLocal F (fetchEntry F r) .addr)
        (read (fetchEntry F r) (readLocal F (fetchEntry F r) .region) 8), 16 * n,
        r.restored ++ [readLocal F (fetchEntry F r) .addr]⟩ := by
    simp only [replayEntry, entrySize_eq, sizeofPtr_eq, writelogGranularity_eq, hn, htest, hcan,
      Bool.true_eq_false, if_false, Bool.not_true, Bool.and_false, Bool.false_eq_true,
      fetchEntry, decide_eq_true_eq]
  rw [heq, haddr', if_neg hok.ne_zero, hregion']

/-- Writing a well-formed entry back is `UndoLog.restore` on its granule. -/
theorem write_entry (hok : e.Ok L) (m : Mem) :
    write m e.addr e.region = UndoLog.restore granule e.undo m := by
  funext x
  have hal := hok.restorable.aligned
  have hx := granule_spec x
  -- the eight bytes of an aligned entry are exactly one granule
  by_cases hin : e.addr ≤ x ∧ x < e.addr + 8
  · have hg : granule x = e.undo.1 := granule_eq_of_mem hal hin.1 hin.2
    rw [write_of_inside m _ _ hin.1 (by rw [hok.length_eq]; exact hin.2), UndoLog.restore,
      if_pos hg]
    rfl
  · have hg : granule x ≠ e.undo.1 := by
      intro hc
      simp only [Entry.undo] at hc
      omega
    rw [write_of_outside m _ _ (by rw [hok.length_eq]; omega), UndoLog.restore, if_neg hg]

/-- **One iteration on a log.** The newest entry is taken off: the rest of the log is still in
    memory, and outside the frame the entry's granule has been restored.  An entry apart from the
    frame leaves the locals to the walk: `i` counts, `num_entries` stays. -/
theorem replayEntry_concat (F : Frame L) (hpos : r.wlPosition = 16 * (log.length + 1))
    (hfits : 16 * (log.length + 1) ≤ writelogBytes) (hlog : LogAt L r.mem (log ++ [e]))
    (hok : e.Ok L) :
    (replayEntry F true r).wlPosition = 16 * log.length ∧
    (replayEntry F true r).restored = r.restored ++ [e.addr] ∧
    LogAt L (replayEntry F true r).mem log ∧
    (∀ x, ¬ InFrame F x → (replayEntry F true r).mem x =
      UndoLog.restore granule e.undo r.mem x) ∧
    (Apart e.addr 8 F.lo F.size →
      readLocal F (replayEntry F true r).mem .i = ulong (readLocal F r.mem .i + 1) ∧
      readLocal F (replayEntry F true r).mem .numEntries = readLocal F r.mem .numEntries) := by
  obtain ⟨haddr, hregion⟩ := hlog.last
  rw [replayEntry_spec F hpos hfits haddr hregion hok.restorable]
  have hmem : ∀ x, ¬ InFrame F x → write (fetchEntry F r) e.addr e.region x =
      UndoLog.restore granule e.undo r.mem x := by
    intro x hx
    rw [write_entry hok]
    simp only [UndoLog.restore, fetchEntry_of_outside F r hx]
  refine ⟨rfl, rfl, hlog.of_append.congr (by omega) fun x hx => ?_, hmem, fun hF => ?_⟩
  · -- the granule is apart from the log area, so the log survives the copy
    have hapart := hok.restorable.apart_log
    have hout : x < e.addr ∨ e.addr + e.region.length ≤ x := by
      rw [hok.length_eq]
      simp only [Apart, InLog] at hapart hx
      omega
    exact (write_of_outside _ _ _ hout).trans
      (fetchEntry_of_outside F r (not_inFrame_of_inLog F hx))
  · have hslot : ∀ l, readLocal F (write (fetchEntry F r) e.addr e.region) l =
        readLocal F (fetchEntry F r) l := by
      intro l
      have hl := F.slot_mem l
      refine readLE_write_of_apart _ ?_
      rw [hok.length_eq]
      exact hF.mono le_rfl le_rfl hl.1 hl.2
    exact ⟨(hslot _).trans (readLocal_fetchEntry_i F r),
      (hslot _).trans (readLocal_fetchEntry_numEntries F r)⟩

/-! ### The whole walk -/

/-- A walk with nothing left to do stops. -/
theorem replayLoop_of_lt (F : Frame L) (fuel : ℕ) (h : r.wlPosition < 16) :
    replayLoop F true fuel r = r := by
  cases fuel with
  | zero => rfl
  | succ n => rw [replayLoop, if_neg (by rw [entrySize_eq]; omega)]

/-- **The walk restores every entry, newest first.**  The frame plays no part: a replayed
    entry that overwrites a local does not change which entries follow.  When no entry touches the
    frame, the walk's counters come out right. -/
theorem replayLoop_rollback (F : Frame L) (hok : ∀ e ∈ log, e.Ok L)
    (hfits : 16 * log.length ≤ writelogBytes) {fuel : ℕ} (hfuel : log.length ≤ fuel)
    (hpos : r.wlPosition = 16 * log.length) (hlog : LogAt L r.mem log) :
    (replayLoop F true fuel r).wlPosition = 0 ∧
    (replayLoop F true fuel r).restored = r.restored ++ (log.map Entry.addr).reverse ∧
    (∀ x, ¬ InFrame F x → (replayLoop F true fuel r).mem x =
      UndoLog.rollback granule (log.map Entry.undo) r.mem x) ∧
    ((∀ e ∈ log, Apart e.addr 8 F.lo F.size) → readLocal F r.mem .i + log.length < 2 ^ 64 →
      readLocal F (replayLoop F true fuel r).mem .i = readLocal F r.mem .i + log.length ∧
      readLocal F (replayLoop F true fuel r).mem .numEntries = readLocal F r.mem .numEntries) := by
  -- the walk takes entries off the end, so the induction does too
  induction log using List.reverseRecOn generalizing fuel r with
  | nil =>
    rw [replayLoop_of_lt F fuel (by simp [hpos])]
    exact ⟨by simpa using hpos, by simp, fun x _ => rfl, fun _ _ => ⟨by simp, rfl⟩⟩
  | append_singleton log e ih =>
    have hoke : e.Ok L := hok e (by simp)
    simp only [List.length_append, List.length_singleton] at hfits hfuel hpos ⊢
    obtain ⟨n, rfl⟩ : ∃ n, fuel = n + 1 := ⟨fuel - 1, by omega⟩
    obtain ⟨hpos', hres, hlog', hmem, hlocals⟩ := replayEntry_concat F hpos hfits hlog hoke
    rw [replayLoop, if_pos (by rw [entrySize_eq]; omega)]
    obtain ⟨hz, hr, hx, hcount⟩ := ih (fun e' he' => hok e' (by simp [he'])) (by omega)
      (by omega : log.length ≤ n) hpos' hlog'
    refine ⟨hz, by rw [hr, hres]; simp, fun x hxF => ?_, fun hF hi => ?_⟩
    · rw [hx x hxF, List.map_append, List.map_singleton, UndoLog.rollback_concat]
      exact UndoLog.rollback_congr _ (hmem x hxF)
    · obtain ⟨hi', hnum⟩ := hlocals (hF e (by simp))
      rw [ulong_of_lt (by omega)] at hi'
      obtain ⟨h₁, h₂⟩ := hcount (fun e' he' => hF e' (by simp [he'])) (by omega)
      exact ⟨by omega, h₂.trans hnum⟩

/-! ### The restart hook -/

/-- The state holds `log` as its undo log, with room for it and only well-formed entries. -/
structure Represents (L : Layout) (st : WlState) (log : List Entry) : Prop where
  position : st.wlPosition = 16 * log.length
  entries : LogAt L st.mem log
  fits : 16 * log.length ≤ writelogBytes
  ok : ∀ e ∈ log, e.Ok L

/-- The initial assignments write the frame only. -/
theorem restartLocals_of_outside (F : Frame L) (st : WlState) {x : ℕ} (hx : ¬ InFrame F x) :
    restartLocals F st x = st.mem x := by
  simp only [restartLocals, writeLocal_of_outside F _ hx]

theorem readLocal_restartLocals_i (F : Frame L) (st : WlState) :
    readLocal F (restartLocals F st) .i = 0 := by
  simp only [restartLocals, readLocal_writeLocal_of_ne, ne_eq, reduceCtorEq, not_false_eq_true]
  exact readLocal_writeLocal F _ (by decide)

theorem readLocal_restartLocals_numEntries (F : Frame L) (h : st.wlPosition / 16 < 2 ^ 64) :
    readLocal F (restartLocals F st) .numEntries = st.wlPosition / 16 := by
  simp only [restartLocals, readLocal_writeLocal_of_ne, ne_eq, reduceCtorEq, not_false_eq_true]
  exact readLocal_writeLocal F _ h

/-- **The restart hook on a log.** Only the third assert can fail; if none does, the hook
    returns 0 with an empty log, every entry has been put back newest first, and outside its
    frame memory is rolled back.  Entries apart from the frame cannot make the assert fail. -/
theorem ltckptRestartHook_eq (F : Frame L) (h : Represents L st log) :
    ∃ m : Mem,
      (∀ x, ¬ InFrame F x → m x = UndoLog.rollback granule (log.map Entry.undo) st.mem x) ∧
      ((∀ e ∈ log, Apart e.addr 8 F.lo F.size) →
        readLocal F m .i = readLocal F m .numEntries) ∧
      ltckptRestartHook F true st =
        if readLocal F m .i ≠ readLocal F m .numEntries then .error .replayedAll
        else .ok ⟨0, { st with mem := m, wlPosition := 0 }, (log.map Entry.addr).reverse⟩ := by
  have hpos := h.position
  have hlt : log.length < 2 ^ 64 := by
    have := h.fits
    have := L.wlData_fits
    omega
  have hdiv : st.wlPosition / 16 = log.length := by omega
  have hlog : LogAt L (restartLocals F st) log :=
    h.entries.congr h.fits fun x hx => restartLocals_of_outside F st (not_inFrame_of_inLog F hx)
  obtain ⟨hz, hr, hx, hcount⟩ := replayLoop_rollback F h.ok h.fits
    (by omega : log.length ≤ st.wlPosition)
    (r := ⟨restartLocals F st, st.wlPosition, []⟩) hpos hlog
  refine ⟨(replayLoop F true st.wlPosition ⟨restartLocals F st, st.wlPosition, []⟩).mem,
    fun x hxF => ?_, fun hF => ?_, ?_⟩
  · rw [hx x hxF]
    exact UndoLog.rollback_congr _ (restartLocals_of_outside F st hxF)
  · obtain ⟨hi, hnum⟩ := hcount hF (by simp only [readLocal_restartLocals_i]; omega)
    rw [hi, hnum, readLocal_restartLocals_i, readLocal_restartLocals_numEntries F (by omega), hdiv,
      Nat.zero_add]
  · have hnum : readLocal F (restartLocals F st) .numEntries = st.wlPosition / 16 :=
      readLocal_restartLocals_numEntries F (by omega)
    have hmod : st.wlPosition % 16 = 0 := by omega
    simp only [ltckptRestartHook, entrySize_eq, hmod, hnum, hz, hr, ne_eq, not_true_eq_false,
      if_false, List.nil_append]

/-- **Exact replay.** With every entry apart from the frame, the hook succeeds. -/
theorem ltckptRestartHook_spec (F : Frame L) (h : Represents L st log)
    (hF : ∀ e ∈ log, Apart e.addr 8 F.lo F.size) :
    ∃ m : Mem,
      (∀ x, ¬ InFrame F x → m x = UndoLog.rollback granule (log.map Entry.undo) st.mem x) ∧
      ltckptRestartHook F true st =
        .ok ⟨0, { st with mem := m, wlPosition := 0 }, (log.map Entry.addr).reverse⟩ := by
  obtain ⟨m, hm, hi, heq⟩ := ltckptRestartHook_eq F h
  refine ⟨m, hm, ?_⟩
  rw [heq, if_neg (not_not_intro (hi hF))]

end Firestarter.Ltckpt
