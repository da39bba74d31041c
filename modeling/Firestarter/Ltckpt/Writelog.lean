import Firestarter.Lib.FlatMem

namespace Firestarter.Ltckpt

open FlatMem

/-!
# The write-log mechanism (`mechanisms/ltckpt_writelog.c`, x86-64, non-MINIX)

The undo log is a byte array in the process's own memory.  Each entry is an address slot of
`sizeof(void*)` bytes followed by the 8-byte region the address pointed to.

* `ltckptWriteWl` — append the granule of an address (`ltckpt_write_wl`);
* `ltckptStoreHook`, `ltckptMemcpyHook`, `ltckptTopOfTheLoop` — the hooks the passes insert;
* `ltckptRestartHook` — the restart hook, walking the log in reverse order.

Everything runs on one flat memory: the log area, the application's bytes and the restart
hook's own stack frame are ranges of it.  The static variables `wl_data` and `wl_position`
are kept as fields; their addresses are part of the `Layout`, since `ltckpt_can_restore`
tests them.
-/

/-! ### Constants and machine words -/

/-- `sizeof(void*)`. -/
def sizeofPtr : ℕ := 8

/-- `WRITELOG_MAXLEN` under `LTCKPT_X86_64`. -/
def writelogMaxlen : ℕ := 1024 * 1024 * 1024 * 4 * 10

/-- `WRITELOG_GRANULARITY`, also `sizeof(region_t)`. -/
def writelogGranularity : ℕ := 8

/-- `WRITELOG_BYTES`. -/
def writelogBytes : ℕ := writelogMaxlen * (writelogGranularity + sizeofPtr)

/-- `sizeof(void*) + sizeof(region_t)`: the size of one log entry. -/
def entrySize : ℕ := sizeofPtr + writelogGranularity

/-- Truncation to an `unsigned long` (and to a pointer). -/
def ulong (n : ℕ) : ℕ := n % 2 ^ 64

/-- `addr & ~(WRITELOG_GRANULARITY-1)`. -/
def granule (addr : ℕ) : ℕ := addr - addr % writelogGranularity

/-! ### State -/

/-- The fields of `ltckpt_ctx_t` that the write-log hooks use. -/
structure Ctx where
  checkpointInterval : ℕ
  numTols : ℕ
  numCheckpoints : ℕ
  maxLogSize : ℕ

/-- Memory, `wl_position` and the context. -/
structure WlState where
  mem : Mem
  wlPosition : ℕ
  ctx : Ctx

/-- Where `ltckpt_init_writelog` mapped the log and where the two static variables lie.  A
    mapped log area and a static variable do not wrap around the address space. -/
structure Layout where
  /-- the value of `wl_data` -/
  wlData : ℕ
  /-- `&wl_data` -/
  wlDataVar : ℕ
  /-- `&wl_position` -/
  wlPositionVar : ℕ
  wlData_pos : 0 < wlData
  wlData_fits : wlData + writelogBytes < 2 ^ 64
  wlDataVar_fits : wlDataVar + sizeofPtr < 2 ^ 64
  wlPositionVar_fits : wlPositionVar + sizeofPtr < 2 ^ 64

/-! ### Logging -/

/-- `lt_panic` outside MINIX: both `lt_printf` and `lt_assert` are empty macros. -/
def ltPanic (st : WlState) : WlState := st

/-- `ltckpt_write_wl`: append the granule of `addr` and its content to the log. -/
def ltckptWriteWl (L : Layout) (st : WlState) (addr : ℕ) : WlState :=
  let addr := granule addr
  let st := if L.wlData ≤ addr ∧ addr < ulong (L.wlData + writelogBytes) then ltPanic st else st
  -- `*addr_slot = addr` first, then the region is copied
  let mem := writeLE st.mem (L.wlData + st.wlPosition) sizeofPtr addr
  let mem := write mem (L.wlData + (st.wlPosition + sizeofPtr)) (read mem addr writelogGranularity)
  { st with mem := mem, wlPosition := st.wlPosition + entrySize }

/-- `ltckpt_store_hook_undolog`. -/
def ltckptStoreHook (L : Layout) (st : WlState) (addr : ℕ) : WlState := ltckptWriteWl L st addr

/-- `while ((char *)reg < end)` of the memcpy hook, with a bound on the number of iterations;
    `reg` points to 8-byte regions, so `reg++` moves it by 8. -/
def memcpyHookLoop (L : Layout) : ℕ → WlState → ℕ → ℕ → WlState
  | 0, st, _, _ => st
  | n + 1, st, reg, last =>
    if reg < last then
      memcpyHookLoop L n (ltckptWriteWl L st reg) (ulong (reg + writelogGranularity)) last
    else st

/-- `ltckpt_memcpy_hook_undolog`: the first region starts at `addr & ~0x3`. -/
def ltckptMemcpyHook (L : Layout) (st : WlState) (addr size : ℕ) : WlState :=
  let last := ulong (addr + size)
  let reg := addr - addr % 4
  memcpyHookLoop L (last - reg) st reg last

/-- `CTX_NEW_LOG_SIZE`. -/
def ctxNewLogSize (ls : ℕ) (ctx : Ctx) : Ctx :=
  if ls > ctx.maxLogSize then { ctx with maxLogSize := ls } else ctx

/-- The test of `CTX_NEW_TOL_OR_RETURN`: this top-of-the-loop call takes no checkpoint. -/
def ctxSkipsTol (ctx : Ctx) : Prop :=
  ctx.checkpointInterval = 0 ∨ ctx.numTols % ctx.checkpointInterval > 0

instance (ctx : Ctx) : Decidable (ctxSkipsTol ctx) := inferInstanceAs (Decidable (_ ∨ _))

/-- `ltckpt_top_of_the_loop_undolog`. -/
def ltckptTopOfTheLoop (st : WlState) : WlState :=
  let ctx := ctxNewLogSize st.wlPosition st.ctx
  if ctxSkipsTol ctx then
    { st with ctx := { ctx with numTols := ulong (ctx.numTols + 1) } }
  else
    { st with
      wlPosition := 0
      ctx := { ctx with
        numTols := ulong (ctx.numTols + 1)
        numCheckpoints := ulong (ctx.numCheckpoints + 1) } }

/-! ### What may be restored -/

/-- `ltckpt_overlaps`, with pointer sums that wrap. -/
def ltckptOverlaps (p1 s1 p2 s2 : ℕ) : Bool :=
  let pe1 := ulong (p1 + s1)
  let pe2 := ulong (p2 + s2)
  decide ((p1 ≤ p2 ∧ pe1 > p2) ∨ (p2 ≤ p1 ∧ pe2 > p1))

/-- `ltckpt_can_restore`. -/
def ltckptCanRestore (L : Layout) (addr : ℕ) : Bool :=
  !ltckptOverlaps addr writelogGranularity L.wlData writelogBytes &&
  !ltckptOverlaps addr writelogGranularity L.wlDataVar sizeofPtr &&
  !ltckptOverlaps addr writelogGranularity L.wlPositionVar sizeofPtr

/-! ### The restart hook -/

/-- The restart hook's locals that are read after a log entry has been replayed.  `entry_size`
    is initialised with a constant and never assigned again. -/
inductive Local
  | addr | datamax | region | i | numEntries | stackEntries
  deriving DecidableEq, Repr

/-- A stack frame of the restart hook: a range of memory, apart from the mapped log area, with
    one 8-byte slot for each local, the slots pairwise apart. -/
structure Frame (L : Layout) where
  lo : ℕ
  size : ℕ
  slot : Local → ℕ
  apart_log : Apart lo size L.wlData writelogBytes
  slot_mem : ∀ l, lo ≤ slot l ∧ slot l + sizeofPtr ≤ lo + size
  slot_apart : ∀ l l', l ≠ l' → Apart (slot l) sizeofPtr (slot l') sizeofPtr

/-- The order of the locals in a frame. -/
def Local.index : Local → ℕ
  | .addr => 0
  | .datamax => 1
  | .region => 2
  | .i => 3
  | .numEntries => 4
  | .stackEntries => 5

/-- The frame whose six locals lie side by side from `lo` on. -/
def frameAt (L : Layout) (lo : ℕ) (h : Apart lo 48 L.wlData writelogBytes) : Frame L where
  lo := lo
  size := 48
  slot l := lo + 8 * l.index
  apart_log := h
  slot_mem l := by cases l <;> simp [Local.index, sizeofPtr]
  slot_apart l l' hne := by
    cases l <;> cases l' <;> first
      | exact absurd rfl hne
      | simp only [Apart, Local.index, sizeofPtr]; omega

section Restart

variable {L : Layout} (F : Frame L)

/-- The value of a local. -/
def readLocal (m : Mem) (l : Local) : ℕ := readLE m (F.slot l) sizeofPtr

/-- Assign to a local. -/
def writeLocal (m : Mem) (l : Local) (v : ℕ) : Mem := writeLE m (F.slot l) sizeofPtr v

/-- What the reverse walk carries: memory, `wl_position`, and the destinations of the
    `memcpy`s that put a region back (a history of the walk; the code does not read it). -/
structure Replay where
  mem : Mem
  wlPosition : ℕ
  restored : List ℕ

/-- One iteration of the reverse walk.  `libcallIntervals` is `LTCKPT_LIBCALL_INTERVALS`.
    `memcpy` returns its destination, which is never `NULL` in either call, so the two
    `return LTCKPT_FAIL` branches are not reached. -/
def replayEntry (libcallIntervals : Bool) (r : Replay) : Replay :=
  let m := writeLocal F r.mem .i (ulong (readLocal F r.mem .i + 1))
  let pos := r.wlPosition - entrySize
  let m := write m (F.slot .addr) (read m (L.wlData + pos) sizeofPtr)
  if ltckptCanRestore L (readLocal F m .addr) = false then
    { r with mem := m, wlPosition := pos }
  else
    let m := writeLocal F m .region (L.wlData + (pos + sizeofPtr))
    let onStack : Bool := decide (readLocal F m .addr > readLocal F m .datamax)
    let m := if onStack then
        writeLocal F m .stackEntries (ulong (readLocal F m .stackEntries + 1)) else m
    if onStack && !libcallIntervals then
      { r with mem := m, wlPosition := pos }
    else if readLocal F m .addr = 0 then
      { r with mem := m, wlPosition := pos }
    else
      { mem := write m (readLocal F m .addr) (read m (readLocal F m .region) writelogGranularity)
        wlPosition := pos
        restored := r.restored ++ [readLocal F m .addr] }

/-- `while (wl_position >= entry_size)`, with a bound on the number of iterations. -/
def replayLoop (libcallIntervals : Bool) : ℕ → Replay → Replay
  | 0, r => r
  | n + 1, r =>
    if entrySize ≤ r.wlPosition then
      replayLoop libcallIntervals n (replayEntry F libcallIntervals r)
    else r

/-- The four `assert`s of the restart hook, in source order. -/
inductive RestartAssert
  | positionMultiple | numEntriesStored | replayedAll | positionZero
  deriving DecidableEq, Repr

/-- The result of a restart: return code, state, and the regions put back. -/
structure Restarted where
  code : Int
  state : WlState
  restored : List ℕ

/-- The locals as initialised before the walk starts. -/
def restartLocals (st : WlState) : Mem :=
  let m := writeLocal F st.mem .addr 0
  let m := writeLocal F m .datamax 0
  let m := writeLocal F m .numEntries (st.wlPosition / entrySize)
  let m := writeLocal F m .i 0
  let m := writeLocal F m .stackEntries 0
  writeLocal F m .datamax (ulong (F.slot .numEntries + 2 ^ 64 - 4096))

/-- `ltckpt_restart_hook_undolog` without `LTCKPT_STKCHKLOG`; an `assert` that fails aborts
    the process.  The walk takes at most `wl_position` iterations. -/
def ltckptRestartHook (libcallIntervals : Bool) (st : WlState) :
    Except RestartAssert Restarted :=
  let m := restartLocals F st
  if st.wlPosition % entrySize ≠ 0 then .error .positionMultiple
  else if readLocal F m .numEntries ≠ st.wlPosition / entrySize then .error .numEntriesStored
  else
    let r := replayLoop F libcallIntervals st.wlPosition ⟨m, st.wlPosition, []⟩
    if readLocal F r.mem .i ≠ readLocal F r.mem .numEntries then .error .replayedAll
    else if r.wlPosition ≠ 0 then .error .positionZero
    else .ok ⟨0, { st with mem := r.mem, wlPosition := r.wlPosition }, r.restored⟩

end Restart

/-! ### Basic lemmas -/

@[simp] theorem entrySize_eq : entrySize = 16 := rfl
@[simp] theorem sizeofPtr_eq : sizeofPtr = 8 := rfl
@[simp] theorem writelogGranularity_eq : writelogGranularity = 8 := rfl

/-- A granule starts at a multiple of 8 at or below its addresses. -/
theorem granule_spec (a : ℕ) : granule a ≤ a ∧ a < granule a + 8 ∧ granule a % 8 = 0 := by
  simp only [granule, writelogGranularity_eq]
  omega

/-- Two granules that share an address are the same. -/
theorem granule_eq_of_mem {g x : ℕ} (hg : g % 8 = 0) (hlo : g ≤ x) (hhi : x < g + 8) :
    granule x = g := by
  simp only [granule, writelogGranularity_eq]
  omega

theorem ulong_of_lt {n : ℕ} (h : n < 2 ^ 64) : ulong n = n := Nat.mod_eq_of_lt h

theorem ulong_lt (n : ℕ) : ulong n < 2 ^ 64 := Nat.mod_lt _ (by decide)

/-- The top-of-the-loop hook touches no memory. -/
@[simp] theorem ltckptTopOfTheLoop_mem (st : WlState) : (ltckptTopOfTheLoop st).mem = st.mem := by
  simp only [ltckptTopOfTheLoop]
  split <;> rfl

@[simp] theorem ctxNewLogSize_checkpointInterval (ls : ℕ) (ctx : Ctx) :
    (ctxNewLogSize ls ctx).checkpointInterval = ctx.checkpointInterval := by
  simp only [ctxNewLogSize]
  split <;> rfl

@[simp] theorem ctxNewLogSize_numTols (ls : ℕ) (ctx : Ctx) :
    (ctxNewLogSize ls ctx).numTols = ctx.numTols := by
  simp only [ctxNewLogSize]
  split <;> rfl

/-- The hook empties the log exactly when it takes a checkpoint. -/
theorem ltckptTopOfTheLoop_wlPosition (st : WlState) :
    (ltckptTopOfTheLoop st).wlPosition = if ctxSkipsTol st.ctx then st.wlPosition else 0 := by
  have hiff : ctxSkipsTol (ctxNewLogSize st.wlPosition st.ctx) ↔ ctxSkipsTol st.ctx := by
    simp [ctxSkipsTol]
  simp only [ltckptTopOfTheLoop]
  by_cases h : ctxSkipsTol st.ctx
  · rw [if_pos (hiff.mpr h), if_pos h]
  · rw [if_neg (fun hc => h (hiff.mp hc)), if_neg h]

/-- With `CP_INTERVAL` 1 every call takes a checkpoint. -/
theorem ltckptTopOfTheLoop_of_one (st : WlState) (hk : st.ctx.checkpointInterval = 1) :
    (ltckptTopOfTheLoop st).wlPosition = 0 := by
  rw [ltckptTopOfTheLoop_wlPosition, if_neg]
  simp [ctxSkipsTol, hk, Nat.mod_one]

@[simp] theorem ltckptTopOfTheLoop_checkpointInterval (st : WlState) :
    (ltckptTopOfTheLoop st).ctx.checkpointInterval = st.ctx.checkpointInterval := by
  simp only [ltckptTopOfTheLoop]
  split <;> simp

/-- Every call counts, checkpoint or not. -/
@[simp] theorem ltckptTopOfTheLoop_numTols (st : WlState) :
    (ltckptTopOfTheLoop st).ctx.numTols = ulong (st.ctx.numTols + 1) := by
  simp only [ltckptTopOfTheLoop]
  split <;> simp

/-- The branch that panics outside MINIX changes nothing. -/
theorem ltckptWriteWl_eq (L : Layout) (st : WlState) (addr : ℕ) :
    ltckptWriteWl L st addr =
      { st with
        mem := write (writeLE st.mem (L.wlData + st.wlPosition) 8 (granule addr))
          (L.wlData + (st.wlPosition + 8))
          (read (writeLE st.mem (L.wlData + st.wlPosition) 8 (granule addr)) (granule addr) 8)
        wlPosition := st.wlPosition + 16 } := by
  simp [ltckptWriteWl, ltPanic]

@[simp] theorem ltckptWriteWl_wlPosition (L : Layout) (st : WlState) (a : ℕ) :
    (ltckptWriteWl L st a).wlPosition = st.wlPosition + 16 := by
  rw [ltckptWriteWl_eq]

end Firestarter.Ltckpt
