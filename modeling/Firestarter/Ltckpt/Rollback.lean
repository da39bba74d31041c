import Firestarter.Lib.Run
import Firestarter.Ltckpt.Replay

namespace Firestarter.Ltckpt

open FlatMem

/-!
# Rollback of a window

Instrumented stores append to the log before they write; the restart hook undoes them.

* `hookedStore` — the store hook on an address, then a write inside its granule;
* `WindowInv` — **the window invariant**: rolling the log back from the current memory yields
  the memory the window started with;
* `OpenLog` — the same beside writes that no hook sees, for the granules they leave alone or
  touch only after they are logged;
* `rollback_exact` — a top-of-the-loop call, any stores, and a restart;
* `restart_agrees_iff` — the checkpoint interval for which the restart agrees with the
  registers saved at every library call.
-/

variable {L : Layout}

/-! ### Instrumented stores -/

/-- An instrumented store: the address its hook is called with, and the bytes it writes, which
    stay inside the granule of that address. -/
structure Store where
  addr : ℕ
  dst : ℕ
  bytes : List UInt8
  addr_lt : addr < 2 ^ 64
  granule_le : granule addr ≤ dst
  le_granule : dst + bytes.length ≤ granule addr + 8

/-- A one-byte store. -/
def byteStore (a : ℕ) (b : UInt8) (h : a < 2 ^ 64) : Store where
  addr := a
  dst := a
  bytes := [b]
  addr_lt := h
  granule_le := (granule_spec a).1
  le_granule := (granule_spec a).2.1

/-- The store hook, then the store. -/
def hookedStore (L : Layout) (st : WlState) (s : Store) : WlState :=
  let st := ltckptStoreHook L st s.addr
  { st with mem := write st.mem s.dst s.bytes }

@[simp] theorem hookedStore_ctx (L : Layout) (st : WlState) (s : Store) :
    (hookedStore L st s).ctx = st.ctx := by
  simp [hookedStore, ltckptStoreHook, ltckptWriteWl_eq]

/-- The granule of a store is not 0 and overlaps neither the log area, nor `wl_data`, nor
    `wl_position`, nor the restart hook's frame. -/
structure Store.Ok (F : Frame L) (s : Store) : Prop where
  ne_zero : granule s.addr ≠ 0
  apart_log : Apart (granule s.addr) 8 L.wlData writelogBytes
  apart_wlData : Apart (granule s.addr) 8 L.wlDataVar 8
  apart_wlPosition : Apart (granule s.addr) 8 L.wlPositionVar 8
  apart_frame : Apart (granule s.addr) 8 F.lo F.size

variable {F : Frame L} {s : Store} {log : List Entry} {x : ℕ}

theorem Store.Ok.restorable (h : s.Ok F) : Restorable L (granule s.addr) where
  aligned := (granule_spec s.addr).2.2
  ne_zero := h.ne_zero
  lt := lt_of_le_of_lt (granule_spec s.addr).1 s.addr_lt
  apart_log := h.apart_log
  apart_wlData := h.apart_wlData
  apart_wlPosition := h.apart_wlPosition

/-- What the hook logs for an address. -/
def loggedEntry (m : Mem) (a : ℕ) : Entry := ⟨granule a, read m (granule a) 8⟩

/-! ### Appending to the log -/

/-- The log does not depend on memory outside the log area. -/
theorem Represents.congr {st st' : WlState} (h : Represents L st log)
    (hpos : st'.wlPosition = st.wlPosition) (hmem : ∀ x, InLog L x → st'.mem x = st.mem x) :
    Represents L st' log where
  position := hpos.trans h.position
  entries := h.entries.congr h.fits hmem
  fits := h.fits
  ok := h.ok

/-- The hook writes the log area only. -/
theorem ltckptWriteWl_of_outside {st : WlState} (h : Represents L st log)
    (hroom : 16 * (log.length + 1) ≤ writelogBytes) (a : ℕ) (hx : ¬ InLog L x) :
    (ltckptWriteWl L st a).mem x = st.mem x := by
  have hpos := h.position
  simp only [InLog] at hx
  rw [ltckptWriteWl_eq]
  exact (write_of_outside _ _ _ (by rw [read_length]; omega)).trans
    (writeLE_of_outside _ _ _ _ (by omega))

/-- **The hook appends one entry**: the granule of the address with its present content. -/
theorem ltckptWriteWl_represents {st : WlState} (h : Represents L st log)
    (hroom : 16 * (log.length + 1) ≤ writelogBytes) {a : ℕ} (ha : Restorable L (granule a)) :
    Represents L (ltckptWriteWl L st a) (log ++ [loggedEntry st.mem a]) := by
  have hpos := h.position
  have hapart : Apart (L.wlData + 16 * log.length) 8 (granule a) 8 := by
    refine ha.apart_log.symm.mono ?_ ?_ le_rfl le_rfl <;> omega
  have hregion : read (writeLE st.mem (L.wlData + 16 * log.length) 8 (granule a)) (granule a) 8 =
      read st.mem (granule a) 8 := read_writeLE_of_apart st.mem hapart
  have hlen : 8 = (read st.mem (granule a) 8).length := by simp
  have haddr := readLE_ltckptWriteWl (L := L) st ha.lt
  rw [ltckptWriteWl_eq] at haddr ⊢
  simp only [hpos, hregion] at haddr ⊢
  refine ⟨by simp; omega, LogAt.concat ?_ ?_ ?_, by simpa using hroom, ?_⟩
  · -- the older entries lie below the two slots written
    intro k e hk
    have hlt : k < log.length := (List.getElem?_eq_some_iff.mp hk).1
    rw [readLE_write_of_apart _ (by simp only [read_length, Apart]; omega),
      readLE_writeLE_of_apart _ (by simp only [Apart]; omega),
      read_write_of_apart _ (by simp only [read_length, Apart]; omega),
      read_writeLE_of_apart _ (by simp only [Apart]; omega)]
    exact h.entries k e hk
  · exact haddr
  · conv_lhs => rw [hlen]
    exact read_write _ _ _
  · intro e he
    rcases List.mem_append.mp he with hold | hnew
    · exact h.ok e hold
    · rw [List.mem_singleton.mp hnew]
      exact ⟨ha, by simp [loggedEntry]⟩

/-! ### The window invariant -/

/-- Rolling `log` back from the present memory gives `m₀` outside the log area. -/
structure WindowInv (L : Layout) (m₀ : Mem) (st : WlState) (log : List Entry) : Prop where
  represents : Represents L st log
  undoes : ∀ x, ¬ InLog L x → UndoLog.rollback granule (log.map Entry.undo) st.mem x = m₀ x

/-- A window starts with an empty log. -/
theorem WindowInv.start (L : Layout) {st : WlState} (h : st.wlPosition = 0) :
    WindowInv L st.mem st [] where
  represents := ⟨by simpa using h, by intro k e hk; simp at hk, by simp, by simp⟩
  undoes _ _ := rfl

/-- **Step.** An instrumented store appends the granule's content and keeps the invariant,
    however often the granule has been logged before. -/
theorem WindowInv.hookedStore {m₀ : Mem} {st : WlState} (h : WindowInv L m₀ st log)
    (hs : Restorable L (granule s.addr)) (hroom : 16 * (log.length + 1) ≤ writelogBytes) :
    WindowInv L m₀ (hookedStore L st s) (log ++ [loggedEntry st.mem s.addr]) := by
  have hlo := s.granule_le
  have hhi := s.le_granule
  have hlog := hs.apart_log
  refine ⟨(ltckptWriteWl_represents h.represents hroom hs).congr rfl fun x hx => ?_,
    fun x hx => ?_⟩
  · refine write_of_outside _ _ _ ?_
    simp only [Apart, InLog] at hlog hx
    omega
  · rw [List.map_append, List.map_singleton, ← h.undoes x hx]
    refine UndoLog.rollback_append_logged _ (fun hg => ?_) (fun hg => ?_)
    · -- inside the granule the entry holds the content before the store
      have hx' := granule_spec x
      have hg' : granule x = granule s.addr := hg
      show (read st.mem (granule s.addr) 8).getD (x - granule s.addr) 0 = st.mem x
      rw [read_getD _ _ (by omega)]
      congr 1
      omega
    · -- outside it neither the hook nor the store writes
      have hne : granule x ≠ granule s.addr := hg
      have hout : x < s.dst ∨ s.dst + s.bytes.length ≤ x := by
        by_contra hc
        exact hne (granule_eq_of_mem (granule_spec s.addr).2.2 (by omega) (by omega))
      exact (write_of_outside _ _ _ hout).trans
        (ltckptWriteWl_of_outside h.represents hroom s.addr hx)

/-- **Run.** Any sequence of instrumented stores keeps the invariant. -/
theorem WindowInv.stores {m₀ : Mem} {st : WlState} (h : WindowInv L m₀ st log) {ss : List Store}
    (hs : ∀ s ∈ ss, Restorable L (granule s.addr))
    (hroom : 16 * (log.length + ss.length) ≤ writelogBytes) :
    ∃ log', log'.map Entry.addr = log.map Entry.addr ++ ss.map (fun s => granule s.addr) ∧
      WindowInv L m₀ (ss.foldl (Ltckpt.hookedStore L) st) log' := by
  induction ss generalizing st log with
  | nil => exact ⟨log, by simp, h⟩
  | cons s ss ih =>
    simp only [List.length_cons] at hroom
    obtain ⟨log', haddr, hinv⟩ := ih
      (h.hookedStore (hs s (by simp)) (by omega)) (fun s' hs' => hs s' (by simp [hs']))
      (by simp only [List.length_append, List.length_singleton]; omega)
    exact ⟨log', by simp [haddr, loggedEntry], hinv⟩

/-- The restart hook on a window whose stores stay off its frame: it returns 0 with an empty
    log and the memory the window started with. -/
theorem WindowInv.restart {m₀ : Mem} {st : WlState} (F : Frame L) (h : WindowInv L m₀ st log)
    (hF : ∀ g ∈ log.map Entry.addr, Apart g 8 F.lo F.size) :
    ∃ r, ltckptRestartHook F true st = .ok r ∧ r.code = 0 ∧ r.state.wlPosition = 0 ∧
      ∀ x, ¬ InLog L x → ¬ InFrame F x → r.state.mem x = m₀ x := by
  obtain ⟨m, hm, heq⟩ := ltckptRestartHook_spec F h.represents
    (fun e he => hF _ (List.mem_map_of_mem he))
  exact ⟨_, heq, rfl, rfl, fun x hx hxF => (hm x hxF).trans (h.undoes x hx)⟩

/-- A top-of-the-loop call that takes no checkpoint leaves the window open. -/
theorem WindowInv.topOfTheLoop {m₀ : Mem} {st : WlState} (h : WindowInv L m₀ st log)
    (hskip : ctxSkipsTol st.ctx) : WindowInv L m₀ (ltckptTopOfTheLoop st) log where
  represents := h.represents.congr (by rw [ltckptTopOfTheLoop_wlPosition, if_pos hskip])
    fun x _ => by rw [ltckptTopOfTheLoop_mem]
  undoes x hx := by rw [ltckptTopOfTheLoop_mem]; exact h.undoes x hx

/-! ### Writes without a hook -/

/-- No write of `ws` touches the granule `g`. -/
def Untouched (ws : List (ℕ × List UInt8)) (g : ℕ) : Prop := ∀ w ∈ ws, Apart w.1 w.2.length g 8

instance (ws : List (ℕ × List UInt8)) (g : ℕ) : Decidable (Untouched ws g) :=
  inferInstanceAs (Decidable (∀ w ∈ ws, _))

/-- The log holds the granules `gs`, and `ws` are the writes since `m₀` that no hook has seen.
    Rolling the log back yields `m₀` on every granule that is logged or that `ws` leaves alone. -/
def OpenLog (L : Layout) (m₀ : Mem) (st : WlState) (gs : List ℕ) (ws : List (ℕ × List UInt8)) :
    Prop :=
  ∃ base log, WindowInv L base st log ∧ log.map Entry.addr = gs ∧
    ∀ x, ¬ InLog L x → granule x ∈ gs ∨ Untouched ws (granule x) → base x = m₀ x

section OpenLog

variable {m₀ : Mem} {st : WlState} {gs : List ℕ} {ws : List (ℕ × List UInt8)}

theorem OpenLog.start (L : Layout) (h : st.wlPosition = 0) : OpenLog L st.mem st [] [] :=
  ⟨st.mem, [], WindowInv.start L h, rfl, fun _ _ _ => rfl⟩

/-- **Step, new entries.** Their granules are ones that the log knows or that `ws` leaves alone. -/
theorem OpenLog.extend (h : OpenLog L m₀ st gs ws) {st' : WlState} {new : List ℕ}
    (hnew : ∀ g ∈ new, g ∈ gs ∨ Untouched ws g) (hstep : ∀ base log, WindowInv L base st log →
      ∃ log', log'.map Entry.addr = log.map Entry.addr ++ new ∧ WindowInv L base st' log') :
    OpenLog L m₀ st' (gs ++ new) ws := by
  obtain ⟨base, log, hinv, rfl, hbase⟩ := h
  obtain ⟨log', haddr, hinv'⟩ := hstep base log hinv
  refine ⟨base, log', hinv', haddr, fun x hx hclean => ?_⟩
  rcases hclean with hmem | huntouched
  · rcases List.mem_append.mp hmem with hold | hg
    · exact hbase x hx (.inl hold)
    · exact hbase x hx (hnew _ hg)
  · exact hbase x hx (.inr huntouched)

/-- **Step, a store.** -/
theorem OpenLog.hookedStore (h : OpenLog L m₀ st gs ws) {s : Store}
    (hs : Restorable L (granule s.addr))
    (hfirst : granule s.addr ∈ gs ∨ Untouched ws (granule s.addr))
    (hroom : st.wlPosition + entrySize ≤ writelogBytes) :
    OpenLog L m₀ (hookedStore L st s) (gs ++ [granule s.addr]) ws := by
  refine h.extend (by simpa using hfirst) fun base log hinv => ?_
  have hpos := hinv.represents.position
  rw [entrySize_eq] at hroom
  exact ⟨_, by simp [loggedEntry], hinv.hookedStore hs (by omega)⟩

/-- **Step, writes that no hook sees.** They change what the log undoes to, but not on granules
    that are logged already. -/
theorem OpenLog.unhooked (h : OpenLog L m₀ st gs ws) {new : List (ℕ × List UInt8)}
    (hnew : ∀ w ∈ new, Apart w.1 w.2.length L.wlData writelogBytes) :
    OpenLog L m₀ { st with mem := writeAll st.mem new } gs (ws ++ new) := by
  obtain ⟨base, log, hinv, rfl, hbase⟩ := h
  have hkept : ∀ x, InLog L x → writeAll st.mem new x = st.mem x := fun x hx =>
    writeAll_of_outside _ fun w hw => by
      have hapart := hnew w hw
      simp only [Apart, InLog] at hapart hx
      omega
  refine ⟨fun x => if granule x ∈ log.map Entry.addr then base x else writeAll st.mem new x, log,
    ⟨hinv.represents.congr rfl hkept, fun x hx => ?_⟩, rfl, fun x hx hclean => ?_⟩
  · by_cases hlogged : granule x ∈ log.map Entry.addr
    · -- the replay does not look at the memory there
      rw [if_pos hlogged, ← hinv.undoes x hx]
      obtain ⟨e, he, haddr⟩ := List.mem_map.mp hlogged
      exact UndoLog.rollback_of_logged _ _ ⟨e.undo, List.mem_map_of_mem he, haddr⟩
    · rw [if_neg hlogged]
      exact UndoLog.rollback_of_not_logged _ fun u hu hg => by
        obtain ⟨e, he, rfl⟩ := List.mem_map.mp hu
        exact hlogged (List.mem_map.mpr ⟨e, he, hg⟩)
  · by_cases hlogged : granule x ∈ log.map Entry.addr
    · exact (if_pos hlogged).trans (hbase x hx (.inl hlogged))
    · have huntouched := hclean.resolve_left hlogged
      have hnot : ∀ u ∈ log.map Entry.undo, u.1 ≠ granule x := fun u hu hg => by
        obtain ⟨e, he, rfl⟩ := List.mem_map.mp hu
        exact hlogged (List.mem_map.mpr ⟨e, he, hg⟩)
      have hsame : writeAll st.mem new x = st.mem x := writeAll_of_outside _ fun w hw => by
        have hapart := huntouched w (List.mem_append_right _ hw)
        have hspec := granule_spec x
        simp only [Apart] at hapart
        omega
      calc (if granule x ∈ log.map Entry.addr then base x else writeAll st.mem new x)
          = st.mem x := (if_neg hlogged).trans hsame
        _ = base x := (UndoLog.rollback_of_not_logged _ hnot).symm.trans (hinv.undoes x hx)
        _ = m₀ x := hbase x hx (.inr fun w hw => huntouched w (List.mem_append_left _ hw))

/-- A top-of-the-loop call that takes no checkpoint leaves the log open. -/
theorem OpenLog.topOfTheLoop (h : OpenLog L m₀ st gs ws) (hskip : ctxSkipsTol st.ctx) :
    OpenLog L m₀ (ltckptTopOfTheLoop st) gs ws := by
  obtain ⟨base, log, hinv, hgs, hbase⟩ := h
  exact ⟨base, log, hinv.topOfTheLoop hskip, hgs, hbase⟩

/-- **Restart.** The hook puts the logged granules back, newest first. -/
theorem OpenLog.restart (h : OpenLog L m₀ st gs ws) (F : Frame L)
    (hF : ∀ g ∈ gs, Apart g 8 F.lo F.size) :
    ∃ r, ltckptRestartHook F true st = .ok r ∧ r.code = 0 ∧ r.state.wlPosition = 0 ∧
      r.restored = gs.reverse ∧
      ∀ x, ¬ InLog L x → ¬ InFrame F x → granule x ∈ gs ∨ Untouched ws (granule x) →
        r.state.mem x = m₀ x := by
  obtain ⟨base, log, hinv, rfl, hbase⟩ := h
  obtain ⟨m, hm, heq⟩ := ltckptRestartHook_spec F hinv.represents
    fun e he => hF _ (List.mem_map_of_mem he)
  exact ⟨_, heq, rfl, rfl, rfl, fun x hx hxF hclean =>
    ((hm x hxF).trans (hinv.undoes x hx)).trans (hbase x hx hclean)⟩

/-- The granules of a log are restorable. -/
theorem OpenLog.restorable (h : OpenLog L m₀ st gs ws) {g : ℕ} (hg : g ∈ gs) : Restorable L g := by
  obtain ⟨base, log, hinv, rfl, -⟩ := h
  obtain ⟨e, he, rfl⟩ := List.mem_map.mp hg
  exact (hinv.represents.ok e he).restorable

end OpenLog

/-- A byte of a granule apart from the frame is outside it. -/
theorem not_inFrame_of_apart (h : Apart (granule x) 8 F.lo F.size) : ¬ InFrame F x := by
  have hspec := granule_spec x
  simp only [Apart, InFrame] at h ⊢
  omega

/-- A byte of a restorable granule is outside the log area. -/
theorem Restorable.not_inLog (h : Restorable L (granule x)) : ¬ InLog L x := by
  have hapart := h.apart_log
  have hspec := granule_spec x
  simp only [Apart, InLog] at hapart ⊢
  omega

/-- **Exact rollback.** With `CP_INTERVAL` 1, after a top-of-the-loop call and any
    instrumented stores that fit the log, the restart hook trips no assert, returns 0, leaves
    `wl_position` 0 and restores every byte outside the log area and its own frame. -/
theorem rollback_exact (F : Frame L) (st : WlState) (hk : st.ctx.checkpointInterval = 1)
    (ss : List Store) (hok : ∀ s ∈ ss, s.Ok F) (hroom : 16 * ss.length ≤ writelogBytes) :
    ∃ r, ltckptRestartHook F true (ss.foldl (hookedStore L) (ltckptTopOfTheLoop st)) = .ok r ∧
      r.code = 0 ∧ r.state.wlPosition = 0 ∧
      ∀ x, ¬ InLog L x → ¬ InFrame F x → r.state.mem x = st.mem x := by
  have hstart : (ltckptTopOfTheLoop st).wlPosition = 0 := ltckptTopOfTheLoop_of_one st hk
  obtain ⟨log, haddr, hinv⟩ := (WindowInv.start L hstart).stores
    (fun s hs => (hok s hs).restorable) (by simpa using hroom)
  rw [← ltckptTopOfTheLoop_mem st]
  refine hinv.restart F fun g hg => ?_
  rw [haddr, List.map_nil, List.nil_append] at hg
  obtain ⟨s, hs, rfl⟩ := List.mem_map.mp hg
  exact (hok s hs).apart_frame

/-- A layout with the two variables at the bottom of memory and the log high above. -/
def sampleLayout : Layout where
  wlData := 2 ^ 40
  wlDataVar := 0x1000
  wlPositionVar := 0x1008
  wlData_pos := by decide
  wlData_fits := by decide
  wlDataVar_fits := by decide
  wlPositionVar_fits := by decide

/-- A frame of the restart hook in `sampleLayout`. -/
def sampleFrame : Frame sampleLayout := frameAt sampleLayout 0x8000 (by decide)

/-- A one-byte store into a granule that is clear of `sampleLayout` and `sampleFrame`. -/
def sampleStore (b : UInt8) : Store := byteStore 0x4001 b (by decide)

theorem sampleStore_ok (b : UInt8) : (sampleStore b).Ok sampleFrame :=
  have hg : granule (sampleStore b).addr = 0x4000 := by simp [sampleStore, byteStore, granule]
  ⟨by rw [hg]; decide, by rw [hg]; decide, by rw [hg]; decide, by rw [hg]; decide,
    by rw [hg]; decide⟩

/-- Two stores to one granule are undone. -/
theorem rollback_exact_two_stores :
    ∃ r, ltckptRestartHook sampleFrame true
        ([sampleStore 7, sampleStore 9].foldl (hookedStore sampleLayout)
          (ltckptTopOfTheLoop ⟨fun _ => 0, 32, ⟨1, 0, 0, 0⟩⟩)) = .ok r ∧
      r.code = 0 ∧ r.state.wlPosition = 0 ∧
      ∀ x, ¬ InLog sampleLayout x → ¬ InFrame sampleFrame x → r.state.mem x = 0 :=
  rollback_exact sampleFrame ⟨fun _ => 0, 32, ⟨1, 0, 0, 0⟩⟩ rfl [sampleStore 7, sampleStore 9]
    (by
      intro s hs
      rcases List.mem_cons.mp hs with rfl | hs
      · exact sampleStore_ok 7
      · rw [List.mem_singleton.mp hs]
        exact sampleStore_ok 9)
    (by decide)

/-! ### Checkpoint intervals -/

/-- What a process instrumented for library-call checkpoints does. -/
inductive LibEvent
  /-- a library call whose result is used, with the memory it writes; behind it the
      instrumentation calls the top-of-the-loop hook and saves the registers -/
  | libcall (writes : List (ℕ × List UInt8))
  /-- a library call whose result is not used, which is not instrumented -/
  | unusedCall (writes : List (ℕ × List UInt8))
  /-- an instrumented store -/
  | store (s : Store)

/-- The write log and the memory at the last point the registers were saved.  The last two fields
    are histories since then: the granules logged, and the writes of calls without a hook. -/
structure LibState where
  wl : WlState
  saved : Option Mem
  logged : List ℕ
  unhooked : List (ℕ × List UInt8)

/-- One event (`instrumentLibCallCkpts`).  A store that finds the log full hits the guard page
    behind it and is no step of the process. -/
def libStep (L : Layout) (s : LibState) : LibEvent → Option LibState
  | .libcall ws =>
    let wl := ltckptTopOfTheLoop { s.wl with mem := writeAll s.wl.mem ws }
    some ⟨wl, some wl.mem, [], []⟩
  | .unusedCall ws =>
    some { s with
      wl := { s.wl with mem := writeAll s.wl.mem ws }
      unhooked := s.unhooked ++ ws }
  | .store st =>
    if s.wl.wlPosition + entrySize ≤ writelogBytes then
      some { s with wl := hookedStore L s.wl st, logged := s.logged ++ [granule st.addr] }
    else none

/-- A process at its start, with `CP_INTERVAL` set to `k`. -/
def libInit (k : ℕ) (m : Mem) : LibState := ⟨⟨m, 0, ⟨k, 0, 0, 0⟩⟩, none, [], []⟩

/-- The condition on an event: stores are well placed, and calls without a hook stay off the log
    area and off the granules that are logged for the first time after them. -/
def LibClear (F : Frame L) (s : LibState) : LibEvent → Prop
  | .libcall _ => True
  | .unusedCall ws => ∀ w ∈ ws, Apart w.1 w.2.length L.wlData writelogBytes
  | .store st =>
    st.Ok F ∧ (granule st.addr ∈ s.logged ∨ Untouched s.unhooked (granule st.addr))

/-- **Restart agrees with the saved registers**: in every run of library calls and stores that
    meets the condition, a restart succeeds and gives every byte it puts back the value it had
    when the registers were last saved. -/
def RestartAgrees (k : ℕ) : Prop :=
  ∀ (L : Layout) (F : Frame L) (m : Mem) (es : List LibEvent) (s : LibState) (m₀ : Mem),
    Runs.Meets (LibClear F) (libStep L) (libInit k m) es →
    es.foldlM (libStep L) (libInit k m) = some s → s.saved = some m₀ →
    ∃ r, ltckptRestartHook F true s.wl = .ok r ∧
      ∀ x, granule x ∈ r.restored → r.state.mem x = m₀ x

/-- The log of the last saved registers, kept while every checkpoint is taken. -/
def LibInv (F : Frame L) (s : LibState) : Prop :=
  s.wl.ctx.checkpointInterval = 1 ∧
  ∀ m₀, s.saved = some m₀ →
    OpenLog L m₀ s.wl s.logged s.unhooked ∧ ∀ g ∈ s.logged, Apart g 8 F.lo F.size

/-- **Step.** With `CP_INTERVAL` 1 every event that meets the condition keeps `LibInv`. -/
theorem libStep_inv {s s' : LibState} {e : LibEvent} (h : LibInv F s) (he : LibClear F s e)
    (hstep : libStep L s e = some s') : LibInv F s' := by
  obtain ⟨hk, hwin⟩ := h
  cases e with
  | libcall ws =>
    simp only [libStep, Option.some.injEq] at hstep
    subst hstep
    refine ⟨by simpa using hk, fun m₀ hm₀ => ?_⟩
    rw [Option.some.injEq] at hm₀
    subst hm₀
    exact ⟨OpenLog.start L (ltckptTopOfTheLoop_of_one _ hk), by simp⟩
  | unusedCall ws =>
    simp only [libStep, Option.some.injEq] at hstep
    subst hstep
    exact ⟨hk, fun m₀ hm₀ => ⟨(hwin m₀ hm₀).1.unhooked he, (hwin m₀ hm₀).2⟩⟩
  | store st =>
    obtain ⟨hok, hfirst⟩ := he
    obtain ⟨hroom, ⟨⟩⟩ := Option.ite_none_right_eq_some.mp hstep
    refine ⟨by simpa using hk, fun m₀ hm₀ => ?_⟩
    obtain ⟨hlog, hF⟩ := hwin m₀ hm₀
    refine ⟨hlog.hookedStore hok.restorable hfirst hroom, fun g hg => ?_⟩
    rcases List.mem_append.mp hg with hold | hnew
    · exact hF g hold
    · exact List.mem_singleton.mp hnew ▸ hok.apart_frame

/-- A byte in the granule of a well-placed store is outside the log area and the frame. -/
theorem Store.Ok.not_mem (h : s.Ok F) (hx : granule s.addr = granule x) :
    ¬ InLog L x ∧ ¬ InFrame F x :=
  ⟨(hx ▸ h.restorable).not_inLog, not_inFrame_of_apart (hx ▸ h.apart_frame)⟩

/-- A library call, a store, and a library call. -/
def skippedRun : List LibEvent := [.libcall [], .store (sampleStore 7), .libcall []]

/-- The write log after the first two events of `skippedRun`. -/
def storedOnce (k : ℕ) : WlState :=
  hookedStore sampleLayout (ltckptTopOfTheLoop (libInit k fun _ => 0).wl) (sampleStore 7)

/-- The first call finds an empty log, whether or not it takes a checkpoint. -/
theorem libInit_topOfTheLoop (k : ℕ) (m : Mem) :
    (ltckptTopOfTheLoop (libInit k m).wl).wlPosition = 0 := by
  rw [ltckptTopOfTheLoop_wlPosition]
  split <;> rfl

theorem libInit_room (k : ℕ) (m : Mem) :
    (ltckptTopOfTheLoop (libInit k m).wl).wlPosition + entrySize ≤ writelogBytes := by
  rw [libInit_topOfTheLoop]
  decide

theorem skippedRun_eq (k : ℕ) :
    skippedRun.foldlM (libStep sampleLayout) (libInit k fun _ => 0) =
      some ⟨ltckptTopOfTheLoop (storedOnce k), some (ltckptTopOfTheLoop (storedOnce k)).mem, [],
        []⟩ := by
  show (libStep sampleLayout ⟨ltckptTopOfTheLoop (libInit k fun _ => 0).wl, some _, [], []⟩
    (.store (sampleStore 7)) >>= fun s => [LibEvent.libcall []].foldlM (libStep sampleLayout) s) = _
  rw [libStep, if_pos (libInit_room k _)]
  rfl

/-- No call of `skippedRun` is without a hook. -/
theorem skippedRun_clear (k : ℕ) : Runs.Meets (LibClear sampleFrame) (libStep sampleLayout)
    (libInit k fun _ => 0) skippedRun := by
  refine Runs.meets_cons trivial rfl ⟨⟨sampleStore_ok 7, .inr nofun⟩, fun s' _ => ?_⟩
  exact ⟨trivial, fun _ _ => trivial⟩

/-- The log opened at the first call holds the store. -/
theorem storedOnce_log (k : ℕ) : OpenLog sampleLayout (fun _ => 0) (storedOnce k)
    [granule (sampleStore 7).addr] [] := by
  have hlog := (OpenLog.start sampleLayout (libInit_topOfTheLoop k fun _ => 0)).hookedStore
    (s := sampleStore 7) (sampleStore_ok 7).restorable (.inr nofun) (libInit_room k _)
  rw [ltckptTopOfTheLoop_mem] at hlog
  exact hlog

/-- With any interval but 1 the second call takes no checkpoint. -/
theorem storedOnce_skips {k : ℕ} (hk : k ≠ 1) : ctxSkipsTol (storedOnce k).ctx := by
  have hone : ulong 1 = 1 := rfl
  simp only [storedOnce, hookedStore_ctx, ctxSkipsTol, ltckptTopOfTheLoop_checkpointInterval,
    ltckptTopOfTheLoop_numTols, libInit, Nat.zero_add, hone]
  -- 0 switches checkpoints off; from 2 on the first count is no multiple of the interval
  rcases Nat.lt_or_ge k 2 with hlt | hge
  · omega
  · right
    rw [Nat.mod_eq_of_lt (by omega)]
    decide

/-- With any interval but 1 the second library call of `skippedRun` saves registers but takes
    no checkpoint, so the restart undoes the store that came before it. -/
theorem skippedRun_restart {k : ℕ} (hk : k ≠ 1) :
    ∃ s m₀ r, skippedRun.foldlM (libStep sampleLayout) (libInit k fun _ => 0) = some s ∧
      s.saved = some m₀ ∧ ltckptRestartHook sampleFrame true s.wl = .ok r ∧
      granule 0x4001 ∈ r.restored ∧ m₀ 0x4001 = 7 ∧ r.state.mem 0x4001 = 0 := by
  have hok := sampleStore_ok 7
  obtain ⟨r, hr, -, -, hrestored, hmem⟩ := ((storedOnce_log k).topOfTheLoop
    (storedOnce_skips hk)).restart sampleFrame (by simpa using hok.apart_frame)
  refine ⟨_, _, r, skippedRun_eq k, rfl, hr, ?_, ?_, ?_⟩
  · rw [hrestored]
    exact List.mem_singleton_self _
  · rw [ltckptTopOfTheLoop_mem]
    rfl
  · exact hmem _ (hok.not_mem rfl).1 (hok.not_mem rfl).2 (.inl (List.mem_singleton_self _))

/-- **Only `CP_INTERVAL` 1 agrees with the saved registers**, beside library calls without a hook
    that meet the condition. -/
theorem restart_agrees_iff (k : ℕ) : RestartAgrees k ↔ k = 1 := by
  constructor
  · intro h
    by_contra hk
    -- the second call saves registers without a checkpoint, whatever the interval
    obtain ⟨s, m₀, r, hrun, hsaved, hr, hrestored, hm₀, hmem⟩ := skippedRun_restart hk
    obtain ⟨r', hr', hx⟩ := h sampleLayout sampleFrame _ _ s m₀ (skippedRun_clear k) hrun hsaved
    rw [hr, Except.ok.injEq] at hr'
    subst hr'
    have heq := hx 0x4001 hrestored
    rw [hmem, hm₀] at heq
    exact absurd heq (by decide)
  · rintro rfl L F m es s m₀ hclear hrun hsaved
    -- every call takes its checkpoint, so the saved memory is where the window started
    have hinv : LibInv F s := Runs.invariant_of_run
      (fun s e s' hs he hstep => libStep_inv hs he hstep)
      ⟨rfl, fun m₀ hm₀ => by cases hm₀⟩ hclear hrun
    obtain ⟨hlog, hF⟩ := hinv.2 m₀ hsaved
    obtain ⟨r, hr, -, -, hrestored, hmem⟩ := hlog.restart F hF
    refine ⟨r, hr, fun x hx => ?_⟩
    rw [hrestored, List.mem_reverse] at hx
    exact hmem x (hlog.restorable hx).not_inLog (not_inFrame_of_apart (hF _ hx)) (.inl hx)

/-- A library call, a call whose result is not used and that writes 5, and a store beside it. -/
def unusedRun : List LibEvent :=
  [.libcall [], .unusedCall [(0x4001, [5])], .store (sampleStore 7)]

/-- With `CP_INTERVAL` 2 the process resumes behind the second library call of `skippedRun`
    with the byte stored before it gone; and with `CP_INTERVAL` 1 it resumes behind the first
    call of `unusedRun` with the byte that the second has written. -/
theorem restart_disagrees_interval_two_and_unused_call :
    (∃ s m₀ r, skippedRun.foldlM (libStep sampleLayout) (libInit 2 fun _ => 0) = some s ∧
      s.saved = some m₀ ∧ ltckptRestartHook sampleFrame true s.wl = .ok r ∧
      granule 0x4001 ∈ r.restored ∧ m₀ 0x4001 = 7 ∧ r.state.mem 0x4001 = 0) ∧
    ∃ s m₀ r, unusedRun.foldlM (libStep sampleLayout) (libInit 1 fun _ => 0) = some s ∧
      s.saved = some m₀ ∧ ltckptRestartHook sampleFrame true s.wl = .ok r ∧
      granule 0x4001 ∈ r.restored ∧ m₀ 0x4001 = 0 ∧ r.state.mem 0x4001 = 5 := by
  refine ⟨skippedRun_restart (by decide), ?_⟩
  -- the log opened behind the second call: nothing was logged before it
  let wl : WlState :=
    { ltckptTopOfTheLoop (libInit 1 fun _ => 0).wl with
      mem := writeAll (fun _ => 0) [(0x4001, [5])] }
  have hok := sampleStore_ok 7
  have hpos : wl.wlPosition = 0 := libInit_topOfTheLoop 1 fun _ => 0
  have hlog := (OpenLog.start sampleLayout hpos).hookedStore hok.restorable (.inr nofun)
    (libInit_room 1 fun _ => 0)
  obtain ⟨r, hr, -, -, hrestored, hmem⟩ := hlog.restart sampleFrame (by simpa using hok.apart_frame)
  refine ⟨⟨hookedStore sampleLayout wl (sampleStore 7), some fun _ => 0,
    [granule (sampleStore 7).addr], [(0x4001, [5])]⟩, _, r, ?_, rfl, hr, ?_, rfl, ?_⟩
  · show libStep sampleLayout ⟨wl, some fun _ => 0, [], _⟩ (.store (sampleStore 7)) >>= pure = _
    rw [libStep, if_pos (libInit_room 1 fun _ => 0)]
    rfl
  · rw [hrestored]
    exact List.mem_singleton_self _
  · have hbyte := hmem 0x4001 (hok.not_mem rfl).1 (hok.not_mem rfl).2
      (.inl (List.mem_singleton_self _))
    exact hbyte.trans (by decide +kernel)

end Firestarter.Ltckpt
