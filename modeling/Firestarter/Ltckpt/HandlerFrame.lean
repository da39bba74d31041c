import Firestarter.Ltckpt.MemcpyCover

namespace Firestarter.Ltckpt

open FlatMem

/-!
# Rollback on the handler's own stack

`rcvry_signal_register_handler` asks for `SA_SIGINFO | SA_NODEFER` and no alternate stack, so
the handler and the restart hook run just below the stack pointer of the crash.  With
`LTCKPT_LIBCALL_INTERVALS` the restart hook copies stack entries back too.

* `stackStep` — calls, returns and calls of the store hook on one stack;
* `HandlerFrames` — where the handler's frames come to lie;
* `WindowInv.framesKept_iff`, `rollback_keeps_handler_frames_iff` — the replay stays off those
  frames exactly when no hook since the checkpoint was called for the memory they now occupy.
-/

variable {L : Layout}

/-! ### Calls and returns -/

/-- The write log, the stack pointer and the sizes of the live frames, innermost first. -/
structure StackState where
  wl : WlState
  sp : ℕ
  frames : List ℕ

/-- Calls, returns and calls of the store hook: for a store, or with the address of the return
    address of a function that has just called the top-of-the-loop hook (`instrumentRetAddr`). -/
inductive StackEvent
  | call (size : ℕ)
  | ret
  | store (s : Store)
  | retAddr (addr : ℕ) (addr_lt : addr < 2 ^ 64)

/-- The store that the hook is called for; none is made behind the hook for a return address. -/
def StackEvent.hooked? : StackEvent → Option Store
  | .store s => some s
  | .retAddr addr h => some (touch addr h)
  | _ => none

/-- One event on a stack that grows down to `limit`.  A store writes no stack memory below the
    stack pointer, and finds room in the log.  The return address ends the innermost frame. -/
def stackStep (L : Layout) (limit : ℕ) (s : StackState) : StackEvent → Option StackState
  | .call n =>
    if limit + n ≤ s.sp then some { s with sp := s.sp - n, frames := n :: s.frames } else none
  | .ret =>
    match s.frames with
    | [] => none
    | n :: frames => some { s with sp := s.sp + n, frames := frames }
  | .store st =>
    if s.wl.wlPosition + entrySize ≤ writelogBytes ∧
        (st.dst + st.bytes.length ≤ limit ∨ s.sp ≤ st.dst) then
      some { s with wl := hookedStore L s.wl st }
    else none
  | .retAddr addr _ =>
    match s.frames with
    | [] => none
    | n :: _ =>
      if s.wl.wlPosition + entrySize ≤ writelogBytes ∧ addr + 8 = s.sp + n then
        some { s with wl := ltckptStoreHook L s.wl addr }
      else none

/-- The stores that the hook is called for in a run, in order. -/
def hookedStores (es : List StackEvent) : List Store := es.filterMap StackEvent.hooked?

/-- A call of the hook appends to the log; calls and returns do not touch it. -/
theorem stackStep_cases {limit : ℕ} {s s' : StackState} {e : StackEvent}
    (h : stackStep L limit s e = some s') :
    (e.hooked? = none ∧ s'.wl = s.wl) ∨
    (∃ st, e.hooked? = some st ∧ s.wl.wlPosition + 16 ≤ writelogBytes ∧
      s'.wl = hookedStore L s.wl st) := by
  cases e with
  | call n =>
    obtain ⟨-, ⟨⟩⟩ := Option.ite_none_right_eq_some.mp h
    exact .inl ⟨rfl, rfl⟩
  | ret =>
    simp only [stackStep] at h
    split at h
    · cases h
    · cases h
      exact .inl ⟨rfl, rfl⟩
  | store st =>
    obtain ⟨hroom, ⟨⟩⟩ := Option.ite_none_right_eq_some.mp h
    exact .inr ⟨st, rfl, hroom.1, rfl⟩
  | retAddr addr hlt =>
    simp only [stackStep] at h
    split at h
    · cases h
    · obtain ⟨hroom, ⟨⟩⟩ := Option.ite_none_right_eq_some.mp h
      exact .inr ⟨touch addr hlt, rfl, hroom.1, (hookedStore_touch L s.wl addr hlt).symm⟩

/-- **Run.** A run extends the window by exactly the granules its hooks are called for. -/
theorem stackRun_window {limit : ℕ} {m₀ : Mem} {s s' : StackState} {es : List StackEvent}
    {log : List Entry} (hwin : WindowInv L m₀ s.wl log)
    (hok : ∀ st ∈ hookedStores es, Restorable L (granule st.addr))
    (hrun : es.foldlM (stackStep L limit) s = some s') :
    ∃ log', log'.map Entry.addr =
        log.map Entry.addr ++ (hookedStores es).map (fun st => granule st.addr) ∧
      WindowInv L m₀ s'.wl log' := by
  induction es generalizing s log with
  | nil =>
    simp only [List.foldlM_nil, Option.pure_def, Option.some.injEq] at hrun
    exact ⟨log, by simp [hookedStores], hrun ▸ hwin⟩
  | cons e es ih =>
    obtain ⟨s₁, hstep, htail⟩ := Runs.run_cons.mp hrun
    -- only a call of the hook moves the window
    obtain ⟨hnone, hwl⟩ | ⟨st, hst, hroom, hwl⟩ := stackStep_cases hstep
    · rw [hookedStores, List.filterMap_cons_none hnone] at hok ⊢
      exact ih (hwl ▸ hwin) hok htail
    · rw [hookedStores, List.filterMap_cons_some hst] at hok ⊢
      obtain ⟨hst, hrest⟩ := List.forall_mem_cons.mp hok
      have hpos := hwin.represents.position
      have hwin' := hwin.hookedStore hst (by omega)
      obtain ⟨log', haddr, hinv⟩ := ih (hwl ▸ hwin') hrest htail
      refine ⟨log', ?_, hinv⟩
      rw [haddr, List.map_append, List.append_assoc]
      rfl

/-! ### The handler's frames -/

/-- The frames of `rcvry_signal_action` and of everything it calls, below the stack pointer of
    the crash, with the restart hook's frame among them. -/
structure HandlerFrames (L : Layout) (sp : ℕ) where
  lo : ℕ
  size : ℕ
  restart : Frame L
  below_sp : lo + size ≤ sp
  restart_mem : lo ≤ restart.lo ∧ restart.lo + restart.size ≤ lo + size

/-- The restart hook runs to its end with all asserts met and an empty log, and none of the
    regions it put back lies in the handler's frames. -/
def FramesKept {sp : ℕ} (H : HandlerFrames L sp) (st : WlState) : Prop :=
  ∃ r, ltckptRestartHook H.restart true st = .ok r ∧ r.code = 0 ∧ r.state.wlPosition = 0 ∧
    ∀ g ∈ r.restored, Apart g 8 H.lo H.size

/-- A window's replay keeps the handler's frames exactly when all its granules are apart from
    them. -/
theorem WindowInv.framesKept_iff {m₀ : Mem} {st : WlState} {log : List Entry} {sp : ℕ}
    (H : HandlerFrames L sp) (h : WindowInv L m₀ st log) :
    FramesKept H st ↔ ∀ g ∈ log.map Entry.addr, Apart g 8 H.lo H.size := by
  constructor
  · rintro ⟨r, hr, -, -, hkept⟩ g hg
    -- whatever the walk overwrites, it puts back every entry of the log
    obtain ⟨m, -, -, heq⟩ := ltckptRestartHook_eq H.restart h.represents
    rw [heq] at hr
    split at hr
    · cases hr
    · rw [Except.ok.injEq] at hr
      subst hr
      exact hkept g (by simpa using hg)
  · intro hF
    -- the restart hook's frame is one of the handler's, so the entries are apart from it too
    obtain ⟨m, -, heq⟩ := ltckptRestartHook_spec H.restart h.represents (fun e he =>
      (hF _ (List.mem_map_of_mem he)).mono le_rfl le_rfl H.restart_mem.1 H.restart_mem.2)
    exact ⟨_, heq, rfl, rfl, fun g hg => hF g (by simpa using hg)⟩

/-- **When rollback keeps the handler's frames.** For every run of calls, returns and calls of the
    store hook from a window's start to a crash, the restart hook meets its asserts and stays off
    the handler's frames exactly when no hook of the run was called for a granule of the stack
    memory these frames occupy after the crash. -/
theorem rollback_keeps_handler_frames_iff (limit : ℕ) (s s' : StackState)
    (es : List StackEvent) (H : HandlerFrames L s'.sp) (hstart : s.wl.wlPosition = 0)
    (hrun : es.foldlM (stackStep L limit) s = some s')
    (hok : ∀ st ∈ hookedStores es, Restorable L (granule st.addr)) :
    FramesKept H s'.wl ↔
      ∀ st ∈ hookedStores es, Apart (granule st.addr) 8 H.lo H.size := by
  obtain ⟨log, haddr, hwin⟩ := stackRun_window (WindowInv.start L hstart) hok hrun
  rw [List.map_nil, List.nil_append] at haddr
  rw [hwin.framesKept_iff H, haddr]
  exact List.forall_mem_map

/-- A function takes a checkpoint and logs its return address; it then calls another one, which
    stores through a pointer into its own frame at `a` and returns. -/
def returnedCallee (a : ℕ) (h : a < 2 ^ 64) : List StackEvent :=
  [.retAddr 0x90f8 (by decide), .call 0x1000, .store (byteStore a 7 h), .ret]

/-- The process behind the checkpoint: stack pointer `0x9000` in a frame of 256 bytes. -/
def beforeCallee : StackState :=
  ⟨ltckptTopOfTheLoop ⟨fun _ => 0, 0, ⟨1, 0, 0, 0⟩⟩, 0x9000, [0x100]⟩

/-- The handler's frames of a crash at stack pointer `0x9000`, the restart hook's locals from
    `0x8000` on. -/
def handlerAt : HandlerFrames sampleLayout 0x9000 where
  lo := 0x8000
  size := 0x1000
  restart := sampleFrame
  below_sp := by decide
  restart_mem := by decide

/-- The process after `returnedCallee`. -/
def afterCallee (a : ℕ) (h : a < 2 ^ 64) : StackState :=
  { beforeCallee with
    wl := hookedStore sampleLayout (ltckptStoreHook sampleLayout beforeCallee.wl 0x90f8)
      (byteStore a 7 h) }

/-- The assert that ended a restart, if one did. -/
def failedAssert : Except RestartAssert Restarted → Option RestartAssert
  | .error a => some a
  | .ok _ => none

/-- The slot the callee used is where the restart hook now keeps `i`: its old content is
    copied over the counter and the hook's own assert fails. -/
theorem rollback_overwrites_handler_frame :
    (returnedCallee 0x8019 (by decide)).foldlM (stackStep sampleLayout 0x2000) beforeCallee =
      some (afterCallee 0x8019 (by decide)) ∧
    failedAssert (ltckptRestartHook handlerAt.restart true (afterCallee 0x8019 (by decide)).wl) =
      some .replayedAll ∧
    ¬ FramesKept handlerAt (afterCallee 0x8019 (by decide)).wl := by
  have hfail : failedAssert (ltckptRestartHook handlerAt.restart true
      (afterCallee 0x8019 (by decide)).wl) = some .replayedAll := by decide +kernel
  refine ⟨rfl, hfail, ?_⟩
  rintro ⟨r, hr, -⟩
  rw [hr] at hfail
  cases hfail

/-- Hooks for memory the frames do not reach are undone with the frames intact. -/
theorem rollback_keeps_handler_frames_below :
    FramesKept handlerAt (afterCallee 0x4001 (by decide)).wl := by
  have hstores : hookedStores (returnedCallee 0x4001 (by decide)) =
      [touch 0x90f8 (by decide), byteStore 0x4001 7 (by decide)] := rfl
  refine (rollback_keeps_handler_frames_iff 0x5000 beforeCallee (afterCallee 0x4001 (by decide))
    (returnedCallee 0x4001 (by decide)) handlerAt rfl rfl ?_).mpr ?_
  · simp only [hstores, List.forall_mem_cons, List.not_mem_nil, false_implies, implies_true,
      and_true]
    refine ⟨⟨by decide, by decide, by decide, by decide, by decide, by decide⟩, ?_⟩
    exact (sampleStore_ok 7).restorable
  · simp [hstores, Apart, touch, byteStore, granule, handlerAt]

end Firestarter.Ltckpt
