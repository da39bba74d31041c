import Firestarter.Rcvry.Tables

namespace Firestarter.Rcvry

open FlatMem

/-!
# Recovery actions (`rcvry_actions.c`, `rcvry_dispatch.c`)

Each action checks `argc`, undoes the library call through other library calls, and leaves an
error for the application: `rcvry_return_value`, sometimes `errno`, and a closed gate.

* `RaState` — what the actions read and write, with the history of library calls they make;
* `ra…` — the actions, one definition for each function of the source;
* `rcvryActionsMap`, `rcvryDispatch` — the table and the dispatcher;
* `rcvryDispatch_mem` — the only memory a dispatch writes.
-/

/-! ### State and outcomes -/

/-- The library calls that actions make. -/
inductive LibcCall
  | free (ptr : ℕ)
  | close (fd : Int)
  | dlclose (handle : ℕ)
  | waitpid (pid : Int)
  | freeaddrinfo (res : ℕ)
  | rmdir (path : ℕ)
  | munmap (addr len : ℕ)
  | mutexDestroy (mutex : ℕ)
  | mutexUnlock (mutex : ℕ)
  deriving DecidableEq, Repr

/-- What the C library answers to each call. -/
abbrev Libc := LibcCall → Int

/-- The state an action works on; `rinfo` and `gate` are those of the current site. -/
structure RaState where
  mem : Mem
  rinfo : RcvryInfo
  gate : LtckptType
  rcvryReturnValue : ℕ
  rcvryReturnAddr : ℕ
  errno : Int
  calls : List LibcCall

/-- How an action ends the process. -/
inductive RaHalt
  | argcMismatch
  | invalidSocketDescriptor
  | nullHandle
  | nullAction
  | exit (code : Int)
  deriving DecidableEq, Repr

/-- `RCVRY_E_OK` and `RCVRY_E_FAIL`. -/
inductive RaStatus
  | ok | fail
  deriving DecidableEq, Repr

/-- An action returns a status, or ends the process. -/
abbrev RaResult := Except RaHalt (RaStatus × RaState)

/-- Record a library call. -/
def RaState.call (s : RaState) (c : LibcCall) : RaState := { s with calls := s.calls ++ [c] }

/-- `operate_libcall_gate` with `RCVRY_CLOSE_GATE_AFTER`, which the Makefile always sets. -/
def operateLibcallGate (s : RaState) : RaState := { s with gate := rcvryLibcallGateClose }

/-! ### Prologue and epilogue -/

/-- `RCVRY_RA_PROLOGUE`: assert `argc`, then go on. -/
def raPrologue (argc : ℕ) (s : RaState) (body : RaState → RaResult) : RaResult :=
  if s.rinfo.argc = argc then body s else .error .argcMismatch

/-- `RCVRY_RA_EPILOGUE`: the return value, the gate, and `*(int*)rcvry_return_addr`. -/
def raEpilogue (ret : ℕ) (s : RaState) : RaResult :=
  let s := operateLibcallGate { s with rcvryReturnValue := ret }
  .ok (.ok, { s with mem := writeLE s.mem s.rcvryReturnAddr 4 s.rcvryReturnValue })

/-- `RCVRY_RA_EPILOGUE_ERRNO`. -/
def raEpilogueErrno (ret : ℕ) (err : Int) (s : RaState) : RaResult :=
  raEpilogue ret { s with errno := err }

/-! ### The actions -/

variable (libc : Libc)

/-- `rcvry_ra_noop`. -/
def raNoop (s : RaState) : RaResult := raEpilogue (ptrOfInt (-1)) (operateLibcallGate s)

/-- `rcvry_ra_fail`. -/
def raFail (s : RaState) : RaResult := .ok (.fail, operateLibcallGate s)

/-- `rcvry_ra_set_ret_errno`: the errno is `EACCES` whatever `argv[1]` holds. -/
def raSetRetErrno (s : RaState) : RaResult :=
  raPrologue 2 s fun s => raEpilogueErrno (ptrOfInt (cInt s.rinfo.argv0)) eACCES s

/-- `if (NULL != argv[0]) … if (NULL != *ptr) free(*ptr)`. -/
def freePointee (s : RaState) : RaState :=
  if s.rinfo.argv0 ≠ 0 ∧ readLE s.mem s.rinfo.argv0 8 ≠ 0 then
    s.call (.free (readLE s.mem s.rinfo.argv0 8))
  else s

/-- `rcvry_ra_undo_malloc`. -/
def raUndoMalloc (s : RaState) : RaResult :=
  raPrologue 1 s fun s => raEpilogueErrno 0 eNOMEM (freePointee s)

/-- `rcvry_ra_undo_memalign`. -/
def raUndoMemalign (s : RaState) : RaResult :=
  raPrologue 1 s fun s => raEpilogue (ptrOfInt eNOMEM) (freePointee s)

/-- `rcvry_ra_close_socket`: closes `argv[0]` and takes the errno from `argv[1]`. -/
def raCloseSocket (s : RaState) : RaResult :=
  raPrologue 3 s fun s =>
    let fd := cInt s.rinfo.argv0
    let setErrno := cInt s.rinfo.argv1
    if fd > 0 then
      if libc (.close fd) = -1 then .ok (.fail, s.call (.close fd))
      else raEpilogueErrno (ptrOfInt (-1)) setErrno (s.call (.close fd))
    else .error .invalidSocketDescriptor

/-- `rcvry_ra_close`: closes the descriptor that `argv[0]` points to, if it is positive. -/
def raClose (s : RaState) : RaResult :=
  raPrologue 3 s fun s =>
    let fd := cInt (readLE s.mem s.rinfo.argv0 4)
    let setRetval := cInt s.rinfo.argv1
    let setErrno := cInt s.rinfo.argv2
    if fd > 0 then
      if libc (.close fd) = -1 then .ok (.fail, s.call (.close fd))
      else raEpilogueErrno (ptrOfInt setRetval) setErrno (s.call (.close fd))
    else raEpilogueErrno (ptrOfInt setRetval) setErrno s

/-- `rcvry_ra_dlclose`. -/
def raDlclose (s : RaState) : RaResult :=
  raPrologue 1 s fun s =>
    if s.rinfo.argv0 = 0 then .error .nullHandle
    else
      let c := LibcCall.dlclose (readLE s.mem s.rinfo.argv0 8)
      if libc c ≠ 0 then .ok (.fail, s.call c) else raEpilogue (ptrOfInt (-1)) (s.call c)

/-- `rcvry_ra_undo_fork`. -/
def raUndoFork (s : RaState) : RaResult :=
  raPrologue 1 s fun s =>
    let ret := cInt (readLE s.mem s.rinfo.argv0 4)
    if ret = 0 then .error (.exit 0)
    else if ret > 0 then
      if libc (.waitpid ret) = -1 then .ok (.fail, s.call (.waitpid ret))
      else raEpilogueErrno (ptrOfInt (-1)) eNOMEM (s.call (.waitpid ret))
    else .ok (.fail, s)

/-- `rcvry_ra_undo_addrinfo`. -/
def raUndoAddrinfo (s : RaState) : RaResult :=
  raPrologue 2 s fun s =>
    raEpilogue (ptrOfInt (cInt s.rinfo.argv1))
      (if s.rinfo.argv0 ≠ 0 then s.call (.freeaddrinfo (readLE s.mem s.rinfo.argv0 8)) else s)

/-- `rcvry_ra_undo_mkdir`. -/
def raUndoMkdir (s : RaState) : RaResult :=
  raPrologue 2 s fun s =>
    let c := LibcCall.rmdir s.rinfo.argv0
    if libc c ≠ 0 then .ok (.fail, s.call c)
    else raEpilogueErrno (ptrOfInt (-1)) (cInt s.rinfo.argv1) (s.call c)

/-- `rcvry_ra_undo_mmap`: the length passes through an `int`. -/
def raUndoMmap (s : RaState) : RaResult :=
  raPrologue 3 s fun s =>
    let c := LibcCall.munmap s.rinfo.argv0 (ptrOfInt (cInt s.rinfo.argv1))
    if libc c = -1 then .ok (.fail, s.call c)
    else raEpilogueErrno (ptrOfInt (-1)) (cInt s.rinfo.argv2) (s.call c)

/-- The two mutex actions: undo through `c`, return the error code in `argv[1]`. -/
def raUndoMutex (c : ℕ → LibcCall) (s : RaState) : RaResult :=
  raPrologue 2 s fun s =>
    if libc (c s.rinfo.argv0) = -1 then .ok (.fail, s.call (c s.rinfo.argv0))
    else raEpilogue (ptrOfInt (cInt s.rinfo.argv1)) (s.call (c s.rinfo.argv0))

/-- `rcvry_ra_undo_pthread_mutex_init`. -/
def raUndoPthreadMutexInit (s : RaState) : RaResult := raUndoMutex libc .mutexDestroy s

/-- `rcvry_ra_undo_pthread_mutex_lock`. -/
def raUndoPthreadMutexLock (s : RaState) : RaResult := raUndoMutex libc .mutexUnlock s

/-! ### Dispatch -/

/-- `rcvry_actions_map` as `rcvry_map_actions` fills it; a type without an entry is a `NULL`
    function pointer. -/
def rcvryActionsMap : RcvryType → RaState → RaResult
  | .default | .fail | .undoRealloc => raFail
  | .noop | .hwTsx => raNoop
  | .setRetErrno | .setRetErrnoEacces | .setRetErrnoEnomem | .setRetErrnoEnospc
  | .setRetErrnoEbadf | .setRetErrnoEinval | .setRetErrnoEfault | .setRetErrnoEmfile
  | .setRetErrnoZstreamError | .setRetNullErrnoEnomem | .setRetNullErrnoEbadf
  | .undoSetlocale => raSetRetErrno
  | .undoMalloc => raUndoMalloc
  | .undoMemalign => raUndoMemalign
  | .closeSocket => raCloseSocket libc
  | .closeRetNull | .close => raClose libc
  | .dlclose => raDlclose libc
  | .undoFork => raUndoFork libc
  | .undoAddrinfo => raUndoAddrinfo
  | .undoMkdir => raUndoMkdir libc
  | .undoMmap => raUndoMmap libc
  | .undoPthrdmutxInit => raUndoPthreadMutexInit libc
  | .undoPthrdmutxLock => raUndoPthreadMutexLock libc
  | .invalid | .setRetNullErrno | .ckptBuffPread => fun _ => .error .nullAction

/-- `rcvry_dispatch`: an action that does not succeed ends the process with `exit(1)`. -/
def rcvryDispatch (s : RaState) : Except RaHalt RaState :=
  match rcvryActionsMap libc s.rinfo.rcvryType s with
  | .ok (.ok, s) => .ok s
  | .ok (.fail, _) => .error (.exit 1)
  | .error h => .error h

/-! ### What an action writes

No action writes memory but `*(int*)rcvry_return_addr`, in its epilogue. -/

/-- If the action succeeds, the memory is that of `s` with an `int` at `rcvry_return_addr`. -/
def WritesReturn (s : RaState) (r : RaResult) : Prop :=
  ∀ s', r = .ok (.ok, s') → ∃ v, s'.mem = writeLE s.mem s.rcvryReturnAddr 4 v

namespace WritesReturn

variable {s : RaState}

theorem epilogue {t : RaState} (ret : ℕ) (hmem : t.mem = s.mem)
    (haddr : t.rcvryReturnAddr = s.rcvryReturnAddr) : WritesReturn s (raEpilogue ret t) := by
  intro s' h
  simp only [raEpilogue, operateLibcallGate, Except.ok.injEq, Prod.mk.injEq, true_and] at h
  subst h
  exact ⟨ret, by rw [← hmem, ← haddr]⟩

theorem fail (t : RaState) : WritesReturn s (.ok (.fail, t)) := by
  intro s' h
  simp at h

theorem halt (e : RaHalt) : WritesReturn s (.error e) := by
  intro s' h
  simp at h

theorem ite {p : Prop} [Decidable p] {r r' : RaResult} (h : WritesReturn s r)
    (h' : WritesReturn s r') : WritesReturn s (if p then r else r') := by
  split
  · exact h
  · exact h'

theorem prologue {argc : ℕ} {body : RaState → RaResult} (h : WritesReturn s (body s)) :
    WritesReturn s (raPrologue argc s body) := ite h (halt _)

theorem freePointee_epilogue (ret : ℕ) (err : Int) :
    WritesReturn s (raEpilogue ret { freePointee s with errno := err }) := by
  refine epilogue ret ?_ ?_ <;> (unfold freePointee; split <;> rfl)

theorem setRetErrno : WritesReturn s (raSetRetErrno s) := by
  unfold raSetRetErrno
  refine prologue ?_
  exact epilogue _ rfl rfl

theorem undoMalloc : WritesReturn s (raUndoMalloc s) := by
  unfold raUndoMalloc
  refine prologue ?_
  exact freePointee_epilogue _ _

theorem undoMemalign : WritesReturn s (raUndoMemalign s) := by
  unfold raUndoMemalign
  refine prologue ?_
  exact freePointee_epilogue _ (freePointee s).errno

theorem closeSocket : WritesReturn s (raCloseSocket libc s) := by
  unfold raCloseSocket
  refine prologue ?_
  exact ite (ite (fail _) (epilogue _ rfl rfl)) (halt _)

theorem close : WritesReturn s (raClose libc s) := by
  unfold raClose
  refine prologue ?_
  exact ite (ite (fail _) (epilogue _ rfl rfl)) (epilogue _ rfl rfl)

theorem dlclose : WritesReturn s (raDlclose libc s) := by
  unfold raDlclose
  refine prologue ?_
  exact ite (halt _) (ite (fail _) (epilogue _ rfl rfl))

theorem undoFork : WritesReturn s (raUndoFork libc s) := by
  unfold raUndoFork
  refine prologue ?_
  exact ite (halt _) (ite (ite (fail _) (epilogue _ rfl rfl)) (fail _))

theorem undoAddrinfo : WritesReturn s (raUndoAddrinfo s) := by
  unfold raUndoAddrinfo
  refine prologue ?_
  exact epilogue _ (by split <;> rfl) (by split <;> rfl)

theorem undoMkdir : WritesReturn s (raUndoMkdir libc s) := by
  unfold raUndoMkdir
  refine prologue ?_
  exact ite (fail _) (epilogue _ rfl rfl)

theorem undoMmap : WritesReturn s (raUndoMmap libc s) := by
  unfold raUndoMmap
  refine prologue ?_
  exact ite (fail _) (epilogue _ rfl rfl)

theorem undoMutex (c : ℕ → LibcCall) : WritesReturn s (raUndoMutex libc c s) := by
  unfold raUndoMutex
  refine prologue ?_
  exact ite (fail _) (epilogue _ rfl rfl)

/-- **Every entry of the table** writes the return address only. -/
theorem actionsMap (ty : RcvryType) : WritesReturn s (rcvryActionsMap libc ty s) := by
  cases ty with
  | default | fail | undoRealloc => exact WritesReturn.fail _
  | noop | hwTsx => exact epilogue _ rfl rfl
  | setRetErrno | setRetErrnoEacces | setRetErrnoEnomem | setRetErrnoEnospc | setRetErrnoEbadf
  | setRetErrnoEinval | setRetErrnoEfault | setRetErrnoEmfile | setRetErrnoZstreamError
  | setRetNullErrnoEnomem | setRetNullErrnoEbadf | undoSetlocale =>
    exact WritesReturn.setRetErrno
  | undoMalloc => exact WritesReturn.undoMalloc
  | undoMemalign => exact WritesReturn.undoMemalign
  | closeSocket => exact WritesReturn.closeSocket libc
  | closeRetNull | close => exact WritesReturn.close libc
  | dlclose => exact WritesReturn.dlclose libc
  | undoFork => exact WritesReturn.undoFork libc
  | undoAddrinfo => exact WritesReturn.undoAddrinfo
  | undoMkdir => exact WritesReturn.undoMkdir libc
  | undoMmap => exact WritesReturn.undoMmap libc
  | undoPthrdmutxInit | undoPthrdmutxLock => exact undoMutex libc _
  | invalid | setRetNullErrno | ckptBuffPread => exact halt _

end WritesReturn

/-- A dispatch that returns has written an `int` at `rcvry_return_addr` and nothing else. -/
theorem rcvryDispatch_mem {s s' : RaState} (h : rcvryDispatch libc s = .ok s') :
    ∃ v, s'.mem = writeLE s.mem s.rcvryReturnAddr 4 v := by
  unfold rcvryDispatch at h
  split at h
  · rename_i t heq
    cases h
    exact WritesReturn.actionsMap libc _ _ heq
  · cases h
  · cases h

end Firestarter.Rcvry
