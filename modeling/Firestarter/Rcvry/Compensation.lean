import Firestarter.Rcvry.Actions

namespace Firestarter.Rcvry

open FlatMem

/-!
# What a recovery action releases

An action undoes a library call through other library calls.  Two questions are asked of it:
whether it looks at the value the call returned, and whether it releases the resource the call
acquired.

* `effects` — the library calls an action makes, or how it ends the process;
* `effects_slot` — the actions that dereference the return slot act on its present content;
* `compensation_acts_on_return_iff` — when that content still stands for the returned value;
* `releases_acquired_iff` — for each acquiring call, the results for which the action releases
  exactly what was acquired.
-/

/-! ### Effects -/

/-- The library calls an action made, or how it ended the process. -/
def effects : RaResult → List LibcCall ⊕ RaHalt
  | .ok (_, s) => .inl s.calls
  | .error h => .inr h

@[simp] theorem effects_ok (st : RaStatus) (s : RaState) : effects (.ok (st, s)) = .inl s.calls :=
  rfl

@[simp] theorem effects_error (h : RaHalt) : effects (.error h) = .inr h := rfl

@[simp] theorem effects_raEpilogue (ret : ℕ) (s : RaState) :
    effects (raEpilogue ret s) = .inl s.calls := rfl

@[simp] theorem effects_raEpilogueErrno (ret : ℕ) (err : Int) (s : RaState) :
    effects (raEpilogueErrno ret err s) = .inl s.calls := rfl

@[simp] theorem effects_ite {p : Prop} [Decidable p] (r r' : RaResult) :
    effects (if p then r else r') = if p then effects r else effects r' := by
  split <;> rfl

@[simp] theorem call_calls (s : RaState) (c : LibcCall) : (s.call c).calls = s.calls ++ [c] := rfl

/-- A prologue whose `argc` fits goes on. -/
theorem raPrologue_of_argc {argc : ℕ} {s : RaState} (h : s.rinfo.argc = argc)
    (body : RaState → RaResult) : raPrologue argc s body = body s := if_pos h

/-! ### One specification for each action

Each is for a state whose `argc` fits and whose history is empty; the answers of the C library
decide how the action goes on, not which calls it makes. -/

section ActionEffects

variable (libc : Libc) {s : RaState} (hcalls : s.calls = [])
include hcalls

theorem freePointee_calls (hargv : s.rinfo.argv0 ≠ 0) :
    (freePointee s).calls = if readLE s.mem s.rinfo.argv0 8 = 0 then []
      else [.free (readLE s.mem s.rinfo.argv0 8)] := by
  unfold freePointee
  by_cases hp : readLE s.mem s.rinfo.argv0 8 = 0
  · rw [if_neg (fun h => h.2 hp), if_pos hp, hcalls]
  · rw [if_pos ⟨hargv, hp⟩, if_neg hp, call_calls, hcalls, List.nil_append]

theorem effects_raUndoMalloc (hargc : s.rinfo.argc = 1) (hargv : s.rinfo.argv0 ≠ 0) :
    effects (raUndoMalloc s) = .inl (if readLE s.mem s.rinfo.argv0 8 = 0 then []
      else [.free (readLE s.mem s.rinfo.argv0 8)]) := by
  rw [raUndoMalloc, raPrologue_of_argc hargc, effects_raEpilogueErrno,
    freePointee_calls hcalls hargv]

theorem effects_raUndoMemalign (hargc : s.rinfo.argc = 1) (hargv : s.rinfo.argv0 ≠ 0) :
    effects (raUndoMemalign s) = .inl (if readLE s.mem s.rinfo.argv0 8 = 0 then []
      else [.free (readLE s.mem s.rinfo.argv0 8)]) := by
  rw [raUndoMemalign, raPrologue_of_argc hargc, effects_raEpilogue,
    freePointee_calls hcalls hargv]

theorem effects_raCloseSocket (hargc : s.rinfo.argc = 3) :
    effects (raCloseSocket libc s) =
      if 0 < cInt s.rinfo.argv0 then .inl [.close (cInt s.rinfo.argv0)]
      else .inr .invalidSocketDescriptor := by
  simp [raCloseSocket, raPrologue_of_argc hargc, hcalls]

theorem effects_raClose (hargc : s.rinfo.argc = 3) :
    effects (raClose libc s) = .inl (if 0 < cInt (readLE s.mem s.rinfo.argv0 4)
      then [.close (cInt (readLE s.mem s.rinfo.argv0 4))] else []) := by
  rw [apply_ite Sum.inl]
  simp [raClose, raPrologue_of_argc hargc, hcalls]

theorem effects_raDlclose (hargc : s.rinfo.argc = 1) (hargv : s.rinfo.argv0 ≠ 0) :
    effects (raDlclose libc s) = .inl [.dlclose (readLE s.mem s.rinfo.argv0 8)] := by
  simp [raDlclose, raPrologue_of_argc hargc, hcalls, hargv]

theorem effects_raUndoFork (hargc : s.rinfo.argc = 1) :
    effects (raUndoFork libc s) =
      if cInt (readLE s.mem s.rinfo.argv0 4) = 0 then .inr (.exit 0)
      else .inl (if 0 < cInt (readLE s.mem s.rinfo.argv0 4)
        then [.waitpid (cInt (readLE s.mem s.rinfo.argv0 4))] else []) := by
  rw [apply_ite Sum.inl]
  simp [raUndoFork, raPrologue_of_argc hargc, hcalls]

theorem effects_raUndoAddrinfo (hargc : s.rinfo.argc = 2) (hargv : s.rinfo.argv0 ≠ 0) :
    effects (raUndoAddrinfo s) = .inl [.freeaddrinfo (readLE s.mem s.rinfo.argv0 8)] := by
  simp [raUndoAddrinfo, raPrologue_of_argc hargc, hcalls, hargv]

theorem effects_raUndoMkdir (hargc : s.rinfo.argc = 2) :
    effects (raUndoMkdir libc s) = .inl [.rmdir s.rinfo.argv0] := by
  simp [raUndoMkdir, raPrologue_of_argc hargc, hcalls]

theorem effects_raUndoMmap (hargc : s.rinfo.argc = 3) :
    effects (raUndoMmap libc s) = .inl [.munmap s.rinfo.argv0 (ptrOfInt (cInt s.rinfo.argv1))] := by
  simp [raUndoMmap, raPrologue_of_argc hargc, hcalls]

theorem effects_raUndoMutex (c : ℕ → LibcCall) (hargc : s.rinfo.argc = 2) :
    effects (raUndoMutex libc c s) = .inl [c s.rinfo.argv0] := by
  simp [raUndoMutex, raPrologue_of_argc hargc, hcalls]

end ActionEffects

/-! ### The return slot -/

/-- A user of the call's value, as far as `rewireCallUsage` tells them apart. -/
inductive CallUser
  /-- a store into an alloca; `loadedFirst` says that the alloca's first user is a load -/
  | storeToAlloca (alloca : ℕ) (loadedFirst : Bool)
  /-- any other user -/
  | other
  deriving DecidableEq

/-- `HybRcvryPass::rewireCallUsage`: the slot the call's value goes to, given the alloca the
    pass would create.  The program's own alloca is reused when the first user stores into it
    and its own first user is a load; a call without users is not instrumented. -/
def rewireCallUsage (users : List CallUser) (newAlloca : ℕ) : Option ℕ :=
  match users with
  | [] => none
  | .storeToAlloca alloca true :: _ => some alloca
  | _ => some newAlloca

/-- The types whose action takes the address of the return slot to find what to release. -/
def slotTypes : List RcvryType := [.undoMalloc, .close, .dlclose, .undoFork]

/-- The bytes of the slot: a pointer for `malloc` and `dlopen`, an `int` otherwise. -/
def slotWidth : RcvryType → ℕ
  | .undoMalloc | .dlclose => 8
  | _ => 4

/-- What releasing the returned value `v` means: free the pointer, close the descriptor, close
    the handle, leave the child or wait for it. -/
def releaseOf (ty : RcvryType) (v : ℕ) : List LibcCall ⊕ RaHalt :=
  match ty with
  | .undoMalloc => .inl (if v = 0 then [] else [.free v])
  | .close => .inl (if 0 < cInt v then [.close (cInt v)] else [])
  | .dlclose => .inl [.dlclose v]
  | .undoFork =>
    if cInt v = 0 then .inr (.exit 0)
    else .inl (if 0 < cInt v then [.waitpid (cInt v)] else [])
  | _ => .inl []

/-- A site's action at the moment of the crash. -/
structure SiteState (stm : List String) (cs : CallSite) where
  state : RaState
  old : RcvryInfo
  rinfo_eq : state.rinfo = setRecoveryAction stm old cs
  calls_eq : state.calls = []

/-- **The action sees the slot, not the returned value.**  Whatever the C library answers, the
    actions of `slotTypes` release the present content of the slot. -/
theorem effects_slot (libc : Libc) {stm : List String} {cs : CallSite} (s : SiteState stm cs)
    (hty : rcvryTypeOf cs.libFunc ∈ slotTypes) (hslot : cs.retVal ≠ 0) :
    effects (rcvryActionsMap libc s.state.rinfo.rcvryType s.state) =
      releaseOf (rcvryTypeOf cs.libFunc)
        (readLE s.state.mem cs.retVal (slotWidth (rcvryTypeOf cs.libFunc))) := by
  have hinfo := s.rinfo_eq
  have hcalls := s.calls_eq
  generalize s.state = st at hinfo hcalls ⊢
  simp only [setRecoveryAction] at hinfo
  generalize rcvryTypeOf cs.libFunc = ty at hty hinfo ⊢
  have hargv : ty ∈ slotTypes → st.rinfo.argv0 = cs.retVal := by
    intro h
    simp only [slotTypes, List.mem_cons, List.not_mem_nil, or_false] at h
    rw [hinfo]
    rcases h with rfl | rfl | rfl | rfl <;> rfl
  rw [← hargv hty] at hslot ⊢
  simp only [slotTypes, List.mem_cons, List.not_mem_nil, or_false] at hty
  rcases hty with rfl | rfl | rfl | rfl
  · have hargc : st.rinfo.argc = 1 := by rw [hinfo]; rfl
    have hmap : rcvryActionsMap libc st.rinfo.rcvryType = raUndoMalloc := by rw [hinfo]; rfl
    rw [hmap, effects_raUndoMalloc hcalls hargc hslot]
    rfl
  · have hargc : st.rinfo.argc = 3 := by rw [hinfo]; rfl
    have hmap : rcvryActionsMap libc st.rinfo.rcvryType = raClose libc := by rw [hinfo]; rfl
    rw [hmap, effects_raClose libc hcalls hargc]
    rfl
  · have hargc : st.rinfo.argc = 1 := by rw [hinfo]; rfl
    have hmap : rcvryActionsMap libc st.rinfo.rcvryType = raDlclose libc := by rw [hinfo]; rfl
    rw [hmap, effects_raDlclose libc hcalls hargc hslot]
    rfl
  · have hargc : st.rinfo.argc = 1 := by rw [hinfo]; rfl
    have hmap : rcvryActionsMap libc st.rinfo.rcvryType = raUndoFork libc := by rw [hinfo]; rfl
    rw [hmap, effects_raUndoFork libc hcalls hargc]
    rfl

/-- The values that an action of type `ty` releases alike. -/
def SameRelease (ty : RcvryType) (v w : ℕ) : Prop :=
  match ty with
  | .undoMalloc | .dlclose => w = v
  | .close => cInt w = cInt v ∨ (cInt v ≤ 0 ∧ cInt w ≤ 0)
  | .undoFork => cInt w = cInt v ∨ (cInt v < 0 ∧ cInt w < 0)
  | _ => True

theorem releaseOf_eq_iff {ty : RcvryType} (hty : ty ∈ slotTypes) (v w : ℕ) :
    releaseOf ty w = releaseOf ty v ↔ SameRelease ty v w := by
  simp only [slotTypes, List.mem_cons, List.not_mem_nil, or_false] at hty
  rcases hty with rfl | rfl | rfl | rfl
  · -- free: a null pointer is released by doing nothing
    simp only [releaseOf, SameRelease, Sum.inl.injEq]
    grind
  · -- close: only positive descriptors are closed
    simp only [releaseOf, SameRelease, Sum.inl.injEq]
    grind
  · simp [releaseOf, SameRelease]
  · -- fork: the child exits, the parent waits, a failed fork has nothing to undo
    simp only [releaseOf, SameRelease]
    grind

/-- **Compensation and the returned value.** The call returned `v` into the slot, the window
    then performed the writes `ws`.  The action releases `v` exactly when the writes leave the
    slot with a value that is released alike. -/
theorem compensation_acts_on_return_iff (libc : Libc) {stm : List String} {cs : CallSite}
    (s : SiteState stm cs) (hty : rcvryTypeOf cs.libFunc ∈ slotTypes) (hslot : cs.retVal ≠ 0)
    (m : Mem) (v : ℕ) (ws : List (ℕ × List UInt8))
    (hmem : s.state.mem =
      writeAll (writeLE m cs.retVal (slotWidth (rcvryTypeOf cs.libFunc)) v) ws) :
    effects (rcvryActionsMap libc s.state.rinfo.rcvryType s.state) =
        releaseOf (rcvryTypeOf cs.libFunc) v ↔
      SameRelease (rcvryTypeOf cs.libFunc) v
        (readLE (writeAll (writeLE m cs.retVal (slotWidth (rcvryTypeOf cs.libFunc)) v) ws)
          cs.retVal (slotWidth (rcvryTypeOf cs.libFunc))) := by
  rw [effects_slot libc s hty hslot, releaseOf_eq_iff hty, hmem]

/-- `open` into the program's own variable at `0x4000`. -/
def openSite : CallSite := ⟨"open", fun _ => 0, 0x4000⟩

/-- The process at a crash in the window of `cs`, with memory `m`. -/
def atCrash (cs : CallSite) (m : Mem) : SiteState [] cs where
  state :=
    { mem := m
      rinfo := setRecoveryAction [] ⟨.invalid, .invalid, 0, 0, 0, 0⟩ cs
      gate := .undolog
      rcvryReturnValue := 0
      rcvryReturnAddr := 0x5000
      errno := 0
      calls := [] }
  old := ⟨.invalid, .invalid, 0, 0, 0, 0⟩
  rinfo_eq := rfl
  calls_eq := rfl

/-- `fd = open(..)` returned 5 and the window assigned 7 to `fd`: the variable is the slot, and
    the action closes 7. -/
theorem compensation_closes_other_descriptor :
    rewireCallUsage [.storeToAlloca 0x4000 true] 0x6000 = some openSite.retVal ∧
    effects (rcvryActionsMap (fun _ => 0) RcvryType.close
      (atCrash openSite
        (writeAll (writeLE (fun _ => 0) 0x4000 4 5) [(0x4000, [7, 0, 0, 0])])).state) =
      .inl [.close 7] ∧
    releaseOf .close 5 = .inl [.close 5] := by
  decide +kernel

/-- With a write next to the variable the descriptor that `open` returned is closed. -/
theorem compensation_acts_on_return_open :
    effects (rcvryActionsMap (fun _ => 0) RcvryType.close
      (atCrash openSite
        (writeAll (writeLE (fun _ => 0) 0x4000 4 5) [(0x4004, [7, 0, 0, 0])])).state) =
      .inl [.close 5] :=
  (compensation_acts_on_return_iff (fun _ => 0) (atCrash openSite _) (by decide) (by decide)
    (fun _ => 0) 5 [(0x4004, [7, 0, 0, 0])] rfl).mpr (.inl (by decide +kernel))

/-! ### Resources -/

/-- What a process can hold. -/
inductive Resource
  | descriptor (fd : Int)
  | stream (file : ℕ)
  | block (ptr : ℕ)
  | mapping (addr len : ℕ)
  | addrList (res : ℕ)
  | directory (path : ℕ)
  | mutex (m : ℕ)
  | heldLock (m : ℕ)
  | handle (h : ℕ)
  | child (pid : Int)
  deriving DecidableEq

/-- The resource a library call gives back. -/
def LibcCall.resource : LibcCall → Resource
  | .free ptr => .block ptr
  | .close fd => .descriptor fd
  | .dlclose h => .handle h
  | .waitpid pid => .child pid
  | .freeaddrinfo res => .addrList res
  | .rmdir path => .directory path
  | .munmap addr len => .mapping addr len
  | .mutexDestroy m => .mutex m
  | .mutexUnlock m => .heldLock m

/-- The resources an action gives back; one that ends the process gives back none. -/
def released : List LibcCall ⊕ RaHalt → List Resource
  | .inl calls => calls.map LibcCall.resource
  | .inr _ => []

/-- Library calls that acquire a resource and whose action releases one. -/
inductive AcquiringCall
  | accept | accept4 | socket | openFile | dup2 | fdopen | mmap | posixMemalign | getaddrinfo
  | mkdir | pthreadMutexInit | pthreadMutexLock
  deriving DecidableEq

/-- The name of the library function. -/
def AcquiringCall.libFunc : AcquiringCall → String
  | .accept => "accept"
  | .accept4 => "accept4"
  | .socket => "socket"
  | .openFile => "open"
  | .dup2 => "dup2"
  | .fdopen => "fdopen"
  | .mmap => "mmap"
  | .posixMemalign => "posix_memalign"
  | .getaddrinfo => "getaddrinfo"
  | .mkdir => "mkdir"
  | .pthreadMutexInit => "pthread_mutex_init"
  | .pthreadMutexLock => "pthread_mutex_lock"

/-- The type the pass configures for each of them. -/
def AcquiringCall.rcvryType : AcquiringCall → RcvryType
  | .accept | .accept4 => .closeSocket
  | .socket | .openFile | .dup2 => .close
  | .fdopen => .closeRetNull
  | .mmap => .undoMmap
  | .posixMemalign => .undoMemalign
  | .getaddrinfo => .undoAddrinfo
  | .mkdir => .undoMkdir
  | .pthreadMutexInit => .undoPthrdmutxInit
  | .pthreadMutexLock => .undoPthrdmutxLock

theorem rcvryTypeOf_libFunc (c : AcquiringCall) : rcvryTypeOf c.libFunc = c.rcvryType := by
  cases c <;> decide

/-- `MAP_FAILED`. -/
def mapFailed : ℕ := ptrOfInt (-1)

/-- The call at `cs` succeeded with result `ret`, leaving memory `m` (the return slot and the
    call's out-parameters filled in).  `accept` never returns the listening descriptor, `dup2`
    returns its second argument, and no mapping is larger than half the address space. -/
def Succeeded (c : AcquiringCall) (cs : CallSite) (ret : ℕ) (m : Mem) : Prop :=
  match c with
  | .accept | .accept4 =>
    readLE m cs.retVal 4 = ret ∧ 0 ≤ cInt ret ∧ cInt ret ≠ cInt (cs.arg 0)
  | .socket | .openFile => readLE m cs.retVal 4 = ret ∧ 0 ≤ cInt ret
  | .dup2 => readLE m cs.retVal 4 = ret ∧ 0 ≤ cInt ret ∧ cInt ret = cInt (cs.arg 1)
  | .fdopen => readLE m cs.retVal 8 = ret ∧ ret ≠ 0
  | .mmap => ret ≠ mapFailed ∧ 0 < cs.arg 1 ∧ cs.arg 1 < 2 ^ 63
  | .posixMemalign => cs.arg 0 ≠ 0
  | .getaddrinfo => cs.arg 3 ≠ 0
  | .mkdir | .pthreadMutexInit | .pthreadMutexLock => True

/-- What a successful call acquires.  `dup2(fd, fd)` creates nothing; `posix_memalign` of size
    0 may answer with a null pointer. -/
def acquired (c : AcquiringCall) (cs : CallSite) (ret : ℕ) (m : Mem) : List Resource :=
  match c with
  | .accept | .accept4 | .socket | .openFile => [.descriptor (cInt ret)]
  | .dup2 => if cInt (cs.arg 0) = cInt (cs.arg 1) then [] else [.descriptor (cInt ret)]
  | .fdopen => [.stream ret]
  | .mmap => [.mapping ret (cs.arg 1)]
  | .posixMemalign =>
    if readLE m (cs.arg 0) 8 = 0 then [] else [.block (readLE m (cs.arg 0) 8)]
  | .getaddrinfo => [.addrList (readLE m (cs.arg 3) 8)]
  | .mkdir => [.directory (cs.arg 0)]
  | .pthreadMutexInit => [.mutex (cs.arg 0)]
  | .pthreadMutexLock => [.heldLock (cs.arg 0)]

/-- The arguments and results for which the action gives back what the call acquired. -/
def ReleasesIts (c : AcquiringCall) (cs : CallSite) (ret : ℕ) : Prop :=
  match c with
  | .accept | .accept4 | .fdopen => False
  | .socket | .openFile => 0 < cInt ret
  | .dup2 => if cInt (cs.arg 0) = cInt (cs.arg 1) then cInt ret = 0 else 0 < cInt ret
  | .mmap => cs.arg 0 = ret ∧ cs.arg 1 < 2 ^ 31
  | .posixMemalign | .getaddrinfo | .mkdir | .pthreadMutexInit | .pthreadMutexLock => True

/-- A length survives the cast to `int` and back exactly when it is below `2 ^ 31`. -/
theorem ptrOfInt_cInt_eq_iff {n : ℕ} (hn : n < 2 ^ 63) : ptrOfInt (cInt n) = n ↔ n < 2 ^ 31 := by
  simp only [ptrOfInt, cInt, BitVec.toInt_eq_toNat_cond, BitVec.toNat_ofNat, BitVec.toNat_ofInt]
  split <;> omega

/-- The configuration of a site by its type. -/
theorem SiteState.rinfo_of_type {stm : List String} {cs : CallSite} (s : SiteState stm cs)
    {ty : RcvryType} (h : rcvryTypeOf cs.libFunc = ty) :
    s.state.rinfo = recoveryInfo (if cs.libFunc ∈ stm then .undolog else .invalid) s.old cs ty := by
  rw [s.rinfo_eq, setRecoveryAction, h]

/-- What the action of an acquiring call gives back, in terms of the call's arguments and of
    memory. -/
def givesBack (c : AcquiringCall) (cs : CallSite) (m : Mem) : List Resource :=
  match c with
  | .accept | .accept4 =>
    if 0 < cInt (cs.arg 0) then [.descriptor (cInt (cs.arg 0))] else []
  | .socket | .openFile | .dup2 | .fdopen =>
    if 0 < cInt (readLE m cs.retVal 4) then [.descriptor (cInt (readLE m cs.retVal 4))] else []
  | .mmap => [.mapping (cs.arg 0) (ptrOfInt (cInt (cs.arg 1)))]
  | .posixMemalign =>
    if readLE m (cs.arg 0) 8 = 0 then [] else [.block (readLE m (cs.arg 0) 8)]
  | .getaddrinfo => [.addrList (readLE m (cs.arg 3) 8)]
  | .mkdir => [.directory (cs.arg 0)]
  | .pthreadMutexInit => [.mutex (cs.arg 0)]
  | .pthreadMutexLock => [.heldLock (cs.arg 0)]

/-- The configured action and the specification of that action, put together. -/
theorem released_eq_givesBack (libc : Libc) (c : AcquiringCall) {stm : List String}
    {cs : CallSite} (hname : cs.libFunc = c.libFunc) (ret : ℕ) (s : SiteState stm cs)
    (hsucc : Succeeded c cs ret s.state.mem) :
    released (effects (rcvryActionsMap libc s.state.rinfo.rcvryType s.state)) =
      givesBack c cs s.state.mem := by
  have hinfo := s.rinfo_of_type (hname ▸ rcvryTypeOf_libFunc c)
  have hcalls := s.calls_eq
  generalize s.state = st at hinfo hcalls hsucc ⊢
  -- the configured fields, read off the call's type
  have harg : ∀ {α : Type} (f : RcvryInfo → α), f st.rinfo = f (recoveryInfo
      (if cs.libFunc ∈ stm then .undolog else .invalid) s.old cs c.rcvryType) :=
    fun f => congrArg f hinfo
  have hargc := harg RcvryInfo.argc
  have hargv := harg RcvryInfo.argv0
  have hargv1 := harg RcvryInfo.argv1
  rw [harg RcvryInfo.rcvryType]
  cases c with
  | accept | accept4 =>
    refine (congrArg released (effects_raCloseSocket libc hcalls hargc)).trans ?_
    rw [hargv, apply_ite released]
    rfl
  | socket | openFile | dup2 | fdopen =>
    refine (congrArg released (effects_raClose libc hcalls hargc)).trans ?_
    rw [hargv, apply_ite Sum.inl, apply_ite released]
    rfl
  | mmap =>
    refine (congrArg released (effects_raUndoMmap libc hcalls hargc)).trans ?_
    rw [hargv, hargv1]
    rfl
  | posixMemalign =>
    refine (congrArg released (effects_raUndoMemalign hcalls hargc (hargv ▸ hsucc))).trans ?_
    rw [hargv, apply_ite Sum.inl, apply_ite released]
    rfl
  | getaddrinfo =>
    refine (congrArg released (effects_raUndoAddrinfo hcalls hargc (hargv ▸ hsucc))).trans ?_
    rw [hargv]
    rfl
  | mkdir =>
    refine (congrArg released (effects_raUndoMkdir libc hcalls hargc)).trans ?_
    rw [hargv]
    rfl
  | pthreadMutexInit =>
    refine (congrArg released (effects_raUndoMutex libc hcalls .mutexDestroy hargc)).trans ?_
    rw [hargv]
    rfl
  | pthreadMutexLock =>
    refine (congrArg released (effects_raUndoMutex libc hcalls .mutexUnlock hargc)).trans ?_
    rw [hargv]
    rfl

/-- **Compensation releases what was acquired.** For every acquiring call, all arguments and
    every successful result, the action run right after the call gives back the resource the
    call acquired, and nothing else, exactly under `ReleasesIts`. -/
theorem releases_acquired_iff (libc : Libc) (c : AcquiringCall) {stm : List String}
    {cs : CallSite} (hname : cs.libFunc = c.libFunc) (ret : ℕ) (s : SiteState stm cs)
    (hsucc : Succeeded c cs ret s.state.mem) :
    released (effects (rcvryActionsMap libc s.state.rinfo.rcvryType s.state)) =
        acquired c cs ret s.state.mem ↔ ReleasesIts c cs ret := by
  rw [released_eq_givesBack libc c hname ret s hsucc]
  generalize s.state.mem = m at hsucc ⊢
  cases c with
  | accept | accept4 =>
    -- the descriptor closed is the one the program listens on
    obtain ⟨-, -, hne⟩ := hsucc
    simp only [givesBack, acquired, ReleasesIts, iff_false]
    split
    · simpa using hne.symm
    · simp
  | socket | openFile =>
    obtain ⟨rfl, hret⟩ := hsucc
    simp only [givesBack, acquired, ReleasesIts]
    split <;> simp_all
  | dup2 =>
    obtain ⟨rfl, hret, hnew⟩ := hsucc
    simp only [givesBack, acquired, ReleasesIts]
    split <;> split <;> simp_all
    all_goals omega
  | fdopen =>
    -- a stream is never a descriptor
    simp only [givesBack, acquired, ReleasesIts, iff_false]
    split <;> simp
  | mmap =>
    simp only [givesBack, acquired, ReleasesIts, List.cons.injEq, Resource.mapping.injEq, and_true,
      ptrOfInt_cInt_eq_iff hsucc.2.2]
  | posixMemalign | getaddrinfo | mkdir | pthreadMutexInit | pthreadMutexLock =>
    simp only [givesBack, acquired, ReleasesIts]

/-- `accept` on descriptor 3. -/
def acceptSite : CallSite := ⟨"accept", fun i => if i = 0 then 3 else 0, 0x4000⟩

/-- The process right after `accept` on the listening descriptor 3 returned 5. -/
def acceptedFive : RaState := (atCrash acceptSite (writeLE (fun _ => 0) 0x4000 4 5)).state

/-- The action closes the listening descriptor 3 and leaves 5 open. -/
theorem accept_releases_listening_descriptor :
    Succeeded .accept acceptSite 5 acceptedFive.mem ∧
    released (effects (rcvryActionsMap (fun _ => 0) acceptedFive.rinfo.rcvryType acceptedFive)) =
      [.descriptor 3] ∧
    acquired .accept acceptSite 5 acceptedFive.mem = [.descriptor 5] :=
  ⟨⟨by decide +kernel, by decide, by decide⟩, by decide +kernel, by decide⟩

/-- `open` returned 5: the action closes 5. -/
theorem releases_acquired_open :
    released (effects (rcvryActionsMap (fun _ => 0)
      (atCrash openSite (writeLE (fun _ => 0) 0x4000 4 5)).state.rinfo.rcvryType
      (atCrash openSite (writeLE (fun _ => 0) 0x4000 4 5)).state)) = [.descriptor 5] :=
  (releases_acquired_iff (fun _ => 0) .openFile
    (show openSite.libFunc = AcquiringCall.libFunc .openFile from rfl) 5
    (atCrash openSite (writeLE (fun _ => 0) 0x4000 4 5))
    ⟨by decide +kernel, by decide⟩).mpr (by show (0 : Int) < cInt 5; decide)

end Firestarter.Rcvry
