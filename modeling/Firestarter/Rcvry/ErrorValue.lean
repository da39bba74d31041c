import Firestarter.Rcvry.Compensation

namespace Firestarter.Rcvry

open FlatMem

/-!
# The error the application sees

The pass encodes an error for each library call in `argv`; the runtime's action decodes it into
`rcvry_return_value` and `errno`, and the window-entry gate reloads the former.

* `encodedRet`, `encodedErrno` — what `setRecoveryAction` encoded, by the position its type uses;
* `IsFailure` — the values a library call reports failure with;
* `Reports` — dispatching the configured type shows the application the configured error;
* `reports_configured_error_iff` — the types for which encoder and decoder agree.
-/

/-! ### What was encoded -/

/-- The return value among the arguments of a type that has one. -/
def encodedRet (i : RcvryInfo) : Option Int :=
  match i.rcvryType with
  | .setRetErrnoEacces | .setRetErrnoEnomem | .setRetErrnoEnospc | .setRetErrnoEbadf
  | .setRetErrnoEinval | .setRetErrnoEfault | .setRetErrnoEmfile | .setRetErrnoZstreamError
  | .setRetNullErrnoEnomem | .setRetNullErrnoEbadf => some (cInt i.argv0)
  | .close | .closeRetNull | .closeSocket => some (cInt i.argv1)
  | .undoAddrinfo | .undoPthrdmutxInit | .undoPthrdmutxLock => some (cInt i.argv1)
  | _ => none

/-- The errno among the arguments of a type that has one. -/
def encodedErrno (i : RcvryInfo) : Option Int :=
  match i.rcvryType with
  | .setRetErrnoEacces | .setRetErrnoEnomem | .setRetErrnoEnospc | .setRetErrnoEbadf
  | .setRetErrnoEinval | .setRetErrnoEfault | .setRetErrnoEmfile | .setRetErrnoZstreamError
  | .setRetNullErrnoEnomem | .setRetNullErrnoEbadf | .undoMkdir => some (cInt i.argv1)
  | .close | .closeRetNull | .closeSocket | .undoMmap => some (cInt i.argv2)
  | _ => none

/-! ### Failure values -/

/-- How a library call reports failure. -/
inductive RetClass
  /-- with `NULL` -/
  | pointer
  /-- with `MAP_FAILED` -/
  | mapping
  /-- with a negative value -/
  | status
  /-- with a positive error code -/
  | errorCode
  deriving DecidableEq

/-- The calls of the table that return a pointer. -/
def pointerCalls : List String :=
  ["calloc", "dlopen", "dlsym", "fdopen", "fopen64", "getenv", "getgrnam", "getpwnam",
    "localtime", "malloc", "opendir", "readdir64", "realloc", "setlocale", "strstr"]

/-- The class of each library call. -/
def retClass (libFunc : String) : RetClass :=
  if libFunc ∈ ["mmap", "mmap64"] then .mapping
  else if libFunc ∈ pointerCalls then .pointer
  else if libFunc ∈ ["posix_memalign", "pthread_mutex_init", "pthread_mutex_lock",
    "pthread_mutex_trylock"] then .errorCode
  else .status

/-- `v`, reloaded by the gate, is a failure value: the encoded one where the type encodes one. -/
def IsFailure (c : RetClass) (enc : Option Int) (v : ℕ) : Prop :=
  match c with
  | .pointer => v = 0
  | .mapping => v = mapFailed
  | .status => ∃ e < 0, v = ptrOfInt e ∧ ∀ e' ∈ enc, e = e'
  | .errorCode => ∃ e > 0, v = ptrOfInt e ∧ ∀ e' ∈ enc, e = e'

/-- **The application sees the configured error.** For all arguments, memories and answers of
    the C library, dispatching the site trips no `argc` assertion, and after a successful
    action the reloaded value is a failure value of the call and the errno the encoded one. -/
def Reports (libFunc : String) : Prop :=
  ∀ (libc : Libc) (stm : List String) (cs : CallSite) (s : SiteState stm cs),
    cs.libFunc = libFunc →
    rcvryActionsMap libc s.state.rinfo.rcvryType s.state ≠ .error .argcMismatch ∧
    ∀ s', rcvryDispatch libc s.state = .ok s' →
      IsFailure (retClass libFunc) (encodedRet s.state.rinfo) s'.rcvryReturnValue ∧
      ∀ e ∈ encodedErrno s.state.rinfo, s'.errno = e

/-! ### What each action leaves -/

/-- The action trips no `argc` assertion, and when it succeeds it leaves `ret` and `err`. -/
def Leaves (r : RaResult) (ret : ℕ) (err : Int) : Prop :=
  r ≠ .error .argcMismatch ∧
  ∀ s', r = .ok (.ok, s') → s'.rcvryReturnValue = ret ∧ s'.errno = err

theorem Leaves.epilogue (ret : ℕ) (s : RaState) : Leaves (raEpilogue ret s) ret s.errno := by
  refine ⟨by simp [raEpilogue], fun s' h => ?_⟩
  simp only [raEpilogue, Except.ok.injEq, Prod.mk.injEq, true_and] at h
  exact h ▸ ⟨rfl, rfl⟩

theorem Leaves.epilogueErrno (ret : ℕ) (err : Int) (s : RaState) :
    Leaves (raEpilogueErrno ret err s) ret err := Leaves.epilogue ret _

theorem Leaves.fail (s : RaState) (ret : ℕ) (err : Int) : Leaves (.ok (.fail, s)) ret err :=
  ⟨by simp, fun s' h => by simp at h⟩

theorem Leaves.halt {h : RaHalt} (hne : h ≠ .argcMismatch) (ret : ℕ) (err : Int) :
    Leaves (.error h) ret err :=
  ⟨by simpa using hne, fun s' h => by simp at h⟩

theorem Leaves.ite {p : Prop} [Decidable p] {r r' : RaResult} {ret : ℕ} {err : Int}
    (h : Leaves r ret err) (h' : Leaves r' ret err) : Leaves (if p then r else r') ret err := by
  split
  · exact h
  · exact h'

section ActionLeaves

variable (libc : Libc) {s : RaState}

theorem raSetRetErrno_leaves (h : s.rinfo.argc = 2) :
    Leaves (raSetRetErrno s) (ptrOfInt (cInt s.rinfo.argv0)) eACCES := by
  rw [raSetRetErrno, raPrologue_of_argc h]
  exact .epilogueErrno ..

theorem raUndoMalloc_leaves (h : s.rinfo.argc = 1) : Leaves (raUndoMalloc s) 0 eNOMEM := by
  rw [raUndoMalloc, raPrologue_of_argc h]
  exact .epilogueErrno ..

theorem raUndoMemalign_leaves (h : s.rinfo.argc = 1) :
    Leaves (raUndoMemalign s) (ptrOfInt eNOMEM) s.errno := by
  rw [raUndoMemalign, raPrologue_of_argc h]
  have herr : (freePointee s).errno = s.errno := by
    unfold freePointee
    split <;> rfl
  exact herr ▸ .epilogue ..

theorem raClose_leaves (h : s.rinfo.argc = 3) :
    Leaves (raClose libc s) (ptrOfInt (cInt s.rinfo.argv1)) (cInt s.rinfo.argv2) := by
  rw [raClose, raPrologue_of_argc h]
  exact .ite (.ite (.fail ..) (.epilogueErrno ..)) (.epilogueErrno ..)

theorem raUndoFork_leaves (h : s.rinfo.argc = 1) :
    Leaves (raUndoFork libc s) (ptrOfInt (-1)) eNOMEM := by
  rw [raUndoFork, raPrologue_of_argc h]
  exact .ite (.halt (by decide) ..) (.ite (.ite (.fail ..) (.epilogueErrno ..)) (.fail ..))

theorem raUndoAddrinfo_leaves (h : s.rinfo.argc = 2) :
    Leaves (raUndoAddrinfo s) (ptrOfInt (cInt s.rinfo.argv1)) s.errno := by
  rw [raUndoAddrinfo, raPrologue_of_argc h]
  have herr : (if s.rinfo.argv0 ≠ 0 then
      s.call (.freeaddrinfo (readLE s.mem s.rinfo.argv0 8)) else s).errno = s.errno := by
    split <;> rfl
  exact herr ▸ .epilogue ..

theorem raUndoMkdir_leaves (h : s.rinfo.argc = 2) :
    Leaves (raUndoMkdir libc s) (ptrOfInt (-1)) (cInt s.rinfo.argv1) := by
  rw [raUndoMkdir, raPrologue_of_argc h]
  exact .ite (.fail ..) (.epilogueErrno ..)

theorem raUndoMmap_leaves (h : s.rinfo.argc = 3) :
    Leaves (raUndoMmap libc s) (ptrOfInt (-1)) (cInt s.rinfo.argv2) := by
  rw [raUndoMmap, raPrologue_of_argc h]
  exact .ite (.fail ..) (.epilogueErrno ..)

theorem raUndoMutex_leaves (c : ℕ → LibcCall) (h : s.rinfo.argc = 2) :
    Leaves (raUndoMutex libc c s) (ptrOfInt (cInt s.rinfo.argv1)) s.errno := by
  rw [raUndoMutex, raPrologue_of_argc h]
  exact .ite (.fail ..) (.epilogue ..)

end ActionLeaves

/-! ### The table -/

/-- The types of the table other than `RCVRY_TYPE_FAIL` for which encoder and decoder agree. -/
def faithfulTypes : List RcvryType :=
  [.setRetErrnoEacces, .undoMalloc, .undoMemalign, .undoRealloc, .close, .closeRetNull, .undoFork,
    .undoAddrinfo, .undoMkdir, .undoMmap, .undoPthrdmutxInit, .undoPthrdmutxLock]

/-- The types of the table whose action is `rcvry_ra_set_ret_errno` with an errno that is not
    `EACCES`. -/
def otherErrnoTypes : List RcvryType :=
  [.setRetErrnoEnomem, .setRetErrnoEnospc, .setRetErrnoEbadf, .setRetErrnoEinval,
    .setRetErrnoEfault, .setRetErrnoEmfile, .setRetErrnoZstreamError, .setRetNullErrnoEnomem,
    .setRetNullErrnoEbadf]

/-- The class of the calls with a type, where the table gives them one. -/
def classOf : RcvryType → Option RetClass
  | .undoMalloc | .undoRealloc | .closeRetNull | .dlclose => some .pointer
  | .undoMmap => some .mapping
  | .undoMemalign | .undoPthrdmutxInit | .undoPthrdmutxLock => some .errorCode
  | .setRetErrnoEacces | .close | .undoFork | .undoAddrinfo | .undoMkdir => some .status
  | _ => none

/-- Every row of the table has one of these types, and its call the class of the type. -/
theorem libCallRecoveryMap_types : ∀ p ∈ libCallRecoveryMap, p.2 ≠ .fail →
    (p.2 ∈ faithfulTypes ∨ p.2 ∈ otherErrnoTypes ∨ p.2 ∈ [.undoSetlocale, .closeSocket, .dlclose]) ∧
    ∀ c ∈ classOf p.2, retClass p.1 = c := by
  decide +kernel

variable {f : String}

/-- A call whose type is not `RCVRY_TYPE_FAIL` has a row. -/
theorem mem_libCallRecoveryMap (h : rcvryTypeOf f ≠ .fail) :
    (f, rcvryTypeOf f) ∈ libCallRecoveryMap := by
  unfold rcvryTypeOf at h ⊢
  cases hl : libCallRecoveryMap.lookup f with
  | none => simp [hl] at h
  | some ty =>
    obtain ⟨l₁, l₂, heq, -⟩ := List.lookup_eq_some_iff.mp hl
    rw [heq]
    simp

/-- The row of a call, in terms of the call. -/
theorem rcvryTypeOf_row (h : rcvryTypeOf f ≠ .fail) :
    (rcvryTypeOf f ∈ faithfulTypes ∨ rcvryTypeOf f ∈ otherErrnoTypes ∨
      rcvryTypeOf f ∈ [.undoSetlocale, .closeSocket, .dlclose]) ∧
    ∀ c ∈ classOf (rcvryTypeOf f), retClass f = c :=
  libCallRecoveryMap_types _ (mem_libCallRecoveryMap h) h

/-! ### Where encoder and decoder agree -/

/-- A call reports its error when its action leaves a failure value and the encoded errno. -/
theorem reports_of_leaves {ty : RcvryType} (hty : rcvryTypeOf f = ty) {c : RetClass}
    (hclass : retClass f = c) (hself : ∀ tx old cs, (recoveryInfo tx old cs ty).rcvryType = ty)
    (h : ∀ (libc : Libc) (tx : LtckptType) (old : RcvryInfo) (cs : CallSite) (st : RaState),
      ∃ ret err,
        Leaves (rcvryActionsMap libc ty { st with rinfo := recoveryInfo tx old cs ty }) ret err ∧
        IsFailure c (encodedRet (recoveryInfo tx old cs ty)) ret ∧
        ∀ e ∈ encodedErrno (recoveryInfo tx old cs ty), err = e) : Reports f := by
  intro libc stm cs s hcs
  have hinfo := s.rinfo_of_type (hcs ▸ hty)
  have hself' : s.state.rinfo.rcvryType = ty := by rw [hinfo, hself]
  obtain ⟨ret, err, hleaves, hret, herr⟩ := h libc _ s.old cs s.state
  rw [← hinfo] at hleaves hret herr
  rw [hself', hclass]
  refine ⟨hleaves.1, fun s' hs' => ?_⟩
  have hok : rcvryActionsMap libc ty s.state = .ok (.ok, s') := by
    unfold rcvryDispatch at hs'
    rw [hself'] at hs'
    split at hs'
    · rename_i heq
      rw [heq]
      cases hs'
      rfl
    · cases hs'
    · cases hs'
  obtain ⟨hr, he⟩ := hleaves.2 s' hok
  rw [hr, he]
  exact ⟨hret, herr⟩

/-- Rows of `faithfulTypes` report their error. -/
theorem reports_of_faithful (hf : rcvryTypeOf f ∈ faithfulTypes) : Reports f := by
  have hclass := (rcvryTypeOf_row (f := f) fun hfail => absurd (hfail ▸ hf) (by decide)).2
  have only {a : Int} : ∀ e ∈ some a, a = e := fun _ => Option.some.inj
  have unset {a : Int} : ∀ e ∈ (none : Option Int), a = e := fun _ h => by cases h
  generalize hty : rcvryTypeOf f = ty at hf hclass
  simp only [faithfulTypes, List.mem_cons, List.not_mem_nil, or_false] at hf
  rcases hf with rfl | rfl | rfl | rfl | rfl | rfl | rfl | rfl | rfl | rfl | rfl | rfl <;>
    refine reports_of_leaves hty (hclass _ rfl) (fun _ _ _ => rfl) fun libc tx old cs st => ?_
  · -- `SET_RET_ERRNO_EACCES`
    exact ⟨_, _, raSetRetErrno_leaves rfl, ⟨-1, by decide, rfl, by rintro _ ⟨⟩; rfl⟩, only⟩
  · -- `UNDO_MALLOC`
    exact ⟨_, _, raUndoMalloc_leaves rfl, rfl, unset⟩
  · -- `UNDO_MEMALIGN`
    exact ⟨_, _, raUndoMemalign_leaves rfl, ⟨eNOMEM, by decide, rfl, unset⟩, unset⟩
  · -- `UNDO_REALLOC`: the action never succeeds
    exact ⟨0, 0, Leaves.fail _ 0 0, rfl, unset⟩
  · -- `CLOSE`
    exact ⟨_, _, raClose_leaves libc rfl, ⟨-1, by decide, rfl, by rintro _ ⟨⟩; rfl⟩, only⟩
  · -- `CLOSE_RET_NULL`
    have hnull : ptrOfInt (cInt (constantInt 0)) = 0 := by decide
    exact ⟨_, _, raClose_leaves libc rfl, hnull, only⟩
  · -- `UNDO_FORK`
    exact ⟨_, _, raUndoFork_leaves libc rfl, ⟨-1, by decide, rfl, unset⟩, unset⟩
  · -- `UNDO_ADDRINFO`
    exact ⟨_, _, raUndoAddrinfo_leaves rfl, ⟨eaiMEMORY, by decide, rfl, only⟩, unset⟩
  · -- `UNDO_MKDIR`
    exact ⟨_, _, raUndoMkdir_leaves libc rfl, ⟨-1, by decide, rfl, unset⟩, only⟩
  · -- `UNDO_MMAP`
    exact ⟨_, _, raUndoMmap_leaves libc rfl, rfl, only⟩
  · -- `UNDO_PTHRDMUTX_INIT`
    exact ⟨_, _, raUndoMutex_leaves libc .mutexDestroy
        (s := { st with rinfo := recoveryInfo tx old cs .undoPthrdmutxInit }) rfl,
      ⟨eNOMEM, by decide, rfl, only⟩, unset⟩
  · -- `UNDO_PTHRDMUTX_LOCK`
    exact ⟨_, _, raUndoMutex_leaves libc .mutexUnlock
        (s := { st with rinfo := recoveryInfo tx old cs .undoPthrdmutxLock }) rfl,
      ⟨eINVAL, by decide, rfl, only⟩, unset⟩

/-! ### Where they disagree -/

/-- A call to `f` with all arguments 3. -/
def someSite (f : String) : CallSite := ⟨f, fun _ => 3, 0x4000⟩

/-- The process at a crash in the window of `someSite f`. -/
def someCrash (f : String) : RaState := (atCrash (someSite f) fun _ => 0).state

/-- The same, with the configuration of a type. -/
def crashOf (f : String) (ty : RcvryType) : RaState :=
  { someCrash f with
    rinfo := recoveryInfo .invalid ⟨.invalid, .invalid, 0, 0, 0, 0⟩ (someSite f) ty }

/-- What the report of an error says of that crash. -/
theorem Reports.at_crash (h : Reports f) {ty : RcvryType} (hty : rcvryTypeOf f = ty)
    (hself : (crashOf f ty).rinfo.rcvryType = ty) :
    rcvryActionsMap (fun _ => 0) ty (crashOf f ty) ≠ .error .argcMismatch ∧
    ∀ {s'}, rcvryActionsMap (fun _ => 0) ty (crashOf f ty) = .ok (.ok, s') →
      IsFailure (retClass f) (encodedRet (crashOf f ty).rinfo) s'.rcvryReturnValue ∧
      ∀ e ∈ encodedErrno (crashOf f ty).rinfo, s'.errno = e := by
  have hcrash : (atCrash (someSite f) fun _ => 0).state = crashOf f ty := by
    rw [← hty]
    rfl
  obtain ⟨hargc, hok⟩ := h (fun _ => 0) [] (someSite f) (atCrash (someSite f) fun _ => 0) rfl
  rw [hcrash] at hargc hok
  rw [hself] at hargc
  exact ⟨hargc, fun hrun => hok _ (by rw [rcvryDispatch, hself, hrun])⟩

/-- `rcvry_ra_set_ret_errno` succeeds and answers `EACCES` to whatever errno was encoded. -/
theorem not_reports_of_otherErrno (hf : rcvryTypeOf f ∈ otherErrnoTypes) : ¬ Reports f := by
  intro h
  generalize hty : rcvryTypeOf f = ty at hf
  -- nine types, one action: none of them encodes the errno it answers with
  obtain ⟨hself, hmap, hargc, e, he, hne⟩ : (crashOf f ty).rinfo.rcvryType = ty ∧
      rcvryActionsMap (fun _ => 0) ty = raSetRetErrno ∧ (crashOf f ty).rinfo.argc = 2 ∧
      ∃ e ∈ encodedErrno (crashOf f ty).rinfo, e ≠ eACCES := by
    simp only [otherErrnoTypes, List.mem_cons, List.not_mem_nil, or_false] at hf
    rcases hf with rfl | rfl | rfl | rfl | rfl | rfl | rfl | rfl | rfl <;>
      exact ⟨rfl, rfl, rfl, _, rfl, by simp only [crashOf, recoveryInfo, setRetErrno]; decide⟩
  have hrun : rcvryActionsMap (fun _ => 0) ty (crashOf f ty) =
      raEpilogueErrno (ptrOfInt (cInt (crashOf f ty).rinfo.argv0)) eACCES (crashOf f ty) := by
    rw [hmap, raSetRetErrno, raPrologue_of_argc hargc]
  exact hne (((h.at_crash hty hself).2 hrun).2 e he).symm

/-- `setlocale` is configured with one argument and dispatched to an action that asserts two. -/
theorem not_reports_of_setlocale (hty : rcvryTypeOf f = .undoSetlocale) : ¬ Reports f :=
  fun h => (h.at_crash hty rfl).1 rfl

/-- `rcvry_ra_close_socket` takes the errno from the position of the return value. -/
theorem not_reports_of_closeSocket (hty : rcvryTypeOf f = .closeSocket) : ¬ Reports f := by
  intro h
  have hrun : rcvryActionsMap (fun _ => 0) .closeSocket (crashOf f .closeSocket) =
      raEpilogueErrno (ptrOfInt (-1)) (-1) ((crashOf f .closeSocket).call (.close 3)) := rfl
  have herr := ((h.at_crash hty rfl).2 hrun).2 _ rfl
  -- the action's errno is the encoded return value, and no encoded errno is -1
  have hne : cInt (constantInt (closeSocketErrno f)) ≠ -1 := by
    unfold closeSocketErrno
    split
    · decide
    · split <;> decide
  exact hne herr.symm

/-- `rcvry_ra_dlclose` answers a `dlopen` with -1 instead of `NULL`. -/
theorem not_reports_of_dlclose (hty : rcvryTypeOf f = .dlclose) (hclass : retClass f = .pointer) :
    ¬ Reports f := by
  intro h
  have hrun : rcvryActionsMap (fun _ => 0) .dlclose (crashOf f .dlclose) =
      raEpilogue (ptrOfInt (-1))
        ((crashOf f .dlclose).call (.dlclose (readLE (crashOf f .dlclose).mem 0x4000 8))) := rfl
  have hret := ((h.at_crash hty rfl).2 hrun).1
  rw [hclass] at hret
  exact absurd (show ptrOfInt (-1) = 0 from hret) (by decide)

/-- **Encoder and decoder agree exactly on `faithfulTypes`.** For every library call that is not
    marked to fail, the application sees the configured error for all arguments, memories and
    answers of the C library exactly when the call's type is one of them. -/
theorem reports_configured_error_iff (f : String) (hf : rcvryTypeOf f ≠ .fail) :
    Reports f ↔ rcvryTypeOf f ∈ faithfulTypes := by
  refine ⟨fun h => ?_, reports_of_faithful⟩
  obtain ⟨hrow, hclass⟩ := rcvryTypeOf_row hf
  rcases hrow with hok | herr | hother
  · exact hok
  · exact absurd h (not_reports_of_otherErrno herr)
  · simp only [List.mem_cons, List.not_mem_nil, or_false] at hother
    rcases hother with hty | hty | hty
    · exact absurd h (not_reports_of_setlocale hty)
    · exact absurd h (not_reports_of_closeSocket hty)
    · exact absurd h (not_reports_of_dlclose hty (hclass .pointer (by rw [hty]; rfl)))

/-- `malloc` reports its error. -/
theorem reports_configured_error_malloc : Reports "malloc" :=
  (reports_configured_error_iff "malloc" (by decide)).mpr (by decide)

/-- `close` is configured with `ENOMEM`; after a successful action errno is `EACCES`. -/
theorem close_reports_eacces :
    ¬ Reports "close" ∧
    encodedErrno (someCrash "close").rinfo = some eNOMEM ∧
    (rcvryDispatch (fun _ => 0) (someCrash "close")).map RaState.errno = .ok eACCES := by
  refine ⟨not_reports_of_otherErrno (by decide), by decide +kernel, rfl⟩

end Firestarter.Rcvry
