import Firestarter.Lib.FlatMem

namespace Firestarter.Rcvry

open FlatMem

/-!
# What the pass configures for a library call (`RcvryHelper.h`)

* `libCallRecoveryMap` — the recovery type of each library call;
* `setRecoveryAction` — what the instrumentation stores into `rcvry_info[site_id]` behind the
  call: the type, `argc` and `argv`, with the widths of the casts it emits.
-/

/-! ### C integers -/

/-- `(int)` of a 64-bit word: its low 32 bits, signed. -/
def cInt (n : ℕ) : Int := (BitVec.ofNat 32 n).toInt

/-- `(void *)` of an `int`: sign-extended to 64 bits. -/
def ptrOfInt (i : Int) : ℕ := (BitVec.ofInt 64 i).toNat

/-- `inttoptr` of the 32-bit constant `CONSTANT_INT(i)`: zero-extended. -/
def constantInt (i : Int) : ℕ := (BitVec.ofInt 32 i).toNat

def eBADF : Int := 9
def eNOMEM : Int := 12
def eACCES : Int := 13
def eINVAL : Int := 22
def eMFILE : Int := 24
def eNOSPC : Int := 28
def eaiMEMORY : Int := -10
def zSTREAMERROR : Int := -2

/-! ### Types -/

/-- `ltckpt_type_t`, in numeric order from 0. -/
inductive LtckptType
  | invalid | undolog | tsx | tsxEnd
  deriving DecidableEq, Repr

/-- `RCVRY_LIBCALL_GATE_CLOSE`, the number 0. -/
def rcvryLibcallGateClose : LtckptType := .invalid

/-- `rcvry_type_t`. -/
inductive RcvryType
  | invalid | default | noop | setRetErrno | setRetErrnoEacces | setRetErrnoEnomem
  | setRetErrnoEnospc | setRetErrnoEbadf | setRetErrnoEinval | setRetErrnoEfault
  | setRetErrnoEmfile | setRetErrnoZstreamError | setRetNullErrno | setRetNullErrnoEnomem
  | setRetNullErrnoEbadf | hwTsx | undoMalloc | undoMemalign | undoRealloc | undoSetlocale
  | closeSocket | closeRetNull | close | dlclose | undoFork | undoAddrinfo | undoMkdir | undoMmap
  | undoPthrdmutxInit | undoPthrdmutxLock | ckptBuffPread | fail
  deriving DecidableEq, Repr

/-- `RcvryHelper::init`: the inserts in source order.  `std::map::insert` keeps the first of
    two inserts with one key. -/
def libCallRecoveryMap : List (String × RcvryType) :=
   [("__fxstat", .setRetErrnoEnomem), ("__fxstat64", .setRetErrnoEnomem),
    ("__xstat", .setRetErrnoEnomem), ("accept", .closeSocket), ("accept4", .closeSocket),
    ("bind", .closeSocket), ("calloc", .undoMalloc), ("chdir", .setRetErrnoEacces),
    ("chmod", .setRetErrnoEacces), ("chown", .setRetErrnoEacces), ("closedir", .setRetErrnoEbadf),
    ("clock_gettime", .setRetErrnoEnomem), ("close", .setRetErrnoEnomem), ("connect", .closeSocket),
    ("deflate", .setRetErrnoZstreamError), ("deflateEnd", .setRetErrnoZstreamError),
    ("dlopen", .dlclose), ("dlsym", .fail), ("dup2", .close), ("epoll_create", .close),
    ("epoll_ctl", .setRetErrnoEinval), ("epoll_wait", .setRetErrnoEinval),
    ("event_add", .setRetErrnoEnomem), ("event_base_set", .setRetErrnoEnomem),
    ("event_del", .setRetErrnoEnomem), ("event_set", .setRetErrnoEnomem), ("fcntl", .fail),
    ("fstat64", .setRetErrnoEnomem), ("ftruncate64", .setRetErrnoEacces), ("fdopen", .closeRetNull),
    ("fopen64", .setRetNullErrnoEnomem), ("fork", .undoFork), ("fsync", .setRetErrnoEnospc),
    ("getaddrinfo", .undoAddrinfo), ("getenv", .setRetNullErrnoEnomem),
    ("getgrnam", .setRetNullErrnoEnomem), ("gethostname", .setRetErrnoEnomem),
    ("getloadavg", .setRetErrnoEnomem), ("getnameinfo", .setRetErrnoEnomem),
    ("getpeername", .setRetErrnoEnomem), ("getpwnam", .setRetErrnoEnomem),
    ("getrlimit64", .setRetErrnoEnomem), ("getsockname", .setRetErrnoEinval),
    ("getsockopt", .setRetErrnoEinval), ("gettimeofday", .setRetErrnoEnomem),
    ("initgroups", .setRetErrnoEnomem), ("listen", .closeSocket),
    ("localtime", .setRetNullErrnoEnomem), ("lseek", .setRetErrnoEinval),
    ("lseek64", .setRetErrnoEinval), ("lstat64", .setRetErrnoEnomem), ("malloc", .undoMalloc),
    ("mkdir", .undoMkdir), ("mktime", .setRetErrnoEnomem), ("mmap64", .undoMmap),
    ("mmap", .undoMmap), ("msync", .setRetErrnoEnomem), ("munmap", .setRetErrnoEnomem),
    ("open", .close), ("open64", .close), ("opendir", .setRetNullErrnoEbadf),
    ("pipe", .setRetErrnoEinval), ("poll", .setRetErrnoEnomem), ("posix_memalign", .undoMemalign),
    ("pread64", .setRetErrnoEinval), ("pthread_mutex_init", .undoPthrdmutxInit),
    ("pthread_mutex_lock", .undoPthrdmutxLock), ("pthread_mutex_trylock", .undoPthrdmutxLock),
    ("realloc", .undoRealloc), ("readv", .setRetErrnoEinval), ("readdir64", .setRetNullErrnoEbadf),
    ("recv", .setRetErrnoEnomem), ("recvmsg", .setRetErrnoEnomem), ("rename", .setRetErrnoEinval),
    ("sched_setaffinity", .setRetErrnoEinval), ("select", .setRetErrnoEnomem),
    ("sendmsg", .setRetErrnoEfault), ("setgid", .setRetErrnoEinval),
    ("setitimer", .setRetErrnoEinval), ("setlocale", .undoSetlocale),
    ("setpriority", .setRetErrnoEinval), ("setrlimit64", .setRetErrnoEinval),
    ("setsid", .setRetErrnoEnomem), ("setsockopt", .setRetErrnoEnomem),
    ("setuid", .setRetErrnoEinval), ("shutdown", .setRetErrnoEinval), ("socket", .close),
    ("socketpair", .setRetErrnoEmfile), ("stat64", .setRetErrnoEnomem),
    ("statfs64", .setRetErrnoEnomem), ("sysconf", .setRetErrnoEnomem), ("time", .setRetErrnoEfault),
    ("uname", .setRetErrnoEfault), ("usleep", .setRetErrnoEnomem), ("waitpid", .setRetErrnoEinval),
    ("pread64", .fail), ("pthread_cond_signal", .fail), ("pthread_cond_wait", .fail),
    ("read", .fail), ("semctl", .fail), ("shmctl", .fail), ("shmdt", .fail), ("strstr", .fail),
    ("sigaction", .fail), ("sigemptyset", .fail), ("utimes", .setRetErrnoEacces)]

/-- The recovery type chosen for a library function; one the map does not have fails. -/
def rcvryTypeOf (libFunc : String) : RcvryType := (libCallRecoveryMap.lookup libFunc).getD .fail

/-! ### Recovery information of a site -/

/-- The fields of `rcvry_info_t` that the actions read. -/
structure RcvryInfo where
  ltckptType : LtckptType
  rcvryType : RcvryType
  argc : ℕ
  argv0 : ℕ
  argv1 : ℕ
  argv2 : ℕ

/-- A library call in the instrumented program: the callee, its arguments as 64-bit words
    (an `int` zero-extended, as `RCVRY_TO_VOID_PTR` does), and the return slot. -/
structure CallSite where
  libFunc : String
  arg : ℕ → ℕ
  retVal : ℕ

/-- The errno of `RCVRY_TYPE_CLOSE`. -/
def closeErrno (libFunc : String) : Int := if libFunc = "dup2" then eBADF else eNOMEM

/-- The errno of `RCVRY_TYPE_CLOSE_SOCKET`. -/
def closeSocketErrno (libFunc : String) : Int :=
  if libFunc = "accept" then eINVAL else if libFunc = "connect" then eBADF else eNOMEM

/-- `RCVRY_SET_RET_ERRNO`. -/
def setRetErrno (tx : LtckptType) (ty : RcvryType) (ret err : Int) : RcvryInfo :=
  ⟨tx, ty, 2, constantInt ret, constantInt err, 0⟩

/-- `RcvryHelper::setRecoveryAction` for a call whose type is `ty`; `old` is what the site held
    before, which the `CKPT_BUFF_PREAD` branch leaves alone. -/
def recoveryInfo (tx : LtckptType) (old : RcvryInfo) (cs : CallSite) (ty : RcvryType) :
    RcvryInfo :=
  match ty with
  | .undoMalloc | .dlclose | .undoFork | .undoSetlocale => ⟨tx, ty, 1, cs.retVal, 0, 0⟩
  | .undoRealloc => ⟨tx, ty, 2, cs.retVal, cs.arg 0, 0⟩
  | .close => ⟨tx, ty, 3, cs.retVal, constantInt (-1), constantInt (closeErrno cs.libFunc)⟩
  | .closeRetNull => ⟨tx, ty, 3, cs.retVal, constantInt 0, constantInt eNOMEM⟩
  | .closeSocket =>
    ⟨tx, ty, 3, cs.arg 0, constantInt (-1), constantInt (closeSocketErrno cs.libFunc)⟩
  | .undoMemalign => ⟨tx, ty, 1, cs.arg 0, 0, 0⟩
  | .undoAddrinfo => ⟨tx, ty, 2, cs.arg 3, constantInt eaiMEMORY, 0⟩
  | .undoMkdir => ⟨tx, ty, 2, cs.arg 0, constantInt eNOMEM, 0⟩
  | .undoMmap => ⟨tx, ty, 3, cs.arg 0, cs.arg 1, constantInt eNOMEM⟩
  | .undoPthrdmutxInit => ⟨tx, ty, 2, cs.arg 0, constantInt eNOMEM, 0⟩
  | .undoPthrdmutxLock => ⟨tx, ty, 2, cs.arg 0, constantInt eINVAL, 0⟩
  | .setRetErrnoEnomem => setRetErrno tx ty (-1) eNOMEM
  | .setRetErrnoEnospc => setRetErrno tx ty (-1) eNOSPC
  | .setRetErrnoEinval => setRetErrno tx ty (-1) eINVAL
  | .setRetErrnoEacces => setRetErrno tx ty (-1) eACCES
  | .setRetErrnoEbadf => setRetErrno tx ty (-1) eBADF
  | .setRetErrnoEmfile => setRetErrno tx ty (-1) eMFILE
  | .setRetErrnoEfault => setRetErrno tx ty (-1) eBADF
  | .setRetErrnoZstreamError => setRetErrno tx ty zSTREAMERROR eINVAL
  | .setRetNullErrnoEnomem => setRetErrno tx ty 0 eNOMEM
  | .setRetNullErrnoEbadf => setRetErrno tx ty 0 eBADF
  | .ckptBuffPread => old
  | _ => ⟨tx, ty, 0, 0, 0, 0⟩

/-- `RcvryHelper::setRecoveryAction`, called with `TX_TYPE_INVALID`; `stmLibCalls` are the
    functions named on the command line, whose windows are undo-logged from the start. -/
def setRecoveryAction (stmLibCalls : List String) (old : RcvryInfo) (cs : CallSite) : RcvryInfo :=
  recoveryInfo (if cs.libFunc ∈ stmLibCalls then .undolog else .invalid) old cs
    (rcvryTypeOf cs.libFunc)

end Firestarter.Rcvry
