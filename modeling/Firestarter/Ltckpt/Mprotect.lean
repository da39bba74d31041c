import Mathlib.Data.List.Dedup
import Mathlib.Logic.Function.Basic
import Firestarter.Lib.CopyOnTouch
import Firestarter.Lib.Run
import Firestarter.Ltckpt.Writelog

namespace Firestarter.Mprotect

open FlatMem Firestarter.Ltckpt

/-!
# Page-protection checkpoints (`mechanisms/mprotect/ltckpt_mprotect.c`)

The mechanism makes the pages of the program read-only.  The first write to a page faults, and
the handler saves the page and makes it writable; a checkpoint makes the saved pages read-only
again and empties the list.

* `mprStep` — one event: a write, a top-of-the-loop call, a context print request;
* `MprInv` — **the invariant**: the writable pages are the saved ones, and each is saved once,
  with the content of the last checkpoint (`CopyOnTouch.Exact`);
* `pages_saved_once` — what holds in runs whose print requests come before the first write.
-/

/-! ### State -/

/-- `PAGE_SIZE`. -/
def pageSize : ℕ := 4096

/-- `MPROTECT_MAX_PAGES`. -/
def mprotectMaxPages : ℕ := 1000

/-- The page of an address, `addr - addr % PAGE_SIZE`. -/
def pageOf (addr : ℕ) : ℕ := addr - addr % pageSize

/-- An entry of `mpr->proc_maps`: a mapping that `ltckpt_init_mpr_cb` saved. -/
structure Vma where
  vmStart : ℕ
  vmEnd : ℕ

/-- A page of one of the mappings. -/
def Tracked (V : List Vma) (p : ℕ) : Prop :=
  p % pageSize = 0 ∧ ∃ v ∈ V, v.vmStart ≤ p ∧ p < v.vmEnd

/-- `mpr_page_t`, with the page that `mem` points to. -/
structure MprPage where
  addr : ℕ
  mem : List UInt8

/-- A write that stays in one page. -/
structure PageWrite where
  addr : ℕ
  bytes : List UInt8
  fits : addr % pageSize + bytes.length ≤ pageSize

/-- The process and the mechanism's state; the last two fields are histories that the code does
    not have. -/
structure MprState where
  mem : Mem
  /-- the protection of each page -/
  writable : ℕ → Bool
  pages : List MprPage
  numPages : ℕ
  numMemPages : ℕ
  initialized : Bool
  numCows : ℕ
  ctx : Ctx
  /-- the memory at the last checkpoint -/
  ckptMem : Mem
  /-- the pages written since -/
  written : List ℕ

/-! ### The mechanism -/

/-- `ltckpt_page_list_add`; `none` when one of the asserts aborts. -/
def ltckptPageListAdd (s : MprState) (addr : ℕ) : Option MprState :=
  if s.numPages < mprotectMaxPages ∧ s.numMemPages < mprotectMaxPages then
    some { s with
      pages := s.pages ++ [⟨addr, read s.mem addr pageSize⟩]
      numPages := s.numPages + 1
      numMemPages := s.numMemPages + 1 }
  else none

/-- `ltckpt_mprotect_mem` for one page. -/
def ltckptMprotectMem (writable : Bool) (prot : ℕ → Bool) (addr : ℕ) : ℕ → Bool :=
  Function.update prot addr writable

/-- `ltckpt_mprotect_vma`. -/
def ltckptMprotectVma (writable : Bool) (prot : ℕ → Bool) (entry : Vma) : ℕ → Bool := fun p =>
  if entry.vmStart ≤ p ∧ p < entry.vmEnd then writable else prot p

/-- `ltckpt_mprotect_vmas`. -/
def ltckptMprotectVmas (V : List Vma) (writable : Bool) (s : MprState) : MprState :=
  { s with writable := V.foldl (ltckptMprotectVma writable) s.writable }

/-- `ltckpt_sighandler`. -/
def ltckptSighandler (s : MprState) (siAddr : ℕ) : Option MprState :=
  let addr := pageOf siAddr
  (ltckptPageListAdd s addr).map fun s =>
    { s with
      numCows := ulong (s.numCows + 1)
      writable := ltckptMprotectMem true s.writable addr }

/-- `ltckpt_checkpoint`: the list is emptied, and the pages that were on it are read-only. -/
def ltckptCheckpoint (s : MprState) : MprState :=
  { s with
    writable := ((s.pages.take s.numPages).map MprPage.addr).foldl (ltckptMprotectMem false)
      s.writable
    pages := []
    numPages := 0
    numMemPages := 0 }

/-- `ltckpt_init_mpr`, where the mappings are `V`. -/
def ltckptInitMpr (V : List Vma) (s : MprState) : MprState :=
  ltckptMprotectVmas V false { s with initialized := true, ckptMem := s.mem, written := [] }

/-- `ltckpt_top_of_the_loop_mprotect`. -/
def ltckptTopOfTheLoopMprotect (V : List Vma) (s : MprState) : MprState :=
  let s' := { s with ctx := { s.ctx with numTols := ulong (s.ctx.numTols + 1) } }
  if ctxSkipsTol s.ctx then s'
  else
    let s' := if s'.initialized then s' else ltckptInitMpr V s'
    let s' := ltckptCheckpoint s'
    { s' with
      ctx := { s'.ctx with numCheckpoints := ulong (s'.ctx.numCheckpoints + 1) }
      ckptMem := s'.mem
      written := [] }

/-- A write that meets no protection. -/
def rawWrite (s : MprState) (w : PageWrite) : MprState :=
  { s with mem := write s.mem w.addr w.bytes, written := pageOf w.addr :: s.written }

/-- The context print hook (`LTCKPT_MPROTECT_SAFE`), with what printing itself writes: all pages
    are writable meanwhile, and read-only afterwards. -/
def ltckptCtxPrint (V : List Vma) (s : MprState) (ws : List PageWrite) : MprState :=
  if s.initialized then
    ltckptMprotectVmas V false (ws.foldl rawWrite (ltckptMprotectVmas V true s))
  else ws.foldl rawWrite s

/-- Events of a run. -/
inductive MprEvent
  | write (w : PageWrite)
  | topOfTheLoop
  | ctxPrint (ws : List PageWrite)

/-- One event; a write to a read-only page faults once and is then made. -/
def mprStep (V : List Vma) (s : MprState) : MprEvent → Option MprState
  | .write w =>
    if s.writable (pageOf w.addr) then some (rawWrite s w)
    else (ltckptSighandler s w.addr).map fun s => rawWrite s w
  | .topOfTheLoop => some (ltckptTopOfTheLoopMprotect V s)
  | .ctxPrint ws => some (ltckptCtxPrint V s ws)

/-- The process behind the late-init hook, with `CP_LINIT` and the context as given. -/
def mprInit (V : List Vma) (lazyInit : Bool) (ctx : Ctx) (m : Mem) : MprState :=
  let s : MprState := ⟨m, fun _ => true, [], 0, 0, false, 0, ctx, m, []⟩
  if !lazyInit && ctx.checkpointInterval != 0 then ltckptInitMpr V s else s

/-! ### Protections -/

/-- Protecting the mappings. -/
theorem foldl_mprotectVma (V : List Vma) (b : Bool) (prot : ℕ → Bool) (p : ℕ) :
    V.foldl (ltckptMprotectVma b) prot p =
      if ∃ v ∈ V, v.vmStart ≤ p ∧ p < v.vmEnd then b else prot p := by
  induction V generalizing prot with
  | nil => simp
  | cons v V ih =>
    rw [List.foldl_cons, ih]
    by_cases hV : ∃ v ∈ V, v.vmStart ≤ p ∧ p < v.vmEnd
    · rw [if_pos hV, if_pos (by simpa using Or.inr hV)]
    · rw [if_neg hV, ltckptMprotectVma]
      by_cases hv : v.vmStart ≤ p ∧ p < v.vmEnd
      · rw [if_pos hv, if_pos ⟨v, by simp, hv⟩]
      · rw [if_neg hv, if_neg]
        rintro ⟨v', hv', hp⟩
        rcases List.mem_cons.mp hv' with rfl | hv'
        · exact hv hp
        · exact hV ⟨v', hv', hp⟩

/-- Protecting a list of pages. -/
theorem foldl_mprotectMem (ps : List ℕ) (prot : ℕ → Bool) (p : ℕ) :
    ps.foldl (ltckptMprotectMem false) prot p = if p ∈ ps then false else prot p := by
  induction ps generalizing prot with
  | nil => simp
  | cons q ps ih =>
    rw [List.foldl_cons, ih, ltckptMprotectMem]
    by_cases hps : p ∈ ps
    · rw [if_pos hps, if_pos (List.mem_cons_of_mem _ hps)]
    · rw [if_neg hps]
      by_cases hq : p = q
      · rw [hq, Function.update_self, if_pos (List.mem_cons_self ..)]
      · rw [Function.update_of_ne hq, if_neg (by simp [hq, hps])]

/-! ### The invariant -/

/-- What a page holds. -/
def content (m : Mem) (p : ℕ) : List UInt8 := read m p pageSize

/-- The saved copy of a page. -/
def shadow (pages : List MprPage) (p : ℕ) : List UInt8 :=
  ((pages.find? fun e => e.addr = p).map MprPage.mem).getD []

/-- The pages on the list. -/
def MprState.saved (s : MprState) : List ℕ := s.pages.map MprPage.addr

/-- **The invariant.**  Before the mechanism is initialised no page is protected; afterwards the
    writable pages, the pages written since the last checkpoint and the pages on the list are
    the same, and the list is a copy-on-touch image of the checkpoint. -/
structure MprInv (V : List Vma) (s : MprState) : Prop where
  numPages : s.numPages = s.pages.length
  numMemPages : s.numMemPages = s.pages.length
  nodup : s.saved.Nodup
  savedWritten : ∀ p ∈ s.saved, Tracked V p ∧ p ∈ s.written
  readOnly : ∀ p, p % pageSize = 0 → s.writable p = false → Tracked V p
  uninit : s.initialized = false → s.pages = [] ∧ ∀ p, s.writable p = true
  prot : s.initialized = true → ∀ p, Tracked V p → (s.writable p = true ↔ p ∈ s.saved)
  writtenSaved : s.initialized = true → ∀ p, Tracked V p → p ∈ s.written → p ∈ s.saved
  exact : s.initialized = true → CopyOnTouch.Exact (Tracked V) (content s.mem) (shadow s.pages)
    (content s.ckptMem) (· ∈ s.saved)

variable {V : List Vma} {s : MprState}

theorem pageOf_aligned (a : ℕ) : pageOf a % pageSize = 0 := by
  simp only [pageOf, pageSize]
  omega

/-- A write changes the content of its own page only. -/
theorem content_write_of_ne (m : Mem) (w : PageWrite) {p : ℕ} (hp : p % pageSize = 0)
    (hne : p ≠ pageOf w.addr) : content (write m w.addr w.bytes) p = content m p := by
  refine read_write_of_apart m ?_
  have hfits := w.fits
  simp only [pageOf, pageSize, Apart] at *
  omega

/-- Memory may change in untracked pages and in saved ones. -/
theorem MprInv.memWrite (h : MprInv V s) (w : PageWrite)
    (hp : s.initialized = true → Tracked V (pageOf w.addr) → pageOf w.addr ∈ s.saved) :
    MprInv V { s with mem := write s.mem w.addr w.bytes } where
  numPages := h.numPages
  numMemPages := h.numMemPages
  nodup := h.nodup
  savedWritten := h.savedWritten
  readOnly := h.readOnly
  uninit := h.uninit
  prot := h.prot
  writtenSaved := h.writtenSaved
  exact hinit := (h.exact hinit).write
    (fun _ htr hclean => content_write_of_ne s.mem w htr.1 fun heq =>
      hclean (heq ▸ hp hinit (heq ▸ htr)))
    (fun _ _ => rfl)

/-- An untracked or saved page may be noted as written. -/
theorem MprInv.mark (h : MprInv V s) {p : ℕ}
    (hp : s.initialized = true → Tracked V p → p ∈ s.saved) :
    MprInv V { s with written := p :: s.written } where
  numPages := h.numPages
  numMemPages := h.numMemPages
  nodup := h.nodup
  savedWritten q hq := ⟨(h.savedWritten q hq).1, List.mem_cons_of_mem _ (h.savedWritten q hq).2⟩
  readOnly := h.readOnly
  uninit := h.uninit
  prot := h.prot
  writtenSaved hinit q htr hq := by
    rcases List.mem_cons.mp hq with rfl | hq
    · exact hp hinit htr
    · exact h.writtenSaved hinit q htr hq
  exact := h.exact

/-- A write that needs no fault. -/
theorem MprInv.rawWrite (h : MprInv V s) (w : PageWrite)
    (hp : s.initialized = true → Tracked V (pageOf w.addr) → pageOf w.addr ∈ s.saved) :
    MprInv V (rawWrite s w) :=
  (h.memWrite w hp).mark hp

/-- A new entry is the copy of its page if there is no older one. -/
theorem shadow_append_self {pages : List MprPage} {p : ℕ} (hnew : p ∉ pages.map MprPage.addr)
    (x : List UInt8) : shadow (pages ++ [⟨p, x⟩]) p = x := by
  have hnone : (pages.find? fun e => e.addr = p) = none := by
    rw [List.find?_eq_none]
    intro e he heq
    exact hnew (List.mem_map.mpr ⟨e, he, by simpa using heq⟩)
  simp [shadow, List.find?_append, hnone]

/-- It leaves the copies of other pages alone. -/
theorem shadow_append_of_ne (pages : List MprPage) {p q : ℕ} (hne : q ≠ p) (x : List UInt8) :
    shadow (pages ++ [⟨p, x⟩]) q = shadow pages q := by
  simp [shadow, List.find?_append, hne.symm]

/-- **Fault.** A page that is read-only is not on the list yet; saving it and making it writable
    keeps the invariant, once the page counts as written. -/
theorem MprInv.save (h : MprInv V s) {p : ℕ} (hp : p % pageSize = 0) (hro : s.writable p = false)
    (n : ℕ) :
    MprInv V { s with
      pages := s.pages ++ [⟨p, read s.mem p pageSize⟩]
      numPages := s.numPages + 1
      numMemPages := s.numMemPages + 1
      numCows := n
      writable := ltckptMprotectMem true s.writable p
      written := p :: s.written } := by
  have htr : Tracked V p := h.readOnly p hp hro
  have hinit : s.initialized = true := by
    by_contra hno
    rw [(h.uninit (by simpa using hno)).2 p] at hro
    exact absurd hro (by simp)
  have hnew : p ∉ s.saved := fun hmem => by
    rw [(h.prot hinit p htr).mpr hmem] at hro
    exact absurd hro (by simp)
  let e : MprPage := ⟨p, read s.mem p pageSize⟩
  have hsaved : ∀ q, q ∈ (s.pages ++ [e]).map MprPage.addr ↔ q = p ∨ q ∈ s.saved := by
    intro q
    rw [List.map_append, List.mem_append, List.map_singleton, List.mem_singleton, or_comm]
    rfl
  constructor
  case numPages => simp [h.numPages]
  case numMemPages => simp [h.numMemPages]
  case nodup =>
    show ((s.pages ++ [e]).map MprPage.addr).Nodup
    rw [List.map_append, List.nodup_append']
    refine ⟨h.nodup, List.nodup_singleton _, ?_⟩
    rw [List.map_singleton, List.disjoint_singleton]
    exact hnew
  case savedWritten =>
    intro q hq
    rcases (hsaved q).mp hq with rfl | hq
    · exact ⟨htr, List.mem_cons_self ..⟩
    · exact ⟨(h.savedWritten q hq).1, List.mem_cons_of_mem _ (h.savedWritten q hq).2⟩
  case readOnly =>
    intro q hq hw
    by_cases hqp : q = p
    · exact hqp ▸ htr
    · exact h.readOnly q hq (by simpa [ltckptMprotectMem, Function.update_of_ne hqp] using hw)
  case uninit => exact fun hno => absurd (hinit.symm.trans hno) (by simp)
  case prot =>
    intro _ q hq
    rw [show MprState.saved _ = (s.pages ++ [e]).map MprPage.addr from rfl, hsaved]
    by_cases hqp : q = p
    · simp [hqp, ltckptMprotectMem]
    · simp only [ltckptMprotectMem, Function.update_of_ne hqp, hqp, false_or]
      exact h.prot hinit q hq
  case writtenSaved =>
    intro _ q hq hmem
    refine (hsaved q).mpr ?_
    rcases List.mem_cons.mp hmem with rfl | hmem
    · exact Or.inl rfl
    · exact Or.inr (h.writtenSaved hinit q hq hmem)
  case exact =>
    intro _
    exact (h.exact hinit).touch (fun _ _ => rfl)
      (fun _ => shadow_append_self hnew (read s.mem p pageSize)) (fun ht => absurd ht hnew)
      (fun q _ hq => shadow_append_of_ne s.pages hq _) (fun q _ => hsaved q)

/-! ### Steps -/

/-- Protections matter at page addresses only. -/
theorem MprInv.congr_writable (h : MprInv V s) {prot : ℕ → Bool}
    (hprot : ∀ p, p % pageSize = 0 → prot p = s.writable p)
    (huninit : s.initialized = false → ∀ p, prot p = true) :
    MprInv V { s with writable := prot } where
  numPages := h.numPages
  numMemPages := h.numMemPages
  nodup := h.nodup
  savedWritten := h.savedWritten
  readOnly p hp hw := h.readOnly p hp ((hprot p hp).symm.trans hw)
  uninit hno := ⟨(h.uninit hno).1, huninit hno⟩
  prot hinit p htr := by
    show prot p = true ↔ _
    rw [hprot p htr.1]
    exact h.prot hinit p htr
  writtenSaved := h.writtenSaved
  exact := h.exact

/-- **Initialisation** protects all tracked pages and starts with an empty list. -/
theorem MprInv.initMpr (h : MprInv V s) (hno : s.initialized = false) :
    MprInv V (ltckptInitMpr V s) := by
  obtain ⟨hpages, hwritable⟩ := h.uninit hno
  have hprot : ∀ p, p % pageSize = 0 →
      ((ltckptInitMpr V s).writable p = false ↔ Tracked V p) := by
    intro p hp
    show V.foldl (ltckptMprotectVma false) s.writable p = false ↔ _
    rw [foldl_mprotectVma, Tracked]
    by_cases hV : ∃ v ∈ V, v.vmStart ≤ p ∧ p < v.vmEnd
    · rw [if_pos hV]
      exact ⟨fun _ => ⟨hp, hV⟩, fun _ => rfl⟩
    · rw [if_neg hV, hwritable p]
      exact ⟨fun hf => absurd hf (by simp), fun htr => absurd htr.2 hV⟩
  have hnone : (ltckptInitMpr V s).saved = [] := by
    show s.pages.map MprPage.addr = []
    rw [hpages]
    rfl
  constructor
  case numPages => exact h.numPages
  case numMemPages => exact h.numMemPages
  case nodup => exact h.nodup
  case savedWritten => simp [hnone]
  case readOnly => exact fun p hp hw => (hprot p hp).mp hw
  case uninit => exact fun hf => absurd hf (by simp [ltckptInitMpr, ltckptMprotectVmas])
  case prot =>
    intro _ p htr
    simp [hnone, (hprot p htr.1).mpr htr]
  case writtenSaved => exact fun _ p _ hp => absurd hp (by simp [ltckptInitMpr, ltckptMprotectVmas])
  case exact =>
    exact fun _ => CopyOnTouch.exact_checkpoint (fun _ _ => rfl) (fun p _ => by simp [hnone])

/-- What a checkpoint leaves of the protections. -/
theorem ltckptCheckpoint_writable (h : MprInv V s) (p : ℕ) :
    (ltckptCheckpoint s).writable p = if p ∈ s.saved then false else s.writable p := by
  rw [ltckptCheckpoint, h.numPages, List.take_length]
  exact foldl_mprotectMem s.saved s.writable p

/-- **Checkpoint.** -/
theorem MprInv.checkpoint (h : MprInv V s) (hinit : s.initialized = true) (ctx : Ctx) :
    MprInv V { ltckptCheckpoint s with ctx := ctx, ckptMem := s.mem, written := [] } := by
  have hro : ∀ p, Tracked V p → (ltckptCheckpoint s).writable p = false := by
    intro p htr
    rw [ltckptCheckpoint_writable h]
    split
    · rfl
    · rename_i hp
      simpa using fun hw => hp ((h.prot hinit p htr).mp hw)
  constructor
  case numPages => rfl
  case numMemPages => rfl
  case nodup => exact List.nodup_nil
  case savedWritten => exact fun p hp => absurd hp (by simp [MprState.saved, ltckptCheckpoint])
  case readOnly =>
    intro p hp hw
    change (ltckptCheckpoint s).writable p = false at hw
    rw [ltckptCheckpoint_writable h] at hw
    split at hw
    · rename_i hsaved
      exact (h.savedWritten p hsaved).1
    · exact h.readOnly p hp hw
  case uninit => exact fun hno => absurd (hinit.symm.trans hno) (by simp)
  case prot =>
    intro _ p htr
    show (ltckptCheckpoint s).writable p = true ↔ _
    rw [hro p htr]
    simp [MprState.saved, ltckptCheckpoint]
  case writtenSaved => exact fun _ p _ hp => absurd hp (by simp)
  case exact =>
    exact fun _ => CopyOnTouch.exact_checkpoint (fun _ _ => rfl)
      (fun p _ => by simp [MprState.saved, ltckptCheckpoint])

/-- A top-of-the-loop call keeps the invariant; if it takes a checkpoint, all tracked pages are
    read-only behind it. -/
theorem MprInv.topOfTheLoop (h : MprInv V s) :
    MprInv V (ltckptTopOfTheLoopMprotect V s) ∧ (¬ ctxSkipsTol s.ctx → ∀ p, Tracked V p →
      (ltckptTopOfTheLoopMprotect V s).writable p = false) := by
  unfold ltckptTopOfTheLoopMprotect
  simp only
  have h' : ∀ ctx, MprInv V { s with ctx := ctx } := fun ctx =>
    ⟨h.1, h.2, h.3, h.4, h.5, h.6, h.7, h.8, h.9⟩
  by_cases hskip : ctxSkipsTol s.ctx
  · rw [if_pos hskip]
    exact ⟨h' _, fun hno => absurd hskip hno⟩
  · rw [if_neg hskip]
    -- the state that the checkpoint starts from
    obtain ⟨s₁, hs₁, hinv, hinit⟩ : ∃ s₁, (if s.initialized = true then
        { s with ctx := { s.ctx with numTols := ulong (s.ctx.numTols + 1) } }
        else
          ltckptInitMpr V { s with ctx := { s.ctx with numTols := ulong (s.ctx.numTols + 1) } }) =
        s₁ ∧ MprInv V s₁ ∧ s₁.initialized = true := by
      by_cases hinit : s.initialized = true
      · rw [if_pos hinit]
        exact ⟨_, rfl, h' _, hinit⟩
      · rw [if_neg hinit]
        exact ⟨_, rfl, (h' _).initMpr (by simpa using hinit), rfl⟩
    rw [hs₁]
    have hck := hinv.checkpoint hinit
      { s₁.ctx with numCheckpoints := ulong (s₁.ctx.numCheckpoints + 1) }
    refine ⟨hck, fun _ p htr => ?_⟩
    have hp := hck.prot hinit p htr
    simpa [MprState.saved, ltckptCheckpoint] using hp

/-- Writes to untracked pages, or before the initialisation. -/
theorem MprInv.rawWrites (h : MprInv V s) (ws : List PageWrite)
    (hws : s.initialized = true → ∀ w ∈ ws, ¬ Tracked V (pageOf w.addr)) :
    MprInv V (ws.foldl Mprotect.rawWrite s) := by
  induction ws generalizing s with
  | nil => exact h
  | cons w ws ih =>
    rw [List.foldl_cons]
    refine ih (h.rawWrite w fun hinit htr => absurd htr (hws hinit w (by simp))) ?_
    exact fun hinit w' hw' => hws hinit w' (by simp [hw'])

/-- Raw writes look at no protection. -/
theorem foldl_rawWrite_writable (ws : List PageWrite) (s : MprState) (prot : ℕ → Bool) :
    ws.foldl rawWrite { s with writable := prot } =
      { ws.foldl rawWrite s with writable := prot } := by
  induction ws generalizing s with
  | nil => rfl
  | cons w ws ih => exact ih (rawWrite s w)

theorem foldl_rawWrite_frame (ws : List PageWrite) (s : MprState) :
    (ws.foldl rawWrite s).writable = s.writable ∧
      (ws.foldl rawWrite s).initialized = s.initialized := by
  induction ws generalizing s with
  | nil => exact ⟨rfl, rfl⟩
  | cons w ws ih => exact ih (rawWrite s w)

/-- **The condition on a step**: a print request finds no page saved since the last checkpoint,
    and printing writes to untracked pages only. -/
def PrintsClean (V : List Vma) (s : MprState) : MprEvent → Prop
  | .ctxPrint ws => s.initialized = true →
    s.numPages = 0 ∧ ∀ w ∈ ws, ¬ Tracked V (pageOf w.addr)
  | _ => True

/-- A print request that meets the condition. -/
theorem MprInv.ctxPrint (h : MprInv V s) {ws : List PageWrite}
    (hcond : PrintsClean V s (.ctxPrint ws)) : MprInv V (ltckptCtxPrint V s ws) := by
  have hraw := h.rawWrites ws fun hinit => (hcond hinit).2
  unfold ltckptCtxPrint
  split
  · rename_i hinit
    obtain ⟨hnone, -⟩ := hcond hinit
    have hsaved : s.saved = [] := by
      rw [h.numPages, List.length_eq_zero_iff] at hnone
      rw [MprState.saved, hnone]
      rfl
    obtain ⟨hwritable, hinit'⟩ := foldl_rawWrite_frame ws s
    rw [ltckptMprotectVmas, ltckptMprotectVmas, foldl_rawWrite_writable]
    -- no page was writable, so making all of them read-only changes nothing
    refine hraw.congr_writable (fun p hp => ?_) fun hno => ?_
    · show V.foldl (ltckptMprotectVma false) (V.foldl (ltckptMprotectVma true) s.writable) p = _
      rw [foldl_mprotectVma, foldl_mprotectVma, hwritable]
      split
      · rename_i hV
        have hprot := h.prot hinit p ⟨hp, hV⟩
        rw [hsaved] at hprot
        simpa using hprot
      · rfl
    · exact absurd (hno.symm.trans (hinit'.trans hinit)) (by simp)
  · exact hraw

/-- **Step.** Every event that meets the condition keeps the invariant. -/
theorem mprStep_inv {s' : MprState} {e : MprEvent} (h : MprInv V s) (hcond : PrintsClean V s e)
    (hstep : mprStep V s e = some s') : MprInv V s' := by
  cases e with
  | write w =>
    simp only [mprStep] at hstep
    split at hstep
    · rename_i hwritable
      cases hstep
      exact h.rawWrite w fun hinit htr => (h.prot hinit _ htr).mp hwritable
    · rename_i hro
      obtain ⟨s₁, hs₁, rfl⟩ := Option.map_eq_some_iff.mp hstep
      obtain ⟨s₂, hs₂, rfl⟩ := Option.map_eq_some_iff.mp hs₁
      obtain ⟨-, ⟨⟩⟩ := Option.ite_none_right_eq_some.mp hs₂
      have hsave := h.save (pageOf_aligned w.addr) (by simpa using hro) (ulong (s.numCows + 1))
      exact hsave.memWrite w fun _ _ => by simp [MprState.saved]
  | topOfTheLoop =>
    cases hstep
    exact h.topOfTheLoop.1
  | ctxPrint ws =>
    cases hstep
    exact h.ctxPrint hcond

/-- The invariant holds behind the late-init hook. -/
theorem mprInit_inv (V : List Vma) (lazyInit : Bool) (ctx : Ctx) (m : Mem) :
    MprInv V (mprInit V lazyInit ctx m) := by
  have hstart : MprInv V ⟨m, fun _ => true, [], 0, 0, false, 0, ctx, m, []⟩ :=
    ⟨rfl, rfl, List.nodup_nil, fun _ hp => absurd hp List.not_mem_nil, fun _ _ hw => by simp at hw,
      fun _ => ⟨rfl, fun _ => rfl⟩, fun hinit => by simp at hinit, fun hinit => by simp at hinit,
      fun hinit => by simp at hinit⟩
  unfold mprInit
  simp only
  split
  · exact hstart.initMpr rfl
  · exact hstart

/-! ### Pages are saved once -/

instance (V : List Vma) : DecidablePred (Tracked V) := fun _ =>
  inferInstanceAs (Decidable (_ ∧ ∃ v ∈ V, _))

/-- **Saved once**: each tracked page written since the last checkpoint is on the list once, with
    its content at the checkpoint, and the counts are the length of the list and the number of those
    pages. -/
structure SavedOnce (V : List Vma) (s : MprState) : Prop where
  once : ∀ p, Tracked V p → p ∈ s.written → s.saved.count p = 1
  content_eq : ∀ e ∈ s.pages, e.mem = content s.ckptMem e.addr
  length_eq : s.numPages = s.pages.length
  numPages : s.numPages = (s.written.filter (Tracked V ·)).dedup.length
  numMemPages : s.numMemPages = s.numPages

/-- The copy of a page that is on the list once. -/
theorem shadow_of_mem {pages : List MprPage} (hnodup : (pages.map MprPage.addr).Nodup)
    {e : MprPage} (he : e ∈ pages) : shadow pages e.addr = e.mem := by
  induction pages with
  | nil => exact absurd he (List.not_mem_nil)
  | cons e' pages ih =>
    rw [List.map_cons, List.nodup_cons] at hnodup
    rcases List.mem_cons.mp he with rfl | he
    · simp [shadow]
    · have hne : e'.addr ≠ e.addr := fun heq => hnodup.1 (heq ▸ List.mem_map_of_mem he)
      rw [← ih hnodup.2 he]
      simp [shadow, hne]

theorem MprInv.savedOnce (h : MprInv V s) (hinit : s.initialized = true) : SavedOnce V s where
  once p htr hp := List.count_eq_one_of_mem h.nodup (h.writtenSaved hinit p htr hp)
  content_eq e he := by
    have hmem : e.addr ∈ s.saved := List.mem_map_of_mem he
    rw [← shadow_of_mem h.nodup he]
    exact (h.exact hinit).saved _ (h.savedWritten _ hmem).1 hmem
  length_eq := h.numPages
  numPages := by
    have hperm : s.saved.Perm (s.written.filter (Tracked V ·)).dedup := by
      rw [List.perm_ext_iff_of_nodup h.nodup (List.nodup_dedup _)]
      intro p
      rw [List.mem_dedup, List.mem_filter, decide_eq_true_iff]
      exact ⟨fun hp => ⟨(h.savedWritten p hp).2, (h.savedWritten p hp).1⟩,
        fun hp => h.writtenSaved hinit p hp.2 hp.1⟩
    rw [← hperm.length_eq, h.numPages, MprState.saved, List.length_map]
  numMemPages := h.numMemPages.trans h.numPages.symm

/-- **Each dirtied page is saved once.**  In every run whose print requests meet `PrintsClean`, once
    the mechanism is initialised the pages written since the last checkpoint are saved once; and
    a checkpoint makes all tracked pages read-only. -/
theorem pages_saved_once (V : List Vma) (lazyInit : Bool) (ctx : Ctx) (m : Mem)
    (es : List MprEvent) (s : MprState)
    (hcond : Runs.Meets (PrintsClean V) (mprStep V) (mprInit V lazyInit ctx m) es)
    (hrun : es.foldlM (mprStep V) (mprInit V lazyInit ctx m) = some s) :
    (s.initialized = true → SavedOnce V s) ∧
      ∀ s', mprStep V s .topOfTheLoop = some s' → ¬ ctxSkipsTol s.ctx →
        ∀ p, Tracked V p → s'.writable p = false := by
  have hinv : MprInv V s := Runs.invariant_of_run (fun _ _ _ h hc hs => mprStep_inv h hc hs)
    (mprInit_inv V lazyInit ctx m) hcond hrun
  refine ⟨hinv.savedOnce, fun s' hs' hck => ?_⟩
  cases hs'
  exact hinv.topOfTheLoop.2 hck

instance (V : List Vma) (s : MprState) : DecidablePred (PrintsClean V s)
  | .ctxPrint ws => inferInstanceAs (Decidable (_ → _ ∧ ∀ w ∈ ws, _))
  | .write _ => .isTrue trivial
  | .topOfTheLoop => .isTrue trivial

/-- Two pages of program data. -/
def twoPages : List Vma := [⟨0x10000, 0x12000⟩]

/-- A process with `CP_INTERVAL` 1 that initialises the mechanism lazily. -/
def lazyProcess : MprState := mprInit twoPages true ⟨1, 0, 0, 0⟩ fun _ => 0

/-- A one-byte write. -/
def writeByte (a : ℕ) (b : UInt8) : MprEvent :=
  .write ⟨a, [b], by
    have := Nat.mod_lt a (show 0 < pageSize by decide)
    simp only [List.length_singleton]
    omega⟩

/-- A checkpoint, a print request, and writes to both pages. -/
def printThenWrite : List MprEvent :=
  [.topOfTheLoop, .ctxPrint [], writeByte 0x10000 1, writeByte 0x10008 2, writeByte 0x11000 3]

theorem pages_saved_once_print_first :
    ∃ s, printThenWrite.foldlM (mprStep twoPages) lazyProcess = some s ∧ s.initialized = true ∧
      SavedOnce twoPages s ∧ s.numPages = 2 := by
  obtain ⟨s, hs, hinit, hnum⟩ : ∃ s, printThenWrite.foldlM (mprStep twoPages) lazyProcess = some s ∧
      s.initialized = true ∧ s.numPages = 2 := ⟨_, rfl, rfl, rfl⟩
  exact ⟨s, hs, hinit, (pages_saved_once twoPages true ⟨1, 0, 0, 0⟩ (fun _ => 0) printThenWrite s
    (by decide +kernel) hs).1 hinit, hnum⟩

/-- A checkpoint, and a print request between two writes to one page. -/
def printBetweenWrites : List MprEvent :=
  [.topOfTheLoop, writeByte 0x10000 1, .ctxPrint [], writeByte 0x10000 2]

/-- The state behind `printBetweenWrites`. -/
def printedBetween : MprState :=
  (printBetweenWrites.foldlM (mprStep twoPages) lazyProcess).get (by decide +kernel)

/-- The print request makes the dirtied page read-only again.  The second write saves it a second
    time, with what the first write left there. -/
theorem page_saved_twice :
    ∃ s, printBetweenWrites.foldlM (mprStep twoPages) lazyProcess = some s ∧
      s.initialized = true ∧ s.numPages = 2 ∧ s.saved = [0x10000, 0x10000] ∧
      s.pages.map (fun e => e.mem.head?) = [some 0, some 1] ∧ s.ckptMem 0x10000 = 0 ∧
      ¬ SavedOnce twoPages s := by
  refine ⟨printedBetween, (Option.some_get _).symm, by decide +kernel, by decide +kernel,
    by decide +kernel, by decide +kernel, by decide +kernel, fun h => ?_⟩
  exact absurd (h.once 0x10000 (by decide) (by decide +kernel)) (by decide +kernel)

end Firestarter.Mprotect
