import Firestarter.Hybrid.GapRecovery

namespace Firestarter.Hybrid

open FlatMem Firestarter.Ltckpt Firestarter.Rcvry

/-!
# Delayed frees and rollback

`rcvry_ra_delayed_free` puts a pointer on a list that is flushed at the end of the window.  The
list is not part of what a restart rolls back.

* `hstep_freeList` — what one event does to the list and to the frees made;
* `pending_of_unflushed`, `freed_of_run` — the same for whole runs;
* `WindowList` — **the invariant** of a window: its pointers are at the end of the list;
* `rolled_back_frees_iff` — when the pointers of a rolled-back window are not freed;
* `rolled_back_free_happens` — a run in which one is.
-/

variable {L : Layout}

/-! ### Events and the list -/

/-- The pointer an event passes to `rcvry_ra_delayed_free`. -/
def HEvent.passedPtr : HEvent L → Option ℕ
  | .free ptr => some ptr
  | _ => none

/-- The pointers that a run passes to `rcvry_ra_delayed_free`, in order. -/
def passed (es : List (HEvent L)) : List ℕ := es.filterMap HEvent.passedPtr

/-- The event is an end-of-window hook with a flush. -/
def FlushesAt (c : HConfig) (s : HState) : HEvent L → Prop
  | .endOfWindow _ => flushes c s.ctl = true
  | .ungatedEnd hook => hookFlushes c s.ctl hook = true
  | _ => False

/-- The event neither saves the registers nor restores them. -/
def HEvent.InWindow : HEvent L → Prop
  | .libcall .. | .sigsegv .. => False
  | _ => True

theorem passed_cons (e : HEvent L) (es : List (HEvent L)) :
    passed (e :: es) = passed [e] ++ passed es := by
  unfold passed
  rw [← List.filterMap_append, List.singleton_append]

theorem passed_append (es fs : List (HEvent L)) : passed (es ++ fs) = passed es ++ passed fs :=
  List.filterMap_append

/-- What an event may do to the list and to the frees made. -/
inductive FreeStep (c : HConfig) (s : HState) (e : HEvent L) (s' : HState) : Prop
  | flush (hflush : FlushesAt c s e) (hpassed : passed [e] = []) (hlist : s'.freeList = [])
      (hwin : s'.windowFrees = []) (hfreed : s'.freed = s.freed ++ s.freeList.dropLast)
  | keep (hflush : ¬ FlushesAt c s e) (hlist : s'.freeList = s.freeList ++ passed [e])
      (hwin : e.InWindow → s'.windowFrees = s.windowFrees ++ passed [e])
      (hfreed : s'.freed = s.freed)

variable {c : HConfig} {s t : HState} {e : HEvent L} {es : List (HEvent L)}

/-- An event that passes no pointer and leaves the lists alone. -/
theorem FreeStep.of_eq {s' : HState} (hflush : ¬ FlushesAt c s e) (hpassed : passed [e] = [])
    (hlist : s'.freeList = s.freeList) (hwin : e.InWindow → s'.windowFrees = s.windowFrees)
    (hfreed : s'.freed = s.freed) : FreeStep c s e s' := by
  refine .keep hflush ?_ (fun he => ?_) hfreed
  · rw [hpassed, List.append_nil, hlist]
  · rw [hpassed, List.append_nil, hwin he]

/-- **Step.** Only a `free` extends the list and only a flush empties it. -/
theorem hstep_freeList {s' : HState} (h : hstep c s e = some s') : FreeStep c s e s' := by
  cases e with
  | libcall site cs width ret ws =>
    obtain ⟨ctl, -, rfl⟩ := Option.map_eq_some_iff.mp h
    exact .of_eq id rfl rfl False.elim rfl
  | libWrite ws =>
    obtain ⟨-, ⟨⟩⟩ := Option.ite_none_right_eq_some.mp h
    exact .of_eq id rfl rfl (fun _ => rfl) rfl
  | gate tol =>
    obtain ⟨ctl, -, rfl⟩ := Option.map_eq_some_iff.mp h
    unfold enterWindow
    simp only
    split <;> exact .of_eq id rfl rfl (fun _ => rfl) rfl
  | check =>
    obtain ⟨ctl, -, rfl⟩ := Option.map_eq_some_iff.mp h
    exact .of_eq id rfl rfl (fun _ => rfl) rfl
  | store st =>
    rw [instrumentedStore_eq h]
    exact .of_eq id rfl rfl (fun _ => rfl) rfl
  | free ptr =>
    rw [hstep_free_eq h]
    exact .keep id rfl (fun _ => rfl) rfl
  | endOfWindow nextSlot =>
    obtain ⟨ctl, -, rfl⟩ := Option.map_eq_some_iff.mp h
    by_cases hflush : flushes c s.ctl = true
    · refine .flush hflush rfl ?_ ?_ ?_ <;> simp [hflush, raFreeFreelist]
    · refine .of_eq hflush rfl ?_ ?_ ?_ <;> simp [hflush]
  | ungatedEnd hook =>
    obtain ⟨ctl, -, rfl⟩ := Option.map_eq_some_iff.mp h
    by_cases hflush : hookFlushes c s.ctl hook = true
    · refine .flush hflush rfl ?_ ?_ ?_ <;> simp [hflush, raFreeFreelist]
    · refine .of_eq hflush rfl ?_ ?_ ?_ <;> simp [hflush]
  | sigsegv libc F =>
    obtain ⟨ctl, -, hact⟩ := Option.bind_eq_some_iff.mp h
    rw [rcvrySignalAction_eq hact]
    exact .of_eq id rfl rfl False.elim rfl

/-! ### Runs -/

/-- **Run without a flush.** The list grows by what is passed, and nothing is freed. -/
theorem pending_of_unflushed (hno : Runs.Meets (fun s e => ¬ FlushesAt c s e) (hstep c) s es)
    (hrun : es.foldlM (hstep c) s = some t) :
    t.freeList = s.freeList ++ passed es ∧ t.freed = s.freed := by
  induction es generalizing s with
  | nil =>
    simp only [List.foldlM_nil, Option.pure_def, Option.some.injEq] at hrun
    subst hrun
    simp [passed]
  | cons e es ih =>
    obtain ⟨s₁, hs₁, hrun⟩ := Runs.run_cons.mp hrun
    obtain ⟨hlist, hfreed⟩ := ih (hno.2 s₁ hs₁) hrun
    cases hstep_freeList hs₁ with
    | flush hflush => exact absurd hflush hno.1
    | keep _ hlist₁ _ hfreed₁ =>
      rw [passed_cons, ← List.append_assoc, ← hlist₁, ← hfreed₁]
      exact ⟨hlist, hfreed⟩

/-- **Run.** Whatever a run frees was on the list before it or is passed in it. -/
theorem freed_of_run (hrun : es.foldlM (hstep c) s = some t) :
    ∃ F, t.freed = s.freed ++ F ∧ ∀ p ∈ F, p ∈ s.freeList ∨ p ∈ passed es := by
  induction es generalizing s with
  | nil =>
    simp only [List.foldlM_nil, Option.pure_def, Option.some.injEq] at hrun
    subst hrun
    exact ⟨[], by simp⟩
  | cons e es ih =>
    obtain ⟨s₁, hs₁, hrun⟩ := Runs.run_cons.mp hrun
    obtain ⟨F, hF, horigin⟩ := ih hrun
    rw [passed_cons]
    cases hstep_freeList hs₁ with
    | flush _ hpassed hlist _ hfreed =>
      -- the flush frees part of the old list; afterwards only new pointers are on it
      refine ⟨s.freeList.dropLast ++ F, by rw [hF, hfreed, List.append_assoc], fun p hp => ?_⟩
      rcases List.mem_append.mp hp with hold | hnew
      · exact .inl (List.dropLast_subset _ hold)
      · rw [hlist] at horigin
        rcases horigin p hnew with h | h
        · simp at h
        · exact .inr (List.mem_append_right _ h)
    | keep _ hlist _ hfreed =>
      refine ⟨F, by rw [hF, hfreed], fun p hp => ?_⟩
      rw [hlist] at horigin
      rcases horigin p hp with h | h
      · rcases List.mem_append.mp h with hold | hnew
        · exact .inl hold
        · exact .inr (List.mem_append_left _ hnew)
      · exact .inr (List.mem_append_right _ h)

/-! ### Windows -/

/-- **The invariant of a window** that has passed `l`: the pointers counted for it are at the end
    of the list, and they are all of `l` unless the list has been flushed. -/
def WindowList (l : List ℕ) (s : HState) : Prop :=
  s.windowFrees ⊆ l ∧ ∃ older, s.freeList = older ++ s.windowFrees ∧
    (older = [] ∨ s.windowFrees = l)

theorem WindowList.start (h : s.windowFrees = []) : WindowList [] s :=
  ⟨by simp [h], s.freeList, by simp [h], .inr h⟩

/-- **Run of a window.** -/
theorem windowList_of_run {l : List ℕ} (hs : WindowList l s) (hwin : ∀ e ∈ es, e.InWindow)
    (hrun : es.foldlM (hstep c) s = some t) : WindowList (l ++ passed es) t := by
  induction es generalizing s l with
  | nil =>
    simp only [List.foldlM_nil, Option.pure_def, Option.some.injEq] at hrun
    subst hrun
    rwa [show passed ([] : List (HEvent L)) = [] from rfl, List.append_nil]
  | cons e es ih =>
    obtain ⟨s₁, hs₁, hrun⟩ := Runs.run_cons.mp hrun
    rw [List.forall_mem_cons] at hwin
    rw [passed_cons, ← List.append_assoc]
    refine ih ?_ hwin.2 hrun
    obtain ⟨hsub, older, hlist, hall⟩ := hs
    cases hstep_freeList hs₁ with
    | flush _ _ hlist₁ hwin₁ => exact ⟨by simp [hwin₁], [], by simp [hlist₁, hwin₁], .inl rfl⟩
    | keep _ hlist₁ hwin₁ =>
      rw [WindowList, hwin₁ hwin.1, hlist₁, hlist]
      refine ⟨List.append_subset.mpr ⟨List.subset_append_of_subset_left _ hsub,
        List.subset_append_right _ _⟩, older, List.append_assoc .., ?_⟩
      exact hall.imp_right fun h => by rw [h]

/-- A flush, before which the pointers `next` were passed after the window, frees none of the
    window's pointers but those in `next`. -/
def Spared (s : HState) (next : List ℕ) : Prop :=
  (∀ p ∈ s.windowFrees, p ∈ next) ∨
    (next = [] ∧ ∃ p, s.windowFrees = [p] ∧ p ∉ s.freeList.dropLast)

/-- The flush frees all entries but the last. -/
theorem spared_iff {l : List ℕ} (hs : WindowList l s) (next : List ℕ) :
    Spared s next ↔ ∀ p ∈ l, p ∈ (s.freeList ++ next).dropLast → p ∈ next := by
  obtain ⟨hsub, older, hlist, hall⟩ := hs
  -- a pointer of `l` on the list is one of the window's
  have hmine : ∀ p ∈ l, p ∈ s.freeList → p ∈ s.windowFrees := by
    intro p hp hmem
    rcases hall with rfl | heq
    · rwa [hlist] at hmem
    · exact heq ▸ hp
  by_cases hnext : next = []
  · subst hnext
    rw [List.append_nil]
    constructor
    · rintro (hnone | ⟨-, p, hone, hp⟩) q hq hdrop
      · exact hnone q (hmine q hq (List.dropLast_subset _ hdrop))
      · have hqp := hmine q hq (List.dropLast_subset _ hdrop)
        rw [hone, List.mem_singleton] at hqp
        exact absurd (hqp ▸ hdrop) hp
    · intro h
      rcases List.eq_nil_or_concat s.windowFrees with hnil | ⟨rest, p, hconcat⟩
      · exact .inl (by simp [hnil])
      · have hdrop : s.freeList.dropLast = older ++ rest := by
          rw [hlist, hconcat, List.concat_eq_append, ← List.append_assoc, List.dropLast_concat]
        have hnone : ∀ q ∈ s.windowFrees, q ∉ older ++ rest := fun q hq hmem =>
          absurd (h q (hsub hq) (hdrop ▸ hmem)) (List.not_mem_nil)
        -- the flush would free every pointer in front of the last
        obtain rfl : rest = [] := List.eq_nil_iff_forall_not_mem.mpr fun q hq =>
          hnone q (by simp [hconcat, hq]) (List.mem_append_right _ hq)
        refine .inr ⟨rfl, p, by simpa using hconcat, ?_⟩
        rw [hdrop]
        exact hnone p (by simp [hconcat])
  · -- the entry that the flush spares is one of `next`
    rw [List.dropLast_append_of_ne_nil hnext]
    constructor
    · rintro (hnext' | ⟨hnil, -⟩) p hp hdrop
      · rcases List.mem_append.mp hdrop with hold | hnew
        · exact hnext' p (hmine p hp hold)
        · exact List.dropLast_subset _ hnew
      · exact absurd hnil hnext
    · intro h
      refine .inl fun p hp => h p (hsub hp) (List.mem_append_left _ ?_)
      rw [hlist]
      exact List.mem_append_right _ hp

/-- No event of the window frees a pointer that the window has passed before. -/
def WindowSpares (c : HConfig) (s : HState) (es : List (HEvent L)) : Prop :=
  ∀ pre e post u u' F, es = pre ++ e :: post → pre.foldlM (hstep c) s = some u →
    hstep c u e = some u' → u'.freed = u.freed ++ F → ∀ p ∈ passed pre, p ∉ F

/-- **Frees in the window.** They are those of the flushes that do not spare its pointers. -/
theorem windowSpares_iff (hs : s.windowFrees = []) (hwin : ∀ e ∈ es, e.InWindow)
    (hrun : es.foldlM (hstep c) s = some t) :
    WindowSpares c s es ↔ Runs.Meets (fun u e => FlushesAt c u e → Spared u []) (hstep c) s es := by
  have hlist : ∀ pre e post u, es = pre ++ e :: post → pre.foldlM (hstep c) s = some u →
      WindowList (passed pre) u := fun pre e post u hsplit hpre =>
    windowList_of_run (.start hs) (fun e he => hwin e (by rw [hsplit]; simp [he])) hpre
  rw [Runs.meets_iff_splits]
  constructor
  · intro h pre e post u hsplit hpre hflush
    obtain ⟨u₁, hu₁, hrest⟩ := Runs.run_append.mp (hsplit ▸ hrun)
    obtain rfl := Option.some.inj (hpre.symm.trans hu₁)
    obtain ⟨u', hu', -⟩ := Runs.run_cons.mp hrest
    cases hstep_freeList hu' with
    | flush _ _ _ _ hfreed =>
      refine (spared_iff (hlist pre e post u hsplit hpre) []).mpr fun p hp hdrop => ?_
      rw [List.append_nil] at hdrop
      exact absurd hdrop (h pre e post u u' _ hsplit hpre hu' hfreed p hp)
    | keep hno => exact absurd hflush hno
  · intro h pre e post u u' F hsplit hpre hu' hF p hp hpF
    cases hstep_freeList hu' with
    | flush hflush _ _ _ hfreed =>
      rw [hfreed, List.append_cancel_left_eq] at hF
      have hspared := (spared_iff (hlist pre e post u hsplit hpre) []).mp
        (h pre e post u hsplit hpre hflush) p hp
      rw [List.append_nil, hF] at hspared
      exact List.not_mem_nil (hspared hpF)
    | keep _ _ _ hfreed =>
      rw [hfreed, List.self_eq_append_right] at hF
      simp [hF] at hpF

/-! ### Rolled-back windows -/

/-- **Not freed again**: the run from `s` frees no pointer of `l` that it does not pass. -/
def NotFreedAgain (c : HConfig) (l : List ℕ) (s : HState) (es : List (HEvent L)) : Prop :=
  ∀ t F, es.foldlM (hstep c) s = some t → t.freed = s.freed ++ F → ∀ p ∈ l, p ∈ F → p ∈ passed es

/-- **Frees behind a crash.** With `l` passed before it, they are decided at the first flush. -/
theorem notFreedAgain_iff {s₁ s₂ s₃ : HState} {libc : Libc} {F : Frame L} (l : List ℕ)
    (hcrash : hstep c s (.sigsegv libc F) = some s₁)
    (hno : Runs.Meets (fun s e => ¬ FlushesAt c s e) (hstep c) s₁ es)
    (hrun : es.foldlM (hstep c) s₁ = some s₂) (hflush : FlushesAt c s₂ e)
    (heow : hstep c s₂ e = some s₃) :
    (∀ later, NotFreedAgain c l s₁ (es ++ e :: later)) ↔
      ∀ p ∈ l, p ∈ (s.freeList ++ passed es).dropLast → p ∈ passed es := by
  -- the list survives the handler, grows by `es`, and loses all but its last entry to the flush
  have hkept : s₁.freeList = s.freeList := by
    cases hstep_freeList hcrash with
    | flush hflush => exact hflush.elim
    | keep _ hlist => exact hlist.trans (List.append_nil _)
  obtain ⟨hpending, hfreed₂⟩ := pending_of_unflushed hno hrun
  rw [hkept] at hpending
  obtain ⟨hpassed, hempty, hfreed₃⟩ : passed [e] = [] ∧ s₃.freeList = [] ∧
      s₃.freed = s₁.freed ++ (s.freeList ++ passed es).dropLast := by
    cases hstep_freeList heow with
    | flush _ hpassed hlist _ hfreed => exact ⟨hpassed, hlist, by rw [hfreed, hfreed₂, hpending]⟩
    | keep hnot => exact absurd hflush hnot
  have hall : ∀ later, passed (es ++ e :: later) = passed es ++ passed later := by
    intro later
    rw [passed_append, passed_cons, hpassed, List.nil_append]
  constructor
  · intro h p hp hdrop
    -- the run that stops behind the flush already decides it
    have hrun₃ : (es ++ [e]).foldlM (hstep c) s₁ = some s₃ :=
      Runs.run_append.mpr ⟨s₂, hrun, Runs.run_cons.mpr ⟨s₃, heow, rfl⟩⟩
    have hmem := h [] s₃ _ hrun₃ hfreed₃ p hp hdrop
    rw [hall [], show passed ([] : List (HEvent L)) = [] from rfl, List.append_nil] at hmem
    exact hmem
  · intro h later t G hlater hG p hp hpG
    obtain ⟨t₂, ht₂, htail⟩ := Runs.run_append.mp hlater
    rw [hrun, Option.some.injEq] at ht₂
    subst ht₂
    obtain ⟨t₃, ht₃, htail⟩ := Runs.run_cons.mp htail
    rw [heow, Option.some.injEq] at ht₃
    subst ht₃
    obtain ⟨F', hF', horigin⟩ := freed_of_run htail
    rw [hfreed₃, List.append_assoc, hG, List.append_cancel_left_eq] at hF'
    subst hF'
    rw [hall]
    rcases List.mem_append.mp hpG with hfirst | hrest
    · exact List.mem_append_left _ (h p hp hfirst)
    · rw [hempty] at horigin
      rcases horigin p hrest with hnil | hnew
      · simp at hnil
      · exact List.mem_append_right _ hnew

/-- A `SIGSEGV` in `s` is handled by a rollback, which leads to `s₁`. -/
def RolledBack (c : HConfig) (s s₁ : HState) (libc : Libc) (F : Frame L) : Prop :=
  s.ctl.currentTxType = .undolog ∧ hstep c s (.sigsegv libc F) = some s₁

/-- **Frees of a rolled-back window.** A window runs by `es₁`, from a state in which the registers
    have been saved, to a `SIGSEGV` that rolls it back; the run goes on by `es₂` to the first flush,
    and then in any way.  No flush frees a pointer after the window has passed it and before it is
    passed again behind the rollback, exactly when the flushes in the window spare its pointers and
    so does the one behind `es₂`. -/
theorem rolled_back_frees_iff (c : HConfig) (s₀ s s₁ s₂ s₃ : HState) (libc : Libc) (F : Frame L)
    (es₁ es₂ : List (HEvent L)) (e : HEvent L) (hsaved : s₀.windowFrees = [])
    (hwin : ∀ e ∈ es₁, e.InWindow) (hrun₁ : es₁.foldlM (hstep c) s₀ = some s)
    (hback : RolledBack c s s₁ libc F)
    (hno : Runs.Meets (fun s e => ¬ FlushesAt c s e) (hstep c) s₁ es₂)
    (hrun₂ : es₂.foldlM (hstep c) s₁ = some s₂) (hflush : FlushesAt c s₂ e)
    (heow : hstep c s₂ e = some s₃) :
    (WindowSpares c s₀ es₁ ∧
        ∀ later, NotFreedAgain c (passed es₁) s₁ (es₂ ++ e :: later)) ↔
      Runs.Meets (fun u e => FlushesAt c u e → Spared u []) (hstep c) s₀ es₁ ∧
        Spared s (passed es₂) := by
  have hlist : WindowList (passed es₁) s := windowList_of_run (.start hsaved) hwin hrun₁
  refine and_congr (windowSpares_iff hsaved hwin hrun₁) ?_
  rw [spared_iff hlist]
  exact notFreedAgain_iff (passed es₁) hback.2 hno hrun₂ hflush heow

/-! ### Two crashes -/

/-- A window on the undo-log branch that frees the given pointers. -/
def freeingWindow (ptrs : List ℕ) : List (HEvent sampleLayout) :=
  [.gate (some fun _ => false), .gate (some fun _ => false)] ++ ptrs.map .free

/-- The resumed window passes its gate. -/
def resumed : List (HEvent sampleLayout) := [.gate (some fun _ => false)]

/-- The resumed window runs to its end. -/
def resumedToEnd : List (HEvent sampleLayout) := resumed ++ [.endOfWindow 0x4200]

/-- A crash with two pointers pending. -/
def twoPending : HState :=
  ((enterMalloc ++ freeingWindow [0xa000, 0xb000]).foldlM (hstep shippedConfig) shippedInit).get
    (by decide +kernel)

/-- The same state after the rollback. -/
def twoRolledBack : HState :=
  (hstep shippedConfig twoPending (.sigsegv obligingLibc sampleFrame)).get (by decide +kernel)

/-- The window frees `0xa000` and `0xb000` and crashes; it is rolled back and resumed, and
    passes no pointer this time.  Its end frees `0xa000`. -/
theorem rolled_back_free_happens :
    ∃ s s₁ t : HState,
      (enterMalloc ++ freeingWindow [0xa000, 0xb000]).foldlM (hstep shippedConfig) shippedInit =
        some s ∧
      s.ctl.currentTxType = .undolog ∧ s.freeList = [0xa000, 0xb000] ∧
      hstep shippedConfig s (.sigsegv obligingLibc sampleFrame) = some s₁ ∧ s₁.freed = [] ∧
      resumedToEnd.foldlM (hstep shippedConfig) s₁ = some t ∧ passed resumedToEnd = [] ∧
      t.freed = [0xa000] :=
  ⟨twoPending, twoRolledBack,
    (resumedToEnd.foldlM (hstep shippedConfig) twoRolledBack).get (by decide +kernel),
    (Option.some_get _).symm, by decide +kernel, by decide +kernel, (Option.some_get _).symm,
    by decide +kernel, (Option.some_get _).symm, rfl, by decide +kernel⟩

/-- A crash with one pointer pending. -/
def onePending : HState :=
  ((freeingWindow [0xa000]).foldlM (hstep shippedConfig) savedAtMalloc).get (by decide +kernel)

/-- The same state after the rollback. -/
def oneRolledBack : HState :=
  (hstep shippedConfig onePending (.sigsegv obligingLibc sampleFrame)).get (by decide +kernel)

/-- The resumed window with one pointer pending. -/
def oneResumed : HState :=
  (resumed.foldlM (hstep shippedConfig) oneRolledBack).get (by decide +kernel)

/-- With one pointer pending the flush, which stops short of the last entry, spares it. -/
theorem rolled_back_frees_iff_single :
    onePending.freeList = [0xa000] ∧
      hstep shippedConfig onePending (.sigsegv obligingLibc sampleFrame) = some oneRolledBack ∧
      ∀ later, NotFreedAgain shippedConfig (passed (freeingWindow [0xa000])) oneRolledBack
        (resumed ++ HEvent.endOfWindow 0x4200 :: later) := by
  have hcrash : hstep shippedConfig onePending (.sigsegv obligingLibc sampleFrame) =
      some oneRolledBack := (Option.some_get _).symm
  have hwin : ∀ e ∈ freeingWindow [0xa000], e.InWindow := by simp [freeingWindow, HEvent.InWindow]
  refine ⟨by decide +kernel, hcrash, ?_⟩
  refine ((rolled_back_frees_iff shippedConfig savedAtMalloc onePending oneRolledBack oneResumed
    ((hstep (L := sampleLayout) shippedConfig oneResumed (.endOfWindow 0x4200)).get
      (by decide +kernel))
    obligingLibc sampleFrame (freeingWindow [0xa000]) resumed (.endOfWindow 0x4200)
    (by decide +kernel) hwin (Option.some_get _).symm ⟨by decide +kernel, hcrash⟩
    ⟨id, fun _ _ => trivial⟩ (Option.some_get _).symm rfl
    (Option.some_get _).symm).mpr ⟨?_, .inr ⟨rfl, 0xa000, by decide +kernel, by decide +kernel⟩⟩).2
  -- no event of the window flushes
  refine Runs.meets_of_forall fun u e he hflush => ?_
  simp only [freeingWindow, List.map_cons, List.map_nil, List.cons_append, List.nil_append,
    List.mem_cons, List.not_mem_nil, or_false] at he
  rcases he with rfl | rfl | rfl <;> exact hflush.elim

end Firestarter.Hybrid
