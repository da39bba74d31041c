import Firestarter.Ltckpt.DominationMap
import Firestarter.Ltckpt.MemcpyCover

namespace Firestarter.Ltckpt

open FlatMem Cfg

/-!
# Rollback of an optimised function

`LtCkptPassBasic` drops hooks and merges others into ranges; the runtime logs what is left, and a
restart replays the log.  Here the two meet: the instrumented function runs on the write log, with
the hook calls that the pass has left in front of each instruction.  Between its stores the
function calls others: library functions and atomics write without a hook, instrumented functions
log their own stores and may take checkpoints.

* `calleeStep`, `execStep` — an instruction with its hook calls, on the write log;
* `OpenWindow` — the window that a restart would undo, with the granules in its log;
* `Covered` — the calls since the last checkpoint have their granules in the log;
* `optimised_rollback_exact` — along every safe execution a restart brings the memory of the last
  checkpoint back, although dropped stores have no hook of their own.
-/

/-! ### The instrumented function on the write log -/

/-- What an instruction other than a store or memory intrinsic may do. -/
inductive CalleeEvent
  /-- a store behind its hook, in a function that it calls -/
  | store (s : Store)
  /-- writes that no hook watches -/
  | unhooked (writes : List (ℕ × List UInt8))
  | topOfTheLoop

/-- The event calls the top-of-the-loop hook. -/
def CalleeEvent.isTol : CalleeEvent → Bool
  | .topOfTheLoop => true
  | _ => false

/-- An executed instruction: the step, the bytes it writes itself, and what else it does. -/
structure Executed (ι : Type*) where
  step : Step ι ℕ ℕ
  bytes : List UInt8
  callee : List CalleeEvent

/-- The write log; and, for the statement, the memory at the last checkpoint, the granules logged
    since and the writes since that no hook has seen. -/
structure LoggedState where
  wl : WlState
  base : Mem
  logged : List ℕ
  unhooked : List (ℕ × List UInt8)

/-- A hook call.  One that runs past the end of the log hits the guard page and does not return. -/
def hookStep (L : Layout) (s : LoggedState) (c : HookCall) : Option LoggedState :=
  if (runHook L s.wl c).wlPosition ≤ writelogBytes then
    some { s with wl := runHook L s.wl c, logged := s.logged ++ hookGranules L s.wl c }
  else none

/-- One event of a callee. -/
def calleeStep (L : Layout) (s : LoggedState) : CalleeEvent → Option LoggedState
  | .store st =>
    if s.wl.wlPosition + entrySize ≤ writelogBytes then
      some { s with wl := hookedStore L s.wl st, logged := s.logged ++ [granule st.addr] }
    else none
  | .unhooked ws =>
    some { s with
      wl := { s.wl with mem := writeAll s.wl.mem ws }
      unhooked := s.unhooked ++ ws }
  | .topOfTheLoop =>
    -- a call that takes no checkpoint leaves the window open
    if ctxSkipsTol s.wl.ctx then some { s with wl := ltckptTopOfTheLoop s.wl }
    else some ⟨ltckptTopOfTheLoop s.wl, s.wl.mem, [], []⟩

section Function

variable {ι : Type*} (F : PassFunction ι)

/-- The address and the length of what an instruction writes. -/
def PassFunction.target (t : Step ι ℕ ℕ) : ℕ × ℕ :=
  match F.instAt t.node with
  | .store s => (word t s.stripped, s.width)
  | .memIntrinsic dest length => (word t dest, word t length)
  | _ => (0, 0)

/-- What an instruction does behind its hook calls.  Only calls that reach the top-of-the-loop hook
    make calls of it. -/
def instStep (L : Layout) (s : LoggedState) (e : Executed ι) : Option LoggedState :=
  match F.instAt e.step.node with
  | .store _ | .memIntrinsic _ _ =>
    if e.bytes.length = (F.target e.step).2 then
      some { s with wl := { s.wl with mem := write s.wl.mem (F.target e.step).1 e.bytes } }
    else none
  | .topOfTheLoop => e.callee.foldlM (calleeStep L) s
  | .other =>
    if e.callee.any CalleeEvent.isTol = false then e.callee.foldlM (calleeStep L) s else none

variable [DecidableEq ι] (P : InstrumentedFunction ι)

/-- One instruction of the instrumented function: its hook calls, then what it does itself. -/
def execStep (L : Layout) (s : LoggedState) (e : Executed ι) : Option LoggedState :=
  ((hooksAt F P e.step).foldlM (hookStep L) s).bind fun s => instStep F L s e

end Function

/-! ### The window -/

section Window

variable {L : Layout} (R : Frame L)

/-- A granule that a restart can put back: it overlaps nothing of the runtime. -/
def Free (g : ℕ) : Prop := Restorable L g ∧ Apart g 8 R.lo R.size

/-- The granules that a hook call for memory of the program logs. -/
def HookCall.granules : HookCall → List ℕ
  | .storeInstHook a => [granule a]
  | .memcpyHook a n =>
    (List.range ((n + a % 4 + 7) / 8)).map fun j => granule (a - a % 4 + 8 * j)

/-- A hook call for memory of the program, away from the end of the address space. -/
def HookCall.Clear (c : HookCall) : Prop :=
  (∀ g ∈ c.granules, Free R g) ∧
    match c with
    | .storeInstHook a => a < 2 ^ 64
    | .memcpyHook a n => a + n < 2 ^ 64 ∧ a - a % 4 + 8 * ((n + a % 4 + 7) / 8) < 2 ^ 64

/-- The granule is logged, or no write that no hook has seen touches it. -/
def LoggedState.Clean (s : LoggedState) (g : ℕ) : Prop := g ∈ s.logged ∨ Untouched s.unhooked g

/-- The condition on what a callee does. -/
def CalleeClear (s : LoggedState) : CalleeEvent → Prop
  | .store st => Free R (granule st.addr) ∧ s.Clean (granule st.addr)
  | .unhooked ws => ∀ w ∈ ws, Apart w.1 w.2.length L.wlData writelogBytes
  | .topOfTheLoop => True

/-- The log holds `s.logged` and undoes the hooked writes since `s.base`. -/
def OpenWindow (s : LoggedState) : Prop :=
  OpenLog L s.base s.wl s.logged s.unhooked ∧ ∀ g ∈ s.logged, Apart g 8 R.lo R.size

variable {R} {s s' : LoggedState}

theorem HookCall.Clear.hookGranules {c : HookCall} (hc : c.Clear R) (wl : WlState) :
    hookGranules L wl c = c.granules := by
  cases c with
  | storeInstHook a => exact ltckptStoreHook_logged L wl hc.2
  | memcpyHook a n => exact (ltckptMemcpyHook_spec L wl hc.2.1 hc.2.2).2

/-- New entries, for granules apart from the frame. -/
theorem OpenWindow.grow (h : OpenWindow R s) {wl : WlState} {new : List ℕ}
    (hlog : OpenLog L s.base wl (s.logged ++ new) s.unhooked)
    (hnew : ∀ g ∈ new, Apart g 8 R.lo R.size) :
    OpenWindow R { s with wl := wl, logged := s.logged ++ new } :=
  ⟨hlog, fun g hg => (List.mem_append.mp hg).elim (h.2 g) (hnew g)⟩

/-- **A hook call** adds its granules to the log. -/
theorem OpenWindow.hookStep (h : OpenWindow R s) {c : HookCall} (hc : c.Clear R)
    (hclean : ∀ g ∈ c.granules, s.Clean g) (hstep : hookStep L s c = some s') :
    OpenWindow R s' ∧ s'.logged = s.logged ++ c.granules ∧ s'.unhooked = s.unhooked := by
  obtain ⟨hroom, ⟨⟩⟩ := Option.ite_none_right_eq_some.mp hstep
  rw [hc.hookGranules s.wl]
  refine ⟨h.grow (h.1.extend hclean fun base log hinv => ?_) fun g hg => (hc.1 g hg).2, rfl, rfl⟩
  have hpos := hinv.represents.position
  cases c with
  | storeInstHook a =>
    have hfits : (ltckptWriteWl L s.wl a).wlPosition ≤ writelogBytes := hroom
    rw [ltckptWriteWl_wlPosition] at hfits
    have hnext := hinv.hookedStore (s := touch a hc.2) (hc.1 _ (List.mem_singleton_self _)).1
      (by omega)
    rw [hookedStore_touch] at hnext
    exact ⟨_, by simp [loggedEntry, touch, HookCall.granules], hnext⟩
  | memcpyHook a n =>
    obtain ⟨hfree, hlast, hend⟩ := hc
    have hfits : (ltckptMemcpyHook L s.wl a n).wlPosition ≤ writelogBytes := hroom
    rw [(ltckptMemcpyHook_spec L s.wl hlast hend).1] at hfits
    exact hinv.memcpyHook hlast hend
      (fun j hj => (hfree _ (List.mem_map.mpr ⟨j, List.mem_range.mpr hj, rfl⟩)).1) hfits

/-- **The hook calls in front of an instruction** add the granules of each. -/
theorem OpenWindow.hookSteps (h : OpenWindow R s) {cs : List HookCall} (hcs : ∀ c ∈ cs, c.Clear R)
    (hclean : ∀ c ∈ cs, ∀ g ∈ c.granules, s.Clean g)
    (hrun : cs.foldlM (Ltckpt.hookStep L) s = some s') :
    OpenWindow R s' ∧ s.logged ⊆ s'.logged ∧ ∀ c ∈ cs, c.granules ⊆ s'.logged := by
  induction cs generalizing s with
  | nil =>
    cases hrun
    exact ⟨h, List.Subset.refl _, nofun⟩
  | cons c cs ih =>
    rw [List.forall_mem_cons] at hcs hclean
    obtain ⟨s₁, hfirst, hrun⟩ := Runs.run_cons.mp hrun
    obtain ⟨hwin, hlogged, hunhooked⟩ := h.hookStep hcs.1 hclean.1 hfirst
    have hclean₁ : ∀ c' ∈ cs, ∀ g ∈ c'.granules, s₁.Clean g := fun c' hc' g hg => by
      rw [LoggedState.Clean, hlogged, hunhooked]
      exact (hclean.2 c' hc' g hg).imp_left fun hg => List.mem_append_left _ hg
    obtain ⟨hwin', hsub, hall⟩ := ih hwin hcs.2 hclean₁ hrun
    rw [hlogged] at hsub
    refine ⟨hwin', fun g hg => hsub (List.mem_append_left _ hg), ?_⟩
    exact List.forall_mem_cons.mpr ⟨fun g hg => hsub (List.mem_append_right _ hg), hall⟩

/-- **A write** to logged granules. -/
theorem OpenWindow.write (h : OpenWindow R s) {a : ℕ} {bs : List UInt8}
    (hcov : Covers s.logged a bs.length) :
    OpenWindow R { s with wl := { s.wl with mem := write s.wl.mem a bs } } := by
  obtain ⟨⟨base, log, hinv, hgs, hbase⟩, hapart⟩ := h
  refine ⟨⟨base, log, hinv.copy a bs fun x hlo hhi => ?_, hgs, hbase⟩, hapart⟩
  obtain ⟨g, hg, hle, hlt⟩ := hcov x hlo hhi
  rw [← hgs] at hg
  obtain ⟨e, he, rfl⟩ := List.mem_map.mp hg
  rw [granule_eq_of_mem (hinv.represents.ok e he).1.aligned hle hlt]
  exact List.mem_map_of_mem he

/-- **A callee** keeps the window open, and keeps what is logged unless it takes a checkpoint. -/
theorem OpenWindow.calleeStep (h : OpenWindow R s) {e : CalleeEvent} (he : CalleeClear R s e)
    (hstep : calleeStep L s e = some s') :
    OpenWindow R s' ∧ (e.isTol = false → s.logged ⊆ s'.logged) := by
  cases e with
  | store st =>
    obtain ⟨hroom, ⟨⟩⟩ := Option.ite_none_right_eq_some.mp hstep
    obtain ⟨⟨hrest, hoff⟩, hclean⟩ := he
    exact ⟨h.grow (h.1.hookedStore hrest hclean hroom) (by simpa using hoff),
      fun _ => List.subset_append_left _ _⟩
  | unhooked ws =>
    obtain rfl := Option.some.inj hstep
    exact ⟨⟨h.1.unhooked he, h.2⟩, fun _ => List.Subset.refl _⟩
  | topOfTheLoop =>
    refine ⟨?_, nofun⟩
    rw [Ltckpt.calleeStep] at hstep
    split_ifs at hstep with hskip
    · obtain rfl := Option.some.inj hstep
      exact ⟨h.1.topOfTheLoop hskip, h.2⟩
    · obtain rfl := Option.some.inj hstep
      have hempty : (ltckptTopOfTheLoop s.wl).wlPosition = 0 := by
        rw [ltckptTopOfTheLoop_wlPosition, if_neg hskip]
      have hstart := OpenLog.start L hempty
      rw [ltckptTopOfTheLoop_mem] at hstart
      exact ⟨hstart, nofun⟩

/-- **Run of a callee.** -/
theorem OpenWindow.calleeSteps (h : OpenWindow R s) {es : List CalleeEvent}
    (hes : Runs.Meets (CalleeClear R) (Ltckpt.calleeStep L) s es)
    (hrun : es.foldlM (Ltckpt.calleeStep L) s = some s') :
    OpenWindow R s' ∧ (es.any CalleeEvent.isTol = false → s.logged ⊆ s'.logged) := by
  induction es generalizing s with
  | nil =>
    cases hrun
    exact ⟨h, fun _ => List.Subset.refl _⟩
  | cons e es ih =>
    obtain ⟨s₁, hfirst, hrun⟩ := Runs.run_cons.mp hrun
    obtain ⟨hwin, hsub⟩ := h.calleeStep hes.1 hfirst
    obtain ⟨hwin', hsub'⟩ := ih hwin (hes.2 s₁ hfirst) hrun
    refine ⟨hwin', fun hnone => ?_⟩
    rw [List.any_cons, Bool.or_eq_false_iff] at hnone
    exact List.Subset.trans (hsub hnone.1) (hsub' hnone.2)

end Window

/-! ### Only stores lose their hooks -/

section Kept

variable {ι : Type*} {F : PassFunction ι} {DT : DominatorTree F.graph} {o : ElimOptions}

/-- `recusercheck` collects stores. -/
theorem storeAt_of_mem_recusercheck {S n : ι} {V : ℕ} {us : Users ι}
    (h : n ∈ recusercheck F DT S V us) : F.storeAt n ≠ none := by
  induction us generalizing V with
  | nil => exact absurd h List.not_mem_nil
  | store ss rest ih =>
    rw [recusercheck] at h
    split at h
    · rename_i hstore
      rcases List.mem_cons.mp h with rfl | h
      · intro hnone
        rw [hnone] at hstore
        exact absurd hstore.2 (by simp)
      · exact ih h
    · exact ih h
  | cast W users rest ihUsers ih => exact (List.mem_append.mp h).elim ihUsers ih

/-- And so do the chains. -/
theorem storeAt_of_mem_chain {IL : List ι} {V : ℕ} {dc : DominationChain ι}
    (hdc : dc ∈ storeDominationMap F DT IL V) {e : ι × ℤ} (he : e ∈ dc) : F.storeAt e.1 ≠ none := by
  rw [DominationMap.storeDominationMap_eq] at hdc
  obtain ⟨chain, hchain, rfl⟩ := List.mem_map.mp hdc
  have hentry := (DominationMap.entries_addStores _ _ V).mem_iff.mp
    (List.mem_flatMap.mpr ⟨chain, hchain, he⟩)
  obtain ⟨call, hcall, rfl⟩ := List.mem_map.mp hentry
  obtain ⟨n, -, hn⟩ := List.mem_filterMap.mp (List.mem_filter.mp hcall).1
  obtain ⟨s, hs, rfl⟩ := Option.map_eq_some_iff.mp hn
  exact Option.ne_none_iff_exists'.mpr ⟨s, hs⟩

theorem storeAt_of_mem_members {IL : List ι} {r : RangeHook ι}
    (hr : r ∈ aggregateStores F DT o IL) {n : ι} (hn : n ∈ r.members) : F.storeAt n ≠ none := by
  unfold aggregateStores at hr
  split at hr
  · obtain ⟨V, -, hr⟩ := List.mem_flatMap.mp hr
    obtain ⟨dc, hdc, hdump⟩ := List.mem_filterMap.mp hr
    match dc, hdump with
    | e :: e' :: rest, rfl =>
      have hmap : n ∈ (e :: e' :: rest).map Prod.fst := hn
      obtain ⟨e₀, he₀, rfl⟩ := List.mem_map.mp hmap
      exact storeAt_of_mem_chain hdc he₀
  · exact absurd hr List.not_mem_nil

/-- **Only stores lose their hooks**: any other instruction of the set keeps its own. -/
theorem kept_of_not_store [DecidableEq ι] {IL : List ι} {n : ι} (hmem : n ∈ IL)
    (hn : F.storeAt n = none) : n ∈ (onFunction F DT o IL).hooks := by
  refine List.mem_filter.mpr ⟨?_, decide_eq_true fun r hr hr' => storeAt_of_mem_members hr hr' hn⟩
  unfold eliminateDoubleStores
  split
  · refine List.mem_filter.mpr ⟨hmem, decide_eq_true fun hdouble => ?_⟩
    obtain ⟨S, -, hS⟩ := List.mem_flatMap.mp hdouble
    unfold doubleStores at hS
    split at hS
    · exact storeAt_of_mem_recusercheck hS hn
    · exact List.not_mem_nil hS
  · exact hmem

end Kept

/-! ### Safe executions -/

section Run

variable {L : Layout} (R : Frame L) {ι : Type*} [DecidableEq ι] (F : PassFunction ι)
  (DT : DominatorTree F.graph) (o : ElimOptions) (IL : List ι)

/-- The condition on an executed instruction: the pass has collected it, a store stays in one
    granule, a range is one the memcpy hook gets right, a dropped hook was safe to drop, and its
    hook calls are for memory of the program. -/
def StepSafe (es : List (Step ι ℕ ℕ)) (t : Step ι ℕ ℕ) : Prop :=
  DropSafe F DT o IL es t ∧ (∀ c ∈ hooksAt F (onFunction F DT o IL) t, c.Clear R) ∧
    match F.instAt t.node with
    | .store s => t.node ∈ IL ∧ word t s.stripped % 8 + s.width ≤ 8
    | .memIntrinsic dest length => t.node ∈ IL ∧ MemcpySafe (word t dest) (word t length)
    | _ => True

/-- The condition on the state in which it is executed: the granules of its hook calls are logged
    or no write without a hook has touched them, and so for what it calls. -/
def StepClean (s : LoggedState) (e : Executed ι) : Prop :=
  (∀ c ∈ hooksAt F (onFunction F DT o IL) e.step, ∀ g ∈ c.granules, s.Clean g) ∧
    ∀ s', (hooksAt F (onFunction F DT o IL) e.step).foldlM (hookStep L) s = some s' →
      Runs.Meets (CalleeClear R) (calleeStep L) s' e.callee

/-- Each hook call since the last checkpoint has its granules in `gs`. -/
def Covered (P : InstrumentedFunction ι) (es : List (Step ι ℕ ℕ)) (gs : List ℕ) : Prop :=
  ∀ q x r, es = q ++ x :: r → (∀ y ∈ r, isCheckpoint F y = false) →
    ∀ c ∈ hooksAt F P x, c.granules ⊆ gs

variable {R F DT o IL} {es : List (Step ι ℕ ℕ)} {t : Step ι ℕ ℕ} {gs : List ℕ}

/-- One more step.  What was logged counts on, unless the step is a checkpoint. -/
theorem Covered.concat {P : InstrumentedFunction ι}
    (h : isCheckpoint F t = false → Covered F P es gs)
    (hnew : ∀ c ∈ hooksAt F P t, c.granules ⊆ gs) : Covered F P (es ++ [t]) gs := by
  intro q x r heq hr c hc
  rcases List.eq_nil_or_concat' r with rfl | ⟨r', y, rfl⟩
  · obtain ⟨-, hx⟩ := List.append_inj' heq rfl
    cases hx
    exact hnew c hc
  · rw [← List.cons_append, ← List.append_assoc] at heq
    obtain ⟨rfl, hy⟩ := List.append_inj' heq rfl
    cases hy
    exact h (hr _ (by simp)) q x r' rfl (fun y hy => hr y (by simp [hy])) c hc

/-- What a call since the last checkpoint logs is in the log. -/
theorem Covered.covers (h : Covered F (onFunction F DT o IL) (es ++ [t]) gs)
    (hsafe : Along (StepSafe R F DT o IL) [] (es ++ [t])) {a n : ℕ}
    (hlog : LoggedSinceCheckpoint F (onFunction F DT o IL) es t a n) : Covers gs a n := by
  obtain ⟨q, x, r, heq, hr, c, hc, hcov⟩ := hlog
  have hclear : c.Clear R := by
    rw [heq] at hsafe
    exact (hsafe.at (q := q) (r := r)).2.1 c hc
  intro y hlo hhi
  obtain ⟨g, hg, hin⟩ := hcov L ⟨fun _ => 0, 0, ⟨0, 0, 0, 0⟩⟩ y hlo hhi
  rw [hclear.hookGranules] at hg
  exact ⟨g, h q x r heq hr c hc hg, hin⟩

/-- A checkpoint has no hook calls in front of it. -/
theorem hooksAt_of_isCheckpoint (ht : isCheckpoint F t = true) :
    hooksAt F (onFunction F DT o IL) t = [] := by
  cases hinst : F.instAt t.node with
  | topOfTheLoop =>
    have hranges : ∀ r ∈ (onFunction F DT o IL).ranges, r.dominator ≠ t.node := by
      intro r hr heq
      obtain ⟨⟨s, hs, -⟩, -⟩ := rangeHook_dominator hr
      rw [heq, PassFunction.storeAt, hinst] at hs
      cases hs
    rw [hooksAt, List.filter_eq_nil_iff.mpr fun r hr => by simpa using hranges r hr, instHook,
      hinst]
    simp
  | _ => simp [isCheckpoint, hinst] at ht

/-- **All that an instruction writes is logged** in front of it, by a call since the last
    checkpoint. -/
theorem target_covered (hexec : IsExec F.graph F.defs (es ++ [t]))
    (hsafe : Along (StepSafe R F DT o IL) [] (es ++ [t]))
    (hlog : Covered F (onFunction F DT o IL) (es ++ [t]) gs) :
    Covers gs (F.target t).1 (F.target t).2 := by
  obtain ⟨-, -, htarget⟩ := hsafe.at (q := es) (r := [])
  unfold PassFunction.target
  cases hinst : F.instAt t.node with
  | store s =>
    rw [hinst] at htarget
    obtain ⟨hmem, hone⟩ := htarget
    have hg : granule (word t s.stripped) = word t s.stripped - word t s.stripped % 8 := rfl
    have hdrop : Along (DropSafe F DT o IL) [] (es ++ [t]) := hsafe.mono fun _ _ h => h.1
    show Covers gs (word t s.stripped) s.width
    exact hlog.covers hsafe ((granule_logged hexec hdrop hmem (storeAt_eq_some.mpr hinst)).mono
      (by omega) (by omega))
  | memIntrinsic dest length =>
    rw [hinst] at htarget
    obtain ⟨hmem, hrange⟩ := htarget
    have hnone : F.storeAt t.node = none := by rw [PassFunction.storeAt, hinst]
    have hlast : word t dest + word t length < 2 ^ 64 := by
      unfold MemcpySafe at hrange
      omega
    obtain ⟨hend, hreach⟩ := (memcpySafe_iff hlast).mp hrange
    refine hlog.covers hsafe
      (.here (c := .memcpyHook (word t dest) (word t length)) ?_ fun L st => ?_)
    · refine List.mem_append_right _ ?_
      rw [if_pos (kept_of_not_store hmem hnone), instHook, hinst]
      exact List.mem_singleton_self _
    · rw [(ltckptMemcpyHook_spec L st hlast hend).2]
      exact (covers_range_iff _ _).mpr hreach
  | _ =>
    intro x hlo hhi
    simp only at hlo hhi
    omega

/-- **Step.** An instruction keeps the window and what is known of its log. -/
theorem execStep_window {s s' : LoggedState} {e : Executed ι} (hwin : OpenWindow R s)
    (hlog : Covered F (onFunction F DT o IL) es s.logged)
    (hexec : IsExec F.graph F.defs (es ++ [e.step]))
    (hsafe : Along (StepSafe R F DT o IL) [] (es ++ [e.step])) (hclean : StepClean R F DT o IL s e)
    (hstep : execStep F (onFunction F DT o IL) L s e = some s') :
    OpenWindow R s' ∧ Covered F (onFunction F DT o IL) (es ++ [e.step]) s'.logged := by
  obtain ⟨s₁, hhooks, hstep⟩ := Option.bind_eq_some_iff.mp hstep
  have hclear := (hsafe.at (q := es) (r := [])).2.1
  obtain ⟨hwin₁, hsub, hnew⟩ := hwin.hookSteps hclear hclean.1 hhooks
  have hcallee := hclean.2 s₁ hhooks
  -- while nothing is dropped from the log, all calls since the last checkpoint stay in it
  have hgrow : ∀ {gs}, s₁.logged ⊆ gs → Covered F (onFunction F DT o IL) (es ++ [e.step]) gs :=
    fun hgs => .concat (fun _ q x r heq hr c hc g hg => hgs (hsub (hlog q x r heq hr c hc hg)))
      fun c hc g hg => hgs (hnew c hc hg)
  have hwrite : e.bytes.length = (F.target e.step).2 → OpenWindow R
      { s₁ with wl := { s₁.wl with mem := write s₁.wl.mem (F.target e.step).1 e.bytes } } :=
    fun hlen => hwin₁.write (hlen ▸ target_covered hexec hsafe (hgrow (List.Subset.refl _)))
  unfold instStep at hstep
  cases hinst : F.instAt e.step.node with
  | store s =>
    rw [hinst] at hstep
    obtain ⟨hlen, ⟨⟩⟩ := Option.ite_none_right_eq_some.mp hstep
    exact ⟨hwrite hlen, hgrow (List.Subset.refl _)⟩
  | memIntrinsic dest length =>
    rw [hinst] at hstep
    obtain ⟨hlen, ⟨⟩⟩ := Option.ite_none_right_eq_some.mp hstep
    exact ⟨hwrite hlen, hgrow (List.Subset.refl _)⟩
  | topOfTheLoop =>
    rw [hinst] at hstep
    have hck : isCheckpoint F e.step = true := by simp [isCheckpoint, hinst]
    refine ⟨(hwin₁.calleeSteps hcallee hstep).1, .concat (fun h => ?_) fun c hc => ?_⟩
    · rw [hck] at h
      cases h
    · rw [hooksAt_of_isCheckpoint hck] at hc
      exact absurd hc List.not_mem_nil
  | other =>
    rw [hinst] at hstep
    obtain ⟨hnone, hstep⟩ := Option.ite_none_right_eq_some.mp hstep
    obtain ⟨hwin', hsub'⟩ := hwin₁.calleeSteps hcallee hstep
    exact ⟨hwin', hgrow (hsub' hnone)⟩

/-- **Run.** So does an execution that is safe up to each of its steps. -/
theorem execRun_window {s₀ s : LoggedState} {es : List (Executed ι)} (hwin : OpenWindow R s₀)
    (hcut : ∀ q t r, es.map Executed.step = q ++ t :: r →
      IsExec F.graph F.defs (q ++ [t]) ∧ Along (StepSafe R F DT o IL) [] (q ++ [t]))
    (hclean : Runs.Meets (StepClean R F DT o IL) (execStep F (onFunction F DT o IL) L) s₀ es)
    (hrun : es.foldlM (execStep F (onFunction F DT o IL) L) s₀ = some s) :
    OpenWindow R s ∧ Covered F (onFunction F DT o IL) (es.map Executed.step) s.logged := by
  induction es using List.reverseRecOn generalizing s with
  | nil =>
    cases hrun
    exact ⟨hwin, fun q x r heq => by simp at heq⟩
  | append_singleton es e ih =>
    obtain ⟨s₁, hrun, hlast⟩ := Runs.run_append.mp hrun
    obtain ⟨s₂, hstep, hend⟩ := Runs.run_cons.mp hlast
    cases hend
    obtain ⟨hwin, hlog⟩ := ih (fun q t r heq => hcut q t (r ++ [e.step]) (by simp [heq]))
      (Runs.meets_prefix (List.prefix_append es [e]) hclean) hrun
    obtain ⟨hexec, hsafe⟩ := hcut (es.map Executed.step) e.step [] (by simp)
    rw [List.map_append, List.map_singleton]
    exact execStep_window hwin hlog hexec hsafe
      (Runs.meets_iff_splits.mp hclean es e [] s₁ rfl hrun) hstep

/-- **Exact rollback of an optimised function.**  Along every safe execution a restart trips no
    assert, returns 0, leaves an empty log and restores every byte outside the log area and its
    own frame, whichever hooks the pass has dropped or merged; except for bytes that are written
    without a hook in a granule that is not logged. -/
theorem optimised_rollback_exact {s₀ s : LoggedState} (hentry : OpenWindow R s₀)
    (es : List (Executed ι)) (hexec : IsExec F.graph F.defs (es.map Executed.step))
    (hsafe : Along (StepSafe R F DT o IL) [] (es.map Executed.step))
    (hclean : Runs.Meets (StepClean R F DT o IL) (execStep F (onFunction F DT o IL) L) s₀ es)
    (hrun : es.foldlM (execStep F (onFunction F DT o IL) L) s₀ = some s) :
    ∃ r, ltckptRestartHook R true s.wl = .ok r ∧ r.code = 0 ∧ r.state.wlPosition = 0 ∧
      ∀ x, ¬ InLog L x → ¬ InFrame R x → s.Clean (granule x) → r.state.mem x = s.base x := by
  obtain ⟨⟨hlog, hapart⟩, -⟩ := execRun_window hentry
    (fun q t r heq => ⟨(heq ▸ hexec).cut, (heq ▸ hsafe).cut⟩) hclean hrun
  obtain ⟨r, hr, hcode, hpos, -, hmem⟩ := hlog.restart R hapart
  exact ⟨r, hr, hcode, hpos, hmem⟩

end Run

/-- What the pass leaves of `storeTwice`: one hook, in front of the first store. -/
def storeTwiceHooks (n : ℕ) : List HookCall :=
  hooksAt (straightFunction storeTwice storeTwiceUsers)
    (straightOnFunction storeTwice storeTwiceUsers ⟨true, true⟩ [0, 1]) (straightStep n)

/-- A run of the two stores, from zero memory and an empty log. -/
def storeTwiceSteps : List (Executed ℕ) :=
  [⟨straightStep 0, List.replicate 8 1, []⟩, ⟨straightStep 1, List.replicate 8 2, []⟩]

/-- The state behind it. -/
def storeTwiceRun : Option LoggedState :=
  storeTwiceSteps.foldlM
    (execStep (straightFunction storeTwice storeTwiceUsers)
      (straightOnFunction storeTwice storeTwiceUsers ⟨true, true⟩ [0, 1]) sampleLayout)
    ⟨⟨fun _ => 0, 0, ⟨1, 0, 0, 0⟩⟩, fun _ => 0, [], []⟩

theorem storeTwiceHooks_eq : ∀ n ∈ [0, 1], ∀ c ∈ storeTwiceHooks n, c = .storeInstHook 0x10000 := by
  decide +kernel

theorem storeTwice_safe : Along (StepSafe sampleFrame (straightFunction storeTwice storeTwiceUsers)
    (straightTree storeTwice storeTwiceUsers) ⟨true, true⟩ [0, 1]) []
    [straightStep 0, straightStep 1] := by
  have hclear : ∀ n ∈ [0, 1], ∀ c ∈ storeTwiceHooks n, c.Clear sampleFrame := by
    intro n hn c hc
    rw [storeTwiceHooks_eq n hn c hc]
    refine ⟨fun g hg => ?_, by decide⟩
    rw [List.mem_singleton.mp hg]
    exact ⟨⟨by decide, by decide, by decide, by decide, by decide, by decide⟩, by decide⟩
  exact ⟨⟨by decide +kernel, hclear 0 (by simp), by decide, by decide⟩,
    ⟨by decide +kernel, hclear 1 (by simp), by decide, by decide⟩, trivial⟩

theorem storeTwiceHooks_one : storeTwiceHooks 1 = [] := by
  decide +kernel

/-- Nothing is written without a hook, but for the second store. -/
theorem storeTwice_clean : Runs.Meets
    (StepClean sampleFrame (straightFunction storeTwice storeTwiceUsers)
      (straightTree storeTwice storeTwiceUsers) ⟨true, true⟩ [0, 1])
    (execStep (straightFunction storeTwice storeTwiceUsers)
      (straightOnFunction storeTwice storeTwiceUsers ⟨true, true⟩ [0, 1]) sampleLayout)
    ⟨⟨fun _ => 0, 0, ⟨1, 0, 0, 0⟩⟩, fun _ => 0, [], []⟩ storeTwiceSteps := by
  refine ⟨⟨fun c _ g _ => .inr nofun, fun _ _ => trivial⟩, fun s' _ => ⟨⟨?_, fun _ _ => trivial⟩,
    fun _ _ => trivial⟩⟩
  intro c hc
  exact absurd (show c ∈ storeTwiceHooks 1 from hc) (by simp [storeTwiceHooks_one])

/-- The restart undoes both stores. -/
theorem optimised_rollback_exact_store_twice :
    storeTwiceHooks 1 = [] ∧ ∃ s r, storeTwiceRun = some s ∧ s.wl.mem 0x10000 = 2 ∧
      ltckptRestartHook sampleFrame true s.wl = .ok r ∧ r.state.mem 0x10000 = 0 := by
  have hfacts : storeTwiceRun.map (fun s => (s.wl.mem 0x10000, s.base 0x10000, s.unhooked)) =
      some (2, 0, []) := by
    decide +kernel
  obtain ⟨s, hrun, hs⟩ := Option.map_eq_some_iff.mp hfacts
  obtain ⟨hmem, hs⟩ := Prod.mk.inj hs
  obtain ⟨hbase, hunhooked⟩ := Prod.mk.inj hs
  have hstart : OpenWindow sampleFrame ⟨⟨fun _ => 0, 0, ⟨1, 0, 0, 0⟩⟩, fun _ => 0, [], []⟩ :=
    ⟨OpenLog.start sampleLayout rfl, nofun⟩
  obtain ⟨r, hr, -, -, hrestored⟩ := optimised_rollback_exact hstart storeTwiceSteps
    (straightFunction_exec storeTwice storeTwiceUsers 1) storeTwice_safe storeTwice_clean hrun
  have hclean : s.Clean (granule 0x10000) := .inr (by simp [hunhooked, Untouched])
  exact ⟨storeTwiceHooks_one, s, r, hrun, hmem, hr,
    (hrestored _ (by unfold InLog; decide) (by unfold InFrame; decide) hclean).trans hbase⟩

end Firestarter.Ltckpt
