import Mathlib.Algebra.Group.Int.Defs
import Mathlib.Algebra.Group.Nat.Defs
import Firestarter.Lib.Run
import Mathlib.Data.List.Sort

namespace Firestarter.Edfi

/-!
# Basic-block traces per call site (`edfi_df.c`, `rcvry_util.c`)

Each basic block reports its id to `edfi_trace_bb`.  At the end of a recovery window
`rcvry_prof_bbtrace_flush` merges the ids of the window into the list of the current call
site.  Duplicates are filtered three times: by a hash list inside a window, by marking the
window's ids that the site already has, and by sorting.

* `edfiTraceBb`, `merge`, `rcvryProfBbtraceFlush` — the code; `none` is a failed `assert`;
* `merge_spec` — merging two lists of ids keeps the first strictly increasing and adds the
  members of the second;
* `traceRun_exact` — the list of a site is, at every point of a run, the strictly increasing
  list of the ids that its windows traced.
-/

/-! ### Sorting -/

/-- `_qcmp`: the difference of two `unsigned`s, returned as an `int`. -/
def qcmp (a b : ℕ) : ℤ :=
  let d : ℕ := (a + 2 ^ 32 - b) % 2 ^ 32
  if d < 2 ^ 31 then d else d - 2 ^ 32

/-- `qsort` with `_qcmp`: put the list in an order in which no element compares greater than
    a later one. -/
def qsort (l : List ℕ) : List ℕ := l.insertionSort fun a b => qcmp a b ≤ 0

/-! ### Merging -/

/-- The two nested loops of `_merge`: zero what `list2` has in common with `list1`, and count
    it. -/
def markDuplicates (list1 list2 : List ℕ) : List ℕ × ℕ :=
  list1.foldl (fun (l, duplicatesFound) x =>
    (l.map (fun y => if y = x then 0 else y), duplicatesFound + l.count x)) (list2, 0)

/-- `_merge`; the sum under the `assert` is computed in `unsigned`s. -/
def merge (list1 list2 : List ℕ) (maxsize : ℕ) : Option (List ℕ) :=
  let list2 := qsort list2
  let (list2, duplicatesFound) := markDuplicates list1 list2
  if (list1.length + list2.length + 2 ^ 32 - duplicatesFound) % 2 ^ 32 ≤ maxsize then
    some (qsort (list1 ++ list2.filter (· ≠ 0)))
  else none

/-! ### Tracing -/

/-- `EDFI_BB_TRACING_HISTORY_SIZE`. -/
def historySize : ℕ := 16384

/-- `RCVRY_BBTRACING_MAXSIZE`. -/
def bbtracingMaxsize : ℕ := 16384

/-- The state of the tracer.  `history` is the array up to `edfi_bbtrace_next_index`, and
    `bbs` the array of each site up to its `num_bbs`. -/
structure TraceState where
  numBbs : ℕ
  disableTracing : Bool
  isStartup : Bool
  hashlist : ℕ → ℕ
  startuplist : ℕ → ℕ
  history : List ℕ
  currentSiteId : ℕ
  bbs : ℕ → List ℕ

/-- `edfi_trace_init`, with the static arrays as they are at program start. -/
def edfiTraceInit (numBbs : ℕ) (disableTracing : Bool) : TraceState where
  numBbs := numBbs
  disableTracing := disableTracing
  isStartup := true
  hashlist _ := 0
  startuplist _ := 0
  history := []
  currentSiteId := 0
  bbs _ := []

/-- The block of `edfi_trace_bb` that records an id not yet seen in this window. -/
def recordBb (st : TraceState) (bbId : ℕ) : Option TraceState :=
  if st.hashlist bbId = 0 then
    if st.history.length + 1 < historySize then
      some { st with
        hashlist := Function.update st.hashlist bbId bbId
        history := st.history ++ [bbId] }
    else none
  else some st

/-- The last block of `edfi_trace_bb`: during startup the id is also kept in a list of its own,
    which no flush reads. -/
def recordStartup (bbId : ℕ) (st : TraceState) : TraceState :=
  if st.isStartup then { st with startuplist := Function.update st.startuplist bbId bbId }
  else st

/-- `edfi_trace_bb`. -/
def edfiTraceBb (st : TraceState) (bbId : ℕ) : Option TraceState :=
  if st.disableTracing then some st
  else if bbId < st.numBbs then (recordBb st bbId).map (recordStartup bbId)
  else none

/-- The block of `rcvry_prof_bbtrace_flush` that merges the window into the current site. -/
def mergeIntoSite (st : TraceState) : Option TraceState :=
  if 0 ≠ st.currentSiteId then
    (merge (st.bbs st.currentSiteId) st.history bbtracingMaxsize).map fun merged =>
      { st with bbs := Function.update st.bbs st.currentSiteId merged }
  else some st

/-- `rcvry_prof_bbtrace_flush`. -/
def rcvryProfBbtraceFlush (st : TraceState) : Option TraceState :=
  if st.disableTracing then some st
  else
    (mergeIntoSite st).map fun st =>
      { st with
        history := []
        hashlist := fun i => if i < st.numBbs then 0 else st.hashlist i }

/-! ### Runs -/

/-- What happens to the tracer. -/
inductive TraceEvent
  | traceBb (bbId : ℕ)
  | setSite (siteId : ℕ)
  | flush
  deriving DecidableEq, Repr

/-- A state of a run: the tracer, the ids traced since the last flush, and for each site the
    ids traced in the windows flushed while it was current. -/
structure TraceRun where
  st : TraceState
  window : List ℕ
  flushed : ℕ → List ℕ

/-- The ids the instrumentation passes give to basic blocks. -/
def ValidId (st : TraceState) (id : ℕ) : Prop := 1 ≤ id ∧ id < st.numBbs ∧ id < 2 ^ 31

instance (st : TraceState) (id : ℕ) : Decidable (ValidId st id) :=
  inferInstanceAs (Decidable (_ ∧ _ ∧ _))

/-- One event of a run in which no `assert` fails. -/
def traceStep (s : TraceRun) : TraceEvent → Option TraceRun
  | .traceBb id =>
    if ValidId s.st id then
      (edfiTraceBb s.st id).map fun st => { s with st := st, window := id :: s.window }
    else none
  | .setSite site => some { s with st := { s.st with currentSiteId := site } }
  | .flush =>
    (rcvryProfBbtraceFlush s.st).map fun st =>
      { st := st
        window := []
        flushed := Function.update s.flushed s.st.currentSiteId
          (s.window ++ s.flushed s.st.currentSiteId) }

/-- The state in which a traced program starts. -/
def traceInit (numBbs : ℕ) : TraceRun := ⟨edfiTraceInit numBbs false, [], fun _ => []⟩

/-! ### What sorting and merging do -/

/-- Below `2^31` the difference of two ids has the sign of their order. -/
theorem qcmp_le_zero_iff {a b : ℕ} (ha : a < 2 ^ 31) (hb : b < 2 ^ 31) : qcmp a b ≤ 0 ↔ a ≤ b := by
  simp only [qcmp]
  split_ifs <;> omega

theorem mem_qsort {x : ℕ} {l : List ℕ} : x ∈ qsort l ↔ x ∈ l := List.mem_insertionSort _

/-- Distinct ids come out strictly increasing. -/
theorem qsort_pairwise_lt {l : List ℕ} (hlt : ∀ x ∈ l, x < 2 ^ 31) (hnodup : l.Nodup) :
    (qsort l).Pairwise (· < ·) := by
  have hsort : qsort l = l.insertionSort (· ≤ ·) := by
    have h := List.map_insertionSort (r := fun a b => qcmp a b ≤ 0) (s := (· ≤ ·)) id l
      fun a ha b hb => qcmp_le_zero_iff (hlt a ha) (hlt b hb)
    rw [qsort]
    simpa only [List.map_id_fun, id_eq] using h
  have hle : (l.insertionSort (· ≤ ·)).Pairwise (· ≤ ·) := List.pairwise_insertionSort _ l
  have hne : (l.insertionSort (· ≤ ·)).Pairwise (· ≠ ·) :=
    (List.perm_insertionSort _ l).nodup_iff.mpr hnodup
  rw [hsort]
  exact (hle.and hne).imp fun h => lt_of_le_of_ne h.1 h.2

/-- The loops zero exactly the members of `list1`. -/
theorem markDuplicates_fst {list1 : List ℕ} (h0 : 0 ∉ list1) (list2 : List ℕ) :
    (markDuplicates list1 list2).1 = list2.map fun y => if y ∈ list1 then 0 else y := by
  -- the count does not matter, so any start value of it will do
  suffices hgen : ∀ d : ℕ, (list1.foldl (fun (l, duplicatesFound) x =>
      (l.map (fun y => if y = x then 0 else y), duplicatesFound + l.count x)) (list2, d)).1 =
        list2.map fun y => if y ∈ list1 then 0 else y from hgen 0
  induction list1 generalizing list2 with
  | nil =>
    intro d
    simp
  | cons x xs ih =>
    intro d
    have hx : (0 : ℕ) ∉ xs := fun h => h0 (List.mem_cons_of_mem x h)
    rw [List.foldl_cons, ih hx, List.map_map]
    refine List.map_congr_left fun y _ => ?_
    show (if (if y = x then 0 else y) ∈ xs then 0 else if y = x then 0 else y) =
      if y ∈ x :: xs then 0 else y
    by_cases hyx : y = x
    · simp [hyx]
    · simp [hyx]

/-- What is left of `list2` without the zeros: its members that `list1` does not have. -/
theorem filter_markDuplicates {list1 list2 : List ℕ} (h0 : 0 ∉ list1) (hpos : ∀ y ∈ list2, y ≠ 0) :
    (markDuplicates list1 list2).1.filter (· ≠ 0) = list2.filter (· ∉ list1) := by
  rw [markDuplicates_fst h0, List.filter_map]
  have hfilter : list2.filter ((fun x => decide (x ≠ 0)) ∘
      fun y => if y ∈ list1 then 0 else y) = list2.filter (· ∉ list1) := by
    refine List.filter_congr fun y hy => ?_
    by_cases hy1 : y ∈ list1
    · simp [hy1]
    · simp [hy1, hpos y hy]
  rw [hfilter]
  -- none of those that are left was zeroed
  refine (List.map_congr_left fun y hy => ?_).trans (List.map_id _)
  have hy1 : y ∉ list1 := by simpa using (List.mem_filter.mp hy).2
  simp [hy1]

/-- A list of ids of one site: nonzero, below `2^31`, strictly increasing. -/
structure IdList (l : List ℕ) : Prop where
  pos : ∀ x ∈ l, 1 ≤ x
  lt : ∀ x ∈ l, x < 2 ^ 31
  sorted : l.Pairwise (· < ·)

/-- **Merging** adds the members of the second list and keeps the first strictly increasing. -/
theorem merge_spec {list1 list2 merged : List ℕ} {maxsize : ℕ} (h1 : IdList list1)
    (hpos : ∀ x ∈ list2, 1 ≤ x) (hlt : ∀ x ∈ list2, x < 2 ^ 31) (hnodup : list2.Nodup)
    (h : merge list1 list2 maxsize = some merged) :
    IdList merged ∧ ∀ x, x ∈ merged ↔ x ∈ list1 ∨ x ∈ list2 := by
  have h0 : 0 ∉ list1 := fun hmem => absurd (h1.pos 0 hmem) (by decide)
  have hnew := filter_markDuplicates h0 fun y (hy : y ∈ qsort list2) =>
    Nat.one_le_iff_ne_zero.mp (hpos y (mem_qsort.mp hy))
  simp only [merge, Option.ite_none_right_eq_some, Option.some.injEq] at h
  obtain ⟨-, rfl⟩ := h
  rw [hnew]
  have hmem : ∀ x, x ∈ qsort (list1 ++ (qsort list2).filter (· ∉ list1)) ↔
      x ∈ list1 ∨ x ∈ list2 := by
    intro x
    rw [mem_qsort, List.mem_append, List.mem_filter, mem_qsort]
    by_cases hx : x ∈ list1 <;> simp [hx]
  refine ⟨⟨fun x hx => ?_, fun x hx => ?_, qsort_pairwise_lt (fun x hx => ?_) ?_⟩, hmem⟩
  · exact ((hmem x).mp hx).elim (h1.pos x) (hpos x)
  · exact ((hmem x).mp hx).elim (h1.lt x) (hlt x)
  · exact ((hmem x).mp (mem_qsort.mpr hx)).elim (h1.lt x) (hlt x)
  · have hsorted2 : (qsort list2).Nodup := (List.perm_insertionSort _ list2).nodup_iff.mpr hnodup
    refine List.nodup_append.mpr ⟨h1.sorted.imp ne_of_lt, hsorted2.filter _, ?_⟩
    intro x hx y hy hxy
    have hy1 : y ∉ list1 := by simpa using (List.mem_filter.mp hy).2
    exact hy1 (hxy ▸ hx)

/-! ### Steps and runs -/

/-- Recording the startup list changes nothing else. -/
theorem recordStartup_eq (bbId : ℕ) (st : TraceState) :
    recordStartup bbId st = { st with startuplist := (recordStartup bbId st).startuplist } := by
  rw [recordStartup]
  split_ifs <;> rfl

/-- What a call of `edfi_trace_bb` that returns has done: a new id goes into the hash list and
    the history, a known one into neither. -/
theorem edfiTraceBb_spec {st st' : TraceState} {id : ℕ} (hon : st.disableTracing = false)
    (h : edfiTraceBb st id = some st') :
    (∃ startuplist, st' = { st with startuplist := startuplist } ∧ st.hashlist id ≠ 0) ∨
      ∃ startuplist, st.hashlist id = 0 ∧ st' = { st with
        startuplist := startuplist
        hashlist := Function.update st.hashlist id id
        history := st.history ++ [id] } := by
  simp only [edfiTraceBb, hon, Bool.false_eq_true, if_false, Option.ite_none_right_eq_some,
    Option.map_eq_some_iff] at h
  obtain ⟨-, mid, hmid, rfl⟩ := h
  by_cases hhash : st.hashlist id = 0
  · simp only [recordBb, if_pos hhash, Option.ite_none_right_eq_some, Option.some.injEq] at hmid
    obtain ⟨-, rfl⟩ := hmid
    exact Or.inr ⟨_, hhash, recordStartup_eq id _⟩
  · simp only [recordBb, if_neg hhash, Option.some.injEq] at hmid
    subst hmid
    exact Or.inl ⟨_, recordStartup_eq id st, hhash⟩

/-- What a flush that returns has done. -/
theorem rcvryProfBbtraceFlush_spec {st st' : TraceState} (hon : st.disableTracing = false)
    (h : rcvryProfBbtraceFlush st = some st') :
    ∃ bbs, st' = { st with
        bbs := bbs
        history := []
        hashlist := fun i => if i < st.numBbs then 0 else st.hashlist i } ∧
      (st.currentSiteId = 0 → bbs = st.bbs) ∧
      (st.currentSiteId ≠ 0 → ∃ merged,
        merge (st.bbs st.currentSiteId) st.history bbtracingMaxsize = some merged ∧
          bbs = Function.update st.bbs st.currentSiteId merged) := by
  simp only [rcvryProfBbtraceFlush, hon, Bool.false_eq_true, if_false,
    Option.map_eq_some_iff] at h
  obtain ⟨mid, hmid, rfl⟩ := h
  by_cases hsite : st.currentSiteId = 0
  · rw [mergeIntoSite, if_neg (fun hne => hne hsite.symm), Option.some.injEq] at hmid
    subst hmid
    exact ⟨st.bbs, rfl, fun _ => rfl, fun hne => absurd hsite hne⟩
  · rw [mergeIntoSite, if_pos (Ne.symm hsite), Option.map_eq_some_iff] at hmid
    obtain ⟨merged, hmerged, rfl⟩ := hmid
    exact ⟨_, rfl, fun h0 => absurd h0 hsite, fun _ => ⟨merged, hmerged, rfl⟩⟩

/-- The hash list and the history describe the window, and the lists of the sites the windows
    flushed into them. -/
structure TraceInv (s : TraceRun) : Prop where
  enabled : s.st.disableTracing = false
  hash : ∀ id, ValidId s.st id → (s.st.hashlist id = 0 ↔ id ∉ s.window)
  history : ∀ id, id ∈ s.st.history ↔ id ∈ s.window
  nodup : s.st.history.Nodup
  valid : ∀ id ∈ s.window, ValidId s.st id
  sites : ∀ site, site ≠ 0 →
    IdList (s.st.bbs site) ∧ ∀ id, id ∈ s.st.bbs site ↔ id ∈ s.flushed site

/-- Tracing an id adds it to the window. -/
theorem TraceInv.traceBb {s : TraceRun} {st : TraceState} {id : ℕ} (h : TraceInv s)
    (hid : ValidId s.st id) (hst : edfiTraceBb s.st id = some st) :
    TraceInv { s with st := st, window := id :: s.window } := by
  have hvalid : ∀ i ∈ id :: s.window, ValidId s.st i := by
    intro i hi
    rcases List.mem_cons.mp hi with rfl | hi
    · exact hid
    · exact h.valid i hi
  rcases edfiTraceBb_spec h.enabled hst with ⟨_, rfl, hknown⟩ | ⟨_, hnew, rfl⟩
  · -- the id is in the hash list, so it was traced in this window before
    have hmem : id ∈ s.window := by
      by_contra hc
      exact hknown ((h.hash id hid).mpr hc)
    have hsame : ∀ i, i ∈ id :: s.window ↔ i ∈ s.window := fun i => by
      rw [List.mem_cons]
      exact ⟨fun hi => hi.elim (fun heq => heq ▸ hmem) fun hi => hi, Or.inr⟩
    exact ⟨h.enabled, fun i hi => (h.hash i hi).trans (not_congr (hsame i)).symm,
      fun i => (h.history i).trans (hsame i).symm, h.nodup, hvalid, h.sites⟩
  · have hnot : id ∉ s.st.history := fun hc => (h.hash id hid).mp hnew ((h.history id).mp hc)
    refine ⟨h.enabled, fun i hi => ?_, fun i => ?_, ?_, hvalid, h.sites⟩
    · show Function.update s.st.hashlist id id i = 0 ↔ i ∉ id :: s.window
      by_cases hi' : i = id
      · have hne : id ≠ 0 := Nat.one_le_iff_ne_zero.mp hid.1
        simp [hi', hne]
      · rw [Function.update_of_ne hi', h.hash i hi]
        simp [hi']
    · show i ∈ s.st.history ++ [id] ↔ i ∈ id :: s.window
      rw [List.mem_append, List.mem_singleton, h.history i, List.mem_cons, or_comm]
    · exact List.nodup_append.mpr ⟨h.nodup, List.nodup_singleton id, fun x hx y hy hxy =>
        hnot (List.mem_singleton.mp hy ▸ hxy ▸ hx)⟩

/-- A flush empties the window into the list of the current site. -/
theorem TraceInv.flush {s : TraceRun} {st : TraceState} (h : TraceInv s)
    (hst : rcvryProfBbtraceFlush s.st = some st) :
    TraceInv
      { st := st
        window := []
        flushed := Function.update s.flushed s.st.currentSiteId
          (s.window ++ s.flushed s.st.currentSiteId) } := by
  obtain ⟨bbs, rfl, hzero, hmerge⟩ := rcvryProfBbtraceFlush_spec h.enabled hst
  refine ⟨h.enabled, fun i hi => ?_, fun i => Iff.rfl, List.nodup_nil,
    fun i hi => absurd hi List.not_mem_nil, fun site hsite => ?_⟩
  · simp only [if_pos hi.2.1, List.not_mem_nil, not_false_eq_true]
  · show IdList (bbs site) ∧ ∀ i, i ∈ bbs site ↔ i ∈ Function.update s.flushed _ _ site
    by_cases hcur : site = s.st.currentSiteId
    · obtain ⟨merged, hmerged, hbbs⟩ := hmerge (hcur ▸ hsite)
      obtain ⟨hids, hmem⟩ := h.sites _ (hcur ▸ hsite)
      have hvalid : ∀ i ∈ s.st.history, ValidId s.st i := fun i hi =>
        h.valid i ((h.history i).mp hi)
      obtain ⟨hids', hmem'⟩ := merge_spec hids (fun i hi => (hvalid i hi).1)
        (fun i hi => (hvalid i hi).2.2) h.nodup hmerged
      rw [hbbs, hcur, Function.update_self, Function.update_self]
      refine ⟨hids', fun i => ?_⟩
      rw [hmem' i, hmem i, h.history i, List.mem_append, or_comm]
    · -- the list of another site, which a flush leaves alone, also one for site 0
      rw [Function.update_of_ne hcur]
      by_cases hnone : s.st.currentSiteId = 0
      · rw [hzero hnone]
        exact h.sites site hsite
      · obtain ⟨merged, -, hbbs⟩ := hmerge hnone
        rw [hbbs, Function.update_of_ne hcur]
        exact h.sites site hsite

/-- **Step.** Every event keeps the invariant. -/
theorem traceStep_inv {s s' : TraceRun} {e : TraceEvent} (h : TraceInv s)
    (hstep : traceStep s e = some s') : TraceInv s' := by
  cases e with
  | traceBb id =>
    simp only [traceStep, Option.ite_none_right_eq_some, Option.map_eq_some_iff] at hstep
    obtain ⟨hid, st, hst, rfl⟩ := hstep
    exact h.traceBb hid hst
  | setSite site =>
    simp only [traceStep, Option.some.injEq] at hstep
    subst hstep
    exact ⟨h.enabled, h.hash, h.history, h.nodup, h.valid, h.sites⟩
  | flush =>
    simp only [traceStep, Option.map_eq_some_iff] at hstep
    obtain ⟨st, hst, rfl⟩ := hstep
    exact h.flush hst

/-- The invariant holds before anything has been traced. -/
theorem traceInit_inv (numBbs : ℕ) : TraceInv (traceInit numBbs) := by
  refine ⟨rfl, fun id _ => ?_, fun id => Iff.rfl, List.nodup_nil,
    fun id hid => absurd hid List.not_mem_nil, fun site _ => ⟨⟨?_, ?_, List.Pairwise.nil⟩, ?_⟩⟩
  · simp [traceInit, edfiTraceInit]
  · exact fun id hid => absurd hid List.not_mem_nil
  · exact fun id hid => absurd hid List.not_mem_nil
  · exact fun id => Iff.rfl

/-- **Traces are exact sets.**  In every state that a run without a failed `assert` reaches,
    the list of each site is strictly increasing and holds exactly the ids traced in the
    windows that were flushed while the site was current. -/
theorem traceRun_exact (numBbs : ℕ) (es : List TraceEvent) (t : TraceRun)
    (hrun : es.foldlM traceStep (traceInit numBbs) = some t) (site : ℕ) (hsite : 1 ≤ site) :
    (t.st.bbs site).Pairwise (· < ·) ∧ ∀ id, id ∈ t.st.bbs site ↔ id ∈ t.flushed site := by
  have hinv : TraceInv t :=
    Runs.invariant_of_run (P := fun _ _ => True) (fun s e s' h _ hs => traceStep_inv h hs)
      (traceInit_inv numBbs) (Runs.meets_of_forall fun _ _ _ => trivial) hrun
  obtain ⟨hids, hmem⟩ := hinv.sites site (Nat.one_le_iff_ne_zero.mp hsite)
  exact ⟨hids.sorted, hmem⟩

/-- Two windows of site 4 that share block 3, with a window of site 2 in between. -/
def sampleTrace : List TraceEvent :=
  [.setSite 4, .traceBb 7, .traceBb 3, .traceBb 7, .flush, .setSite 2, .traceBb 3, .flush,
    .setSite 4, .traceBb 5, .traceBb 3, .flush]

/-- The state after `sampleTrace`. -/
def sampleTraced : TraceRun := (sampleTrace.foldlM traceStep (traceInit 10)).get (by decide +kernel)

theorem traceRun_exact_sample :
    (sampleTraced.st.bbs 4).Pairwise (· < ·) ∧ 5 ∈ sampleTraced.st.bbs 4 ∧
      9 ∉ sampleTraced.st.bbs 4 := by
  obtain ⟨hsorted, hmem⟩ := traceRun_exact 10 sampleTrace sampleTraced (Option.some_get _).symm 4
    (by decide)
  have hyes : 5 ∈ sampleTraced.flushed 4 := by decide +kernel
  have hno : 9 ∉ sampleTraced.flushed 4 := by decide +kernel
  exact ⟨hsorted, (hmem 5).mpr hyes, fun h => hno ((hmem 9).mp h)⟩

end Firestarter.Edfi
