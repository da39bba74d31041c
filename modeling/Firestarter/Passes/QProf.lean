import Mathlib.Data.Int.Notation
import Mathlib.Data.List.ProdSigma
import Mathlib.Data.List.Nodup
import Mathlib.Data.List.Perm.Subperm

namespace Firestarter.QProf

/-!
# Merging task classes (`qprof_common.h`)

A `QProfConf` holds, for each task class, its long-lived sites, its deepest long-lived loop and the
library calls in it, and it counts the classes by kind.  Classes with equal deepest loops are
merged in pairs: the pairs are collected first, then the class with the smaller id of each pair is
erased and the counters are decremented by the kind of the other one.

* `mergeTaskClassPair`, `mergeAllTaskClassesWithSameDeepestLLLoops`: the code;
* `mergePairs_eq`: a list of pairs that erases no class twice, in closed form;
* `mergePairs_erases`: a list of pairs that trips no assertion erases no class twice;
* `loopPairs_eq`: the pairs that are collected;
* `merge_consistent_iff`: when the configuration stays consistent.
-/

/-! ### Maps by task class -/

/-- `std::map<int, β>`, in the order of its keys. -/
structure TaskMap (β : Type) where
  entries : List (ℤ × β)
  sorted : (entries.map Prod.fst).Pairwise (· < ·)

namespace TaskMap

variable {β : Type}

def keys (m : TaskMap β) : List ℤ := m.entries.map Prod.fst

def values (m : TaskMap β) : List β := m.entries.map Prod.snd

/-- The entries whose keys meet `p`. -/
def filter (m : TaskMap β) (p : ℤ → Bool) : TaskMap β :=
  ⟨m.entries.filter fun e => p e.1, m.sorted.sublist (List.filter_sublist.map _)⟩

/-- `m.erase(key)` -/
def erase (m : TaskMap β) (key : ℤ) : TaskMap β := m.filter (· ≠ key)

/-- `erased = m.erase(key); assert(erased == 1);` -/
def eraseOne (m : TaskMap β) (key : ℤ) : Option (TaskMap β) :=
  if key ∈ m.keys then some (m.erase key) else none

theorem nodup_keys (m : TaskMap β) : m.keys.Nodup := m.sorted.imp Int.ne_of_lt

@[simp] theorem keys_filter (m : TaskMap β) (p : ℤ → Bool) :
    (m.filter p).keys = m.keys.filter p := by
  simp only [keys, filter, List.filter_map, Function.comp_def]

theorem filter_filter (m : TaskMap β) (p q : ℤ → Bool) :
    (m.filter p).filter q = m.filter fun k => p k && q k := by
  simp only [filter, List.filter_filter, Bool.and_comm]

end TaskMap

/-! ### The code -/

/-- The fields of a site that are compared and looked up. -/
structure QProfSite where
  taskClassID : ℤ
  moduleName : String
  lineNum : ℤ
  functionName : String
  siteName : String
  siteFuncName : String
  libFlags : BitVec 64
  deriving DecidableEq

/-- `QProfSite::equals` -/
def QProfSite.equals (site other : QProfSite) : Bool :=
  if site.lineNum ≠ other.lineNum then false
  else if site.libFlags ≠ other.libFlags then false
  else if site.moduleName ≠ other.moduleName then false
  else if site.functionName ≠ other.functionName then false
  else if site.siteName ≠ other.siteName then false
  else if site.siteFuncName ≠ other.siteFuncName then false
  else true

variable {s t : QProfSite}

theorem QProfSite.equals_iff :
    s.equals t ↔ s.lineNum = t.lineNum ∧ s.libFlags = t.libFlags ∧ s.moduleName = t.moduleName ∧
      s.functionName = t.functionName ∧ s.siteName = t.siteName ∧
      s.siteFuncName = t.siteFuncName := by
  simp [QProfSite.equals]

theorem QProfSite.equals_refl (s : QProfSite) : s.equals s := by simp [QProfSite.equals_iff]

theorem QProfSite.equals_symm (h : s.equals t) : t.equals s := by
  rw [QProfSite.equals_iff] at *
  obtain ⟨h1, h2, h3, h4, h5, h6⟩ := h
  exact ⟨h1.symm, h2.symm, h3.symm, h4.symm, h5.symm, h6.symm⟩

theorem QProfSite.equals_trans {u : QProfSite} (h : s.equals t) (h' : t.equals u) : s.equals u := by
  rw [QProfSite.equals_iff] at *
  obtain ⟨h1, h2, h3, h4, h5, h6⟩ := h
  obtain ⟨h1', h2', h3', h4', h5', h6'⟩ := h'
  exact ⟨h1.trans h1', h2.trans h2', h3.trans h3', h4.trans h4', h5.trans h5', h6.trans h6'⟩

structure QProfConf where
  taskClassLLSitestacks : TaskMap (List QProfSite)
  taskClassDeepestLLLoops : TaskMap QProfSite
  taskClassDeepestLLLibs : TaskMap (List QProfSite)
  numTaskClasses : ℤ
  numLLTaskClasses : ℤ
  numLLBlockExtTaskClasses : ℤ
  numLLBlockIntTaskClasses : ℤ

/-- `_UTIL_STLIB_FLAG(STLIB_BLOCK_EXT)` -/
def blockExt : BitVec 32 := 1

namespace QProfConf

def getDeepestLLLoops (conf : QProfConf) : List QProfSite := conf.taskClassDeepestLLLoops.values

def getDeepestLLLibs (conf : QProfConf) : List QProfSite :=
  conf.taskClassDeepestLLLibs.values.flatten

/-- `lookupTaskClassLibFlags`: whether the class has a library site, and the flags of all of them,
    collected in an `int`. -/
def lookupTaskClassLibFlags (conf : QProfConf) (taskClassID : ℤ) : Bool × BitVec 32 :=
  conf.getDeepestLLLibs.foldl (fun r site =>
    if site.taskClassID = taskClassID then (true, r.2 ||| site.libFlags.setWidth 32) else r)
    (false, 0)

def mergeTaskClassLLSitestacks (conf : QProfConf) (_taskClassID otherTaskClassID : ℤ) :
    Option QProfConf :=
  (conf.taskClassLLSitestacks.eraseOne otherTaskClassID).map fun m =>
    { conf with taskClassLLSitestacks := m }

def mergeTaskClassDeepestLLLoops (conf : QProfConf) (_taskClassID otherTaskClassID : ℤ) :
    Option QProfConf :=
  (conf.taskClassDeepestLLLoops.eraseOne otherTaskClassID).map fun m =>
    { conf with taskClassDeepestLLLoops := m }

def mergeTaskClassDeepestLLLibs (conf : QProfConf) (_taskClassID otherTaskClassID : ℤ) :
    Option QProfConf :=
  (conf.taskClassDeepestLLLibs.eraseOne otherTaskClassID).map fun m =>
    { conf with taskClassDeepestLLLibs := m }

/-- The counters after a merge into the class `taskClassID`. -/
def countMerged (conf : QProfConf) (taskClassID : ℤ) : QProfConf :=
  let conf := { conf with numTaskClasses := conf.numTaskClasses - 1 }
  let (found, libFlags) := conf.lookupTaskClassLibFlags taskClassID
  if found then
    let conf := { conf with numLLTaskClasses := conf.numLLTaskClasses - 1 }
    if libFlags &&& blockExt ≠ 0 then
      { conf with numLLBlockExtTaskClasses := conf.numLLBlockExtTaskClasses - 1 }
    else { conf with numLLBlockIntTaskClasses := conf.numLLBlockIntTaskClasses - 1 }
  else conf

/-- `mergeTaskClassPair`; `none` when an assertion fails. -/
def mergeTaskClassPair (conf : QProfConf) (taskClassID otherTaskClassID : ℤ) :
    Option QProfConf := do
  let conf ← conf.mergeTaskClassLLSitestacks taskClassID otherTaskClassID
  let conf ← conf.mergeTaskClassDeepestLLLoops taskClassID otherTaskClassID
  let conf ← conf.mergeTaskClassDeepestLLLibs taskClassID otherTaskClassID
  pure (conf.countMerged taskClassID)

/-- The pairs of equal loops: each site with the ones `seen` in front of it. -/
def loopPairs (seen : List QProfSite) : List QProfSite → List (QProfSite × QProfSite)
  | [] => []
  | site :: sites =>
    (seen.filter fun other => site.equals other).map (fun other => (site, other)) ++
      loopPairs (seen ++ [site]) sites

/-- The second loop. -/
def mergePairs (conf : QProfConf) (pairs : List (QProfSite × QProfSite)) : Option QProfConf :=
  pairs.foldlM (fun conf p => conf.mergeTaskClassPair p.1.taskClassID p.2.taskClassID) conf

def mergeAllTaskClassesWithSameDeepestLLLoops (conf : QProfConf) : Option QProfConf :=
  conf.mergePairs (loopPairs [] conf.getDeepestLLLoops)

/-! ### Consistent configurations -/

/-- A class whose library sites block externally. -/
def isExt (conf : QProfConf) (taskClassID : ℤ) : Bool :=
  (conf.lookupTaskClassLibFlags taskClassID).2 &&& blockExt ≠ 0

/-- **The maps belong together**: they have the same classes, each site is filed under its own
    class, and each class has a library site. -/
structure Filed (conf : QProfConf) : Prop where
  stackKeys : conf.taskClassLLSitestacks.keys = conf.taskClassDeepestLLLoops.keys
  libKeys : conf.taskClassDeepestLLLibs.keys = conf.taskClassDeepestLLLoops.keys
  stackSites : ∀ e ∈ conf.taskClassLLSitestacks.entries, ∀ s ∈ e.2, s.taskClassID = e.1
  loopSites : ∀ e ∈ conf.taskClassDeepestLLLoops.entries, e.2.taskClassID = e.1
  libSites : ∀ e ∈ conf.taskClassDeepestLLLibs.entries, ∀ s ∈ e.2, s.taskClassID = e.1
  libs_ne : ∀ e ∈ conf.taskClassDeepestLLLibs.entries, e.2 ≠ []

/-- **The counters** are the numbers of classes: all, long-lived, and of these the ones that block
    externally and internally. -/
structure Counted (conf : QProfConf) : Prop where
  all : conf.numTaskClasses = conf.taskClassDeepestLLLoops.keys.length
  longLived : conf.numLLTaskClasses =
    conf.taskClassDeepestLLLoops.keys.countP fun c => (conf.lookupTaskClassLibFlags c).1
  blockExt : conf.numLLBlockExtTaskClasses =
    conf.taskClassDeepestLLLoops.keys.countP fun c =>
      (conf.lookupTaskClassLibFlags c).1 && conf.isExt c
  blockInt : conf.numLLBlockIntTaskClasses =
    conf.taskClassDeepestLLLoops.keys.countP fun c =>
      (conf.lookupTaskClassLibFlags c).1 && !conf.isExt c

/-! ### Fewer classes -/

/-- The configuration with the classes that meet `p`, and its counters less `n`, `ext` and `int`. -/
def restrict (conf : QProfConf) (p : ℤ → Bool) (n ext int : ℕ) : QProfConf where
  taskClassLLSitestacks := conf.taskClassLLSitestacks.filter p
  taskClassDeepestLLLoops := conf.taskClassDeepestLLLoops.filter p
  taskClassDeepestLLLibs := conf.taskClassDeepestLLLibs.filter p
  numTaskClasses := conf.numTaskClasses - n
  numLLTaskClasses := conf.numLLTaskClasses - n
  numLLBlockExtTaskClasses := conf.numLLBlockExtTaskClasses - ext
  numLLBlockIntTaskClasses := conf.numLLBlockIntTaskClasses - int

theorem restrict_restrict (conf : QProfConf) (p q : ℤ → Bool) (n ext int n' ext' int' : ℕ) :
    (conf.restrict p n ext int).restrict q n' ext' int' =
      conf.restrict (fun k => p k && q k) (n + n') (ext + ext') (int + int') := by
  simp only [restrict, TaskMap.filter_filter, Int.natCast_add, Int.sub_sub]

variable {conf : QProfConf} {p : ℤ → Bool} {c : ℤ}

theorem lookupTaskClassLibFlags_congr {conf' : QProfConf}
    (h : conf.taskClassDeepestLLLibs = conf'.taskClassDeepestLLLibs) (c : ℤ) :
    conf.lookupTaskClassLibFlags c = conf'.lookupTaskClassLibFlags c := by
  unfold lookupTaskClassLibFlags getDeepestLLLibs
  rw [h]

/-- The lookup reads the sites of the class only. -/
theorem lookupTaskClassLibFlags_eq (conf : QProfConf) (c : ℤ) :
    conf.lookupTaskClassLibFlags c =
      (conf.getDeepestLLLibs.filter fun s => s.taskClassID = c).foldl
        (fun r s => (true, r.2 ||| s.libFlags.setWidth 32)) (false, 0) := by
  rw [List.foldl_filter]
  simp only [decide_eq_true_eq]
  rfl

theorem Filed.restrict (h : conf.Filed) (p : ℤ → Bool) (n ext int : ℕ) :
    (conf.restrict p n ext int).Filed where
  stackKeys := by
    show (conf.taskClassLLSitestacks.filter p).keys = _
    rw [TaskMap.keys_filter, h.stackKeys]
    exact (TaskMap.keys_filter _ _).symm
  libKeys := by
    show (conf.taskClassDeepestLLLibs.filter p).keys = _
    rw [TaskMap.keys_filter, h.libKeys]
    exact (TaskMap.keys_filter _ _).symm
  stackSites e he := h.stackSites e (List.mem_of_mem_filter he)
  loopSites e he := h.loopSites e (List.mem_of_mem_filter he)
  libSites e he := h.libSites e (List.mem_of_mem_filter he)
  libs_ne e he := h.libs_ne e (List.mem_of_mem_filter he)

/-- **Other classes** do not matter to the lookup of a class. -/
theorem Filed.lookup_restrict (h : conf.Filed) (hc : p c = true) (n ext int : ℕ) :
    (conf.restrict p n ext int).lookupTaskClassLibFlags c = conf.lookupTaskClassLibFlags c := by
  rw [lookupTaskClassLibFlags_eq, lookupTaskClassLibFlags_eq]
  congr 1
  have hsites := h.libSites
  show List.filter _ ((conf.taskClassDeepestLLLibs.entries.filter fun e => p e.1).map
      Prod.snd).flatten = List.filter _ (conf.taskClassDeepestLLLibs.entries.map Prod.snd).flatten
  generalize conf.taskClassDeepestLLLibs.entries = entries at hsites ⊢
  induction entries with
  | nil => rfl
  | cons e es ih =>
    have ih := ih fun e' he' => hsites e' (List.mem_cons_of_mem _ he')
    rw [List.map_cons, List.flatten_cons, List.filter_append, ← ih, List.filter_cons]
    split
    · rw [List.map_cons, List.flatten_cons, List.filter_append]
    · next hp =>
      -- the sites of an erased class are not those of `c`
      have hnone : e.2.filter (fun s => s.taskClassID = c) = [] := by
        rw [List.filter_eq_nil_iff]
        intro s hs hsc
        rw [decide_eq_true_eq, hsites e List.mem_cons_self s hs] at hsc
        exact hp (hsc ▸ hc)
      rw [hnone, List.nil_append]

/-- Every class has a library site. -/
theorem Filed.lookup_found (h : conf.Filed) (hc : c ∈ conf.taskClassDeepestLLLoops.keys) :
    (conf.lookupTaskClassLibFlags c).1 = true := by
  rw [← h.libKeys] at hc
  obtain ⟨e, he, rfl⟩ := List.mem_map.mp hc
  obtain ⟨s, hs⟩ := List.exists_mem_of_ne_nil _ (h.libs_ne e he)
  have hmem : s ∈ conf.getDeepestLLLibs.filter fun s => s.taskClassID = e.1 := by
    rw [List.mem_filter, decide_eq_true_eq]
    exact ⟨List.mem_flatten.mpr ⟨e.2, List.mem_map_of_mem he, hs⟩, h.libSites e he s hs⟩
  have hkeeps (l : List QProfSite) (r : BitVec 32) :
      (l.foldl (fun r s => (true, r.2 ||| s.libFlags.setWidth 32)) (true, r)).1 = true := by
    induction l generalizing r with
    | nil => rfl
    | cons s l ih => exact ih _
  rw [lookupTaskClassLibFlags_eq]
  cases hl : conf.getDeepestLLLibs.filter fun s => s.taskClassID = e.1 with
  | nil =>
    rw [hl] at hmem
    cases hmem
  | cons s l => exact hkeeps l _

/-! ### One pair -/

/-- A pair trips no assertion when all maps have the erased class. -/
theorem mergeTaskClassPair_eq (conf : QProfConf) (c d : ℤ) :
    conf.mergeTaskClassPair c d =
      if d ∈ conf.taskClassLLSitestacks.keys ∧ d ∈ conf.taskClassDeepestLLLoops.keys ∧
          d ∈ conf.taskClassDeepestLLLibs.keys then
        some ((conf.restrict (· ≠ d) 0 0 0).countMerged c)
      else none := by
  unfold mergeTaskClassPair mergeTaskClassLLSitestacks mergeTaskClassDeepestLLLoops
    mergeTaskClassDeepestLLLibs TaskMap.eraseOne
  by_cases hstack : d ∈ conf.taskClassLLSitestacks.keys
  · by_cases hloop : d ∈ conf.taskClassDeepestLLLoops.keys
    · by_cases hlib : d ∈ conf.taskClassDeepestLLLibs.keys
      · simp [hstack, hloop, hlib, restrict, TaskMap.erase]
      · simp [hstack, hloop, hlib]
    · simp [hstack, hloop]
  · simp [hstack]

/-- **A pair** of classes, of which the first one's kind decides about the counters. -/
theorem Filed.mergeTaskClassPair_eq (h : conf.Filed) {d : ℤ} (hcd : c ≠ d)
    (hc : c ∈ conf.taskClassDeepestLLLoops.keys) (hd : d ∈ conf.taskClassDeepestLLLoops.keys) :
    conf.mergeTaskClassPair c d =
      some (conf.restrict (· ≠ d) 1 (if conf.isExt c then 1 else 0)
        (if !conf.isExt c then 1 else 0)) := by
  rw [QProfConf.mergeTaskClassPair_eq, h.stackKeys, h.libKeys, if_pos ⟨hd, hd, hd⟩,
    Option.some.injEq]
  have hlookup : ({ conf.restrict (· ≠ d) 0 0 0 with
        numTaskClasses := (conf.restrict (· ≠ d) 0 0 0).numTaskClasses - 1 } :
      QProfConf).lookupTaskClassLibFlags c = conf.lookupTaskClassLibFlags c :=
    (lookupTaskClassLibFlags_congr rfl c).trans (h.lookup_restrict (decide_eq_true hcd) 0 0 0)
  unfold countMerged isExt
  simp only [hlookup, h.lookup_found hc, if_true]
  by_cases hext : (conf.lookupTaskClassLibFlags c).2 &&& blockExt ≠ 0
  · simp only [if_pos hext, decide_eq_true hext]
    simp [QProfConf.restrict]
  · simp only [if_neg hext, decide_eq_false hext]
    simp [QProfConf.restrict]

/-! ### All pairs -/

/-- The classes that a list of pairs erases. -/
def erasedBy (pairs : List (QProfSite × QProfSite)) : List ℤ := pairs.map fun p => p.2.taskClassID

@[simp] theorem erasedBy_cons (p : QProfSite × QProfSite) (pairs : List (QProfSite × QProfSite)) :
    erasedBy (p :: pairs) = p.2.taskClassID :: erasedBy pairs := rfl

theorem mem_erasedBy {p : QProfSite × QProfSite} {pairs : List (QProfSite × QProfSite)}
    (hp : p ∈ pairs) : p.2.taskClassID ∈ erasedBy pairs :=
  List.mem_map_of_mem hp

/-- The kind of a class that stays does not depend on the others. -/
theorem Filed.isExt_restrict (h : conf.Filed) (hc : p c = true) (n ext int : ℕ) :
    (conf.restrict p n ext int).isExt c = conf.isExt c := by
  unfold isExt
  rw [h.lookup_restrict hc]

/-- **Pairs that erase no class twice** and merge into classes that stay. -/
theorem Filed.mergePairs_eq (pairs : List (QProfSite × QProfSite)) (h : conf.Filed)
    (hnodup : (erasedBy pairs).Nodup)
    (hkeys : ∀ p ∈ pairs, p.1.taskClassID ∈ conf.taskClassDeepestLLLoops.keys ∧
      p.2.taskClassID ∈ conf.taskClassDeepestLLLoops.keys)
    (hstay : ∀ p ∈ pairs, p.1.taskClassID ∉ erasedBy pairs) :
    conf.mergePairs pairs =
      some (conf.restrict (· ∉ erasedBy pairs) pairs.length
        (pairs.countP fun p => conf.isExt p.1.taskClassID)
        (pairs.countP fun p => !conf.isExt p.1.taskClassID)) := by
  induction pairs generalizing conf with
  | nil =>
    simp [mergePairs, QProfConf.restrict, erasedBy, TaskMap.filter]
  | cons p pairs ih =>
    rw [erasedBy_cons, List.nodup_cons] at hnodup
    obtain ⟨hnot, hnodup⟩ := hnodup
    obtain ⟨hc, hd⟩ := hkeys p List.mem_cons_self
    have hstayNe (q : QProfSite × QProfSite) (hq : q ∈ p :: pairs) :
        q.1.taskClassID ≠ p.2.taskClassID := fun heq =>
      hstay q hq (heq ▸ List.mem_cons_self)
    show (conf.mergeTaskClassPair p.1.taskClassID p.2.taskClassID).bind
      (fun conf => conf.mergePairs pairs) = _
    rw [h.mergeTaskClassPair_eq (hstayNe p List.mem_cons_self) hc hd, Option.bind_some]
    generalize hext : (if conf.isExt p.1.taskClassID then 1 else 0) = ext
    generalize hint : (if !conf.isExt p.1.taskClassID then 1 else 0) = int
    have hkind (q : QProfSite × QProfSite) (hq : q ∈ pairs) :
        (conf.restrict (· ≠ p.2.taskClassID) 1 ext int).isExt q.1.taskClassID =
          conf.isExt q.1.taskClassID :=
      h.isExt_restrict (decide_eq_true (hstayNe q (List.mem_cons_of_mem _ hq))) 1 ext int
    rw [ih (h.restrict _ _ _ _) hnodup, restrict_restrict, Option.some.injEq]
    · have hclasses : (fun k => decide (k ≠ p.2.taskClassID) && decide (k ∉ erasedBy pairs)) =
          fun k => decide (k ∉ erasedBy (p :: pairs)) := by
        funext k
        rw [← Bool.decide_and, erasedBy_cons]
        simp only [List.mem_cons, not_or, ne_eq]
      rw [hclasses, List.length_cons, Nat.add_comm 1, List.countP_cons, List.countP_cons, hext,
        hint, Nat.add_comm ext, Nat.add_comm int]
      congr 2
      · exact List.countP_congr fun q hq => by rw [hkind q hq]
      · exact List.countP_congr fun q hq => by rw [hkind q hq]
    · intro q hq
      have hkeysq := hkeys q (List.mem_cons_of_mem _ hq)
      have hkept {k : ℤ} (hk : k ∈ conf.taskClassDeepestLLLoops.keys)
          (hne : k ≠ p.2.taskClassID) :
          k ∈ (conf.restrict (· ≠ p.2.taskClassID) 1 ext int).taskClassDeepestLLLoops.keys := by
        show k ∈ (conf.taskClassDeepestLLLoops.filter _).keys
        rw [TaskMap.keys_filter, List.mem_filter, decide_eq_true_eq]
        exact ⟨hk, hne⟩
      refine ⟨hkept hkeysq.1 (hstayNe q (List.mem_cons_of_mem _ hq)), hkept hkeysq.2 ?_⟩
      exact fun heq => hnot (heq ▸ mem_erasedBy hq)
    · exact fun q hq hmem => hstay q (List.mem_cons_of_mem _ hq) (List.mem_cons_of_mem _ hmem)

theorem countMerged_loops (conf : QProfConf) (c : ℤ) :
    (conf.countMerged c).taskClassDeepestLLLoops = conf.taskClassDeepestLLLoops := by
  unfold countMerged
  dsimp only
  split
  · split <;> rfl
  · rfl

/-- **Pairs that trip no assertion** erase no class twice. -/
theorem mergePairs_erases (pairs : List (QProfSite × QProfSite)) {conf' : QProfConf}
    (h : conf.mergePairs pairs = some conf') :
    (∀ d ∈ erasedBy pairs, d ∈ conf.taskClassDeepestLLLoops.keys) ∧ (erasedBy pairs).Nodup := by
  induction pairs generalizing conf with
  | nil => exact ⟨fun d hd => absurd hd List.not_mem_nil, List.nodup_nil⟩
  | cons p pairs ih =>
    change (conf.mergeTaskClassPair p.1.taskClassID p.2.taskClassID).bind
      (fun conf => conf.mergePairs pairs) = some conf' at h
    rw [mergeTaskClassPair_eq] at h
    split at h
    · next hkeys =>
      rw [Option.bind_some] at h
      obtain ⟨hsub, hnodup⟩ := ih h
      have hrest (d : ℤ) (hd : d ∈ erasedBy pairs) :
          d ∈ conf.taskClassDeepestLLLoops.keys ∧ d ≠ p.2.taskClassID := by
        have hd := hsub d hd
        rw [countMerged_loops] at hd
        change d ∈ (conf.taskClassDeepestLLLoops.filter _).keys at hd
        rw [TaskMap.keys_filter, List.mem_filter, decide_eq_true_eq] at hd
        exact hd
      rw [erasedBy_cons]
      refine ⟨?_, List.nodup_cons.mpr ⟨fun hmem => (hrest _ hmem).2 rfl, hnodup⟩⟩
      rintro d (_ | ⟨_, hd⟩)
      · exact hkeys.2.1
      · exact (hrest d hd).1
    · cases h

/-! ### The pairs that are collected -/

/-- The sites in the order of their classes. -/
theorem Filed.sorted_loops (h : conf.Filed) :
    conf.getDeepestLLLoops.Pairwise fun s t => s.taskClassID < t.taskClassID := by
  have hids : conf.getDeepestLLLoops.map QProfSite.taskClassID =
      conf.taskClassDeepestLLLoops.keys := by
    unfold getDeepestLLLoops TaskMap.values TaskMap.keys
    rw [List.map_map]
    exact List.map_congr_left h.loopSites
  have hsorted := conf.taskClassDeepestLLLoops.sorted
  change conf.taskClassDeepestLLLoops.keys.Pairwise (· < ·) at hsorted
  rw [← hids] at hsorted
  exact List.pairwise_map.mp hsorted

/-- **The pairs of classes with equal loops**, the one with the larger id first. -/
def equalPairs (sites : List QProfSite) : List (QProfSite × QProfSite) :=
  (sites.product sites).filter fun p => p.2.taskClassID < p.1.taskClassID ∧ p.1.equals p.2

theorem mem_equalPairs {sites : List QProfSite} {s t : QProfSite} :
    (s, t) ∈ equalPairs sites ↔
      s ∈ sites ∧ t ∈ sites ∧ t.taskClassID < s.taskClassID ∧ s.equals t := by
  simp only [equalPairs, List.mem_filter, List.pair_mem_product, decide_eq_true_eq, and_assoc]

/-- The nested loops collect the pairs of equal loops. -/
theorem loopPairs_eq {sites : List QProfSite}
    (hsorted : sites.Pairwise fun s t => s.taskClassID < t.taskClassID) :
    loopPairs [] sites = equalPairs sites := by
  have hrun (seen rest : List QProfSite)
      (hsorted : (seen ++ rest).Pairwise fun s t => s.taskClassID < t.taskClassID) :
      loopPairs seen rest = rest.flatMap fun s =>
        ((seen ++ rest).filter fun t => t.taskClassID < s.taskClassID ∧ s.equals t).map
          (Prod.mk s) := by
    induction rest generalizing seen with
    | nil => rfl
    | cons s rest ih =>
      have hassoc : seen ++ s :: rest = seen ++ [s] ++ rest := by simp
      obtain ⟨-, hrest, hseen⟩ := List.pairwise_append.mp hsorted
      -- the sites in front of `s` are those with a smaller class
      have hfront : ((seen ++ s :: rest).filter
          fun t => t.taskClassID < s.taskClassID ∧ s.equals t) =
          seen.filter fun t => s.equals t := by
        have hnone : ((s :: rest).filter
            fun t => t.taskClassID < s.taskClassID ∧ s.equals t) = [] := by
          rw [List.filter_eq_nil_iff]
          intro t ht hlt
          rw [decide_eq_true_eq] at hlt
          rcases List.mem_cons.mp ht with rfl | ht
          · exact Int.lt_irrefl _ hlt.1
          · exact Int.lt_asymm hlt.1 (List.rel_of_pairwise_cons hrest ht)
        rw [List.filter_append, hnone, List.append_nil]
        refine List.filter_congr fun t ht => ?_
        simp [hseen t ht s List.mem_cons_self]
      rw [loopPairs, ih _ (hassoc ▸ hsorted), List.flatMap_cons, hfront, hassoc]
  rw [hrun [] sites hsorted, List.nil_append, equalPairs, List.product, List.filter_flatMap]
  simp only [List.filter_map, Function.comp_def]

/-- **No three classes have equal loops.** -/
def NoThreeEqual (sites : List QProfSite) : Prop :=
  ∀ a ∈ sites, ∀ b ∈ sites, ∀ c ∈ sites, a.taskClassID < b.taskClassID →
    b.taskClassID < c.taskClassID → ¬ (b.equals a ∧ c.equals b)

instance (sites : List QProfSite) : Decidable (NoThreeEqual sites) :=
  inferInstanceAs (Decidable (∀ a ∈ sites, ∀ b ∈ sites, ∀ c ∈ sites, _ → _ → ¬ (_ ∧ _)))

section Pairs

variable {sites : List QProfSite}
  (hsorted : sites.Pairwise fun s t => s.taskClassID < t.taskClassID)
include hsorted

/-- A site is known by its class. -/
theorem eq_of_taskClassID {s t : QProfSite} (hs : s ∈ sites) (ht : t ∈ sites)
    (heq : s.taskClassID = t.taskClassID) : s = t := by
  have hnodup : (sites.map QProfSite.taskClassID).Nodup :=
    List.pairwise_map.mpr (hsorted.imp Int.ne_of_lt)
  exact List.inj_on_of_nodup_map hnodup hs ht heq

/-- A class is erased twice when three classes have equal loops. -/
theorem nodup_erasedBy_equalPairs_iff :
    (erasedBy (equalPairs sites)).Nodup ↔ NoThreeEqual sites := by
  have hnodup : sites.Nodup := by
    refine hsorted.imp fun {s t} hlt heq => ?_
    rw [heq] at hlt
    exact Int.lt_irrefl _ hlt
  constructor
  · rintro h a ha b hb c hc hab hbc ⟨hba, hcb⟩
    have hp : (b, a) ∈ equalPairs sites := mem_equalPairs.mpr ⟨hb, ha, hab, hba⟩
    have hq : (c, a) ∈ equalPairs sites :=
      mem_equalPairs.mpr ⟨hc, ha, Int.lt_trans hab hbc, QProfSite.equals_trans hcb hba⟩
    have heq := List.inj_on_of_nodup_map h hp hq rfl
    rw [(Prod.mk.inj heq).1] at hbc
    exact Int.lt_irrefl _ hbc
  · intro h
    refine List.Nodup.map_on ?_ ((hnodup.product hnodup).filter _)
    rintro ⟨b, a⟩ hp ⟨c, a'⟩ hq heq
    obtain ⟨hb, ha, hab, hba⟩ := mem_equalPairs.mp hp
    obtain ⟨hc, ha', hac, hca⟩ := mem_equalPairs.mp hq
    obtain rfl := eq_of_taskClassID hsorted ha ha' heq
    have hbc := QProfSite.equals_trans hba (QProfSite.equals_symm hca)
    -- the two larger classes are the same one
    rcases Int.lt_trichotomy b.taskClassID c.taskClassID with hlt | heq | hlt
    · exact absurd ⟨hba, QProfSite.equals_symm hbc⟩ (h a ha b hb c hc hab hlt)
    · rw [eq_of_taskClassID hsorted hb hc heq]
    · exact absurd ⟨hca, hbc⟩ (h a ha c hc b hb hac hlt)

/-- Without three equal loops, classes are merged into classes that stay. -/
theorem NoThreeEqual.not_mem_erasedBy (h : NoThreeEqual sites) {p : QProfSite × QProfSite}
    (hp : p ∈ equalPairs sites) : p.1.taskClassID ∉ erasedBy (equalPairs sites) := by
  intro hmem
  obtain ⟨⟨e, c⟩, hq, heq⟩ := List.mem_map.mp hmem
  obtain ⟨hc, hd, hdc, hcd⟩ := mem_equalPairs.mp hp
  obtain ⟨he, hc', hce, hec⟩ := mem_equalPairs.mp hq
  obtain rfl := eq_of_taskClassID hsorted hc' hc heq
  exact h p.2 hd p.1 hc e he hdc hce ⟨hcd, hec⟩

/-- **One class of each group stays.** -/
theorem NoThreeEqual.existsUnique (h : NoThreeEqual sites) {s : QProfSite} (hs : s ∈ sites) :
    ∃! t, (t ∈ sites ∧ t.taskClassID ∉ erasedBy (equalPairs sites)) ∧ t.equals s := by
  -- of two classes with equal loops the smaller one is erased
  have hunique (t u : QProfSite) (ht : t ∈ sites) (hu : u ∈ sites) (htu : t.equals u)
      (hlt : u.taskClassID < t.taskClassID) : u.taskClassID ∈ erasedBy (equalPairs sites) :=
    mem_erasedBy (p := (t, u)) (mem_equalPairs.mpr ⟨ht, hu, hlt, htu⟩)
  have hone {t u : QProfSite} (ht : t ∈ sites ∧ t.taskClassID ∉ erasedBy (equalPairs sites))
      (hu : u ∈ sites ∧ u.taskClassID ∉ erasedBy (equalPairs sites)) (htu : t.equals u) :
      t = u := by
    rcases Int.lt_trichotomy t.taskClassID u.taskClassID with hlt | heq | hlt
    · exact absurd (hunique u t hu.1 ht.1 (QProfSite.equals_symm htu) hlt) ht.2
    · exact eq_of_taskClassID hsorted ht.1 hu.1 heq
    · exact absurd (hunique t u ht.1 hu.1 htu hlt) hu.2
  by_cases hmem : s.taskClassID ∈ erasedBy (equalPairs sites)
  · obtain ⟨⟨t, u⟩, hp, heq⟩ := List.mem_map.mp hmem
    obtain ⟨ht, hu, hlt, htu⟩ := mem_equalPairs.mp hp
    obtain rfl := eq_of_taskClassID hsorted hu hs heq
    have hstay := h.not_mem_erasedBy hsorted hp
    refine ⟨t, ⟨⟨ht, hstay⟩, htu⟩, fun v hv => ?_⟩
    exact hone hv.1 ⟨ht, hstay⟩ (QProfSite.equals_trans hv.2 (QProfSite.equals_symm htu))
  · exact ⟨s, ⟨⟨hs, hmem⟩, s.equals_refl⟩, fun v hv => hone hv.1 ⟨hs, hmem⟩ hv.2⟩

end Pairs

/-! ### The counters -/

/-- Counting what is left when distinct elements are taken out. -/
theorem countP_filter_not_mem {keys erased : List ℤ} (hkeys : keys.Nodup) (herased : erased.Nodup)
    (hsub : ∀ d ∈ erased, d ∈ keys) (p : ℤ → Bool) :
    (keys.filter (· ∉ erased)).countP p + erased.countP p = keys.countP p := by
  have hperm : (keys.filter (· ∈ erased)).Perm erased := by
    rw [List.perm_ext_iff_of_nodup (hkeys.filter _) herased]
    intro d
    rw [List.mem_filter, decide_eq_true_eq]
    exact ⟨And.right, fun hd => ⟨hsub d hd, hd⟩⟩
  rw [← hperm.countP_eq, List.countP_eq_countP_filter_add keys p (· ∈ erased), Nat.add_comm]
  simp only [decide_not]

/-- Where every class has a library site, the counters are about the kinds only. -/
theorem Filed.counted_iff (h : conf.Filed) :
    conf.Counted ↔
      conf.numTaskClasses = conf.taskClassDeepestLLLoops.keys.length ∧
      conf.numLLTaskClasses = conf.taskClassDeepestLLLoops.keys.length ∧
      conf.numLLBlockExtTaskClasses = conf.taskClassDeepestLLLoops.keys.countP conf.isExt ∧
      conf.numLLBlockIntTaskClasses =
        conf.taskClassDeepestLLLoops.keys.countP fun c => !conf.isExt c := by
  have hlong : conf.taskClassDeepestLLLoops.keys.countP
      (fun c => (conf.lookupTaskClassLibFlags c).1) =
      conf.taskClassDeepestLLLoops.keys.length :=
    List.countP_eq_length.mpr fun c hc => h.lookup_found hc
  have hkind (p : ℤ → Bool) : conf.taskClassDeepestLLLoops.keys.countP
      (fun c => (conf.lookupTaskClassLibFlags c).1 && p c) =
      conf.taskClassDeepestLLLoops.keys.countP p :=
    List.countP_congr fun c hc => by rw [h.lookup_found hc, Bool.true_and]
  constructor
  · rintro ⟨hall, hll, hext, hint⟩
    rw [hlong] at hll
    rw [hkind] at hext
    rw [hkind (fun c => !conf.isExt c)] at hint
    exact ⟨hall, hll, hext, hint⟩
  · rintro ⟨hall, hll, hext, hint⟩
    exact ⟨hall, by rw [hlong, hll], by rw [hkind, hext],
      by rw [hkind fun c => !conf.isExt c, hint]⟩

/-- The same for fewer classes, in terms of the classes there were. -/
theorem Filed.counted_restrict_iff (h : conf.Filed) (p : ℤ → Bool) (n ext int : ℕ) :
    (conf.restrict p n ext int).Counted ↔
      conf.numTaskClasses - n = (conf.taskClassDeepestLLLoops.keys.filter p).length ∧
      conf.numLLTaskClasses - n = (conf.taskClassDeepestLLLoops.keys.filter p).length ∧
      conf.numLLBlockExtTaskClasses - ext =
        (conf.taskClassDeepestLLLoops.keys.filter p).countP conf.isExt ∧
      conf.numLLBlockIntTaskClasses - int =
        (conf.taskClassDeepestLLLoops.keys.filter p).countP fun c => !conf.isExt c := by
  have hkeys : (conf.restrict p n ext int).taskClassDeepestLLLoops.keys =
      conf.taskClassDeepestLLLoops.keys.filter p := TaskMap.keys_filter _ p
  have hkind (c : ℤ) (hc : c ∈ conf.taskClassDeepestLLLoops.keys.filter p) :
      (conf.restrict p n ext int).isExt c = conf.isExt c :=
    h.isExt_restrict (List.mem_filter.mp hc).2 n ext int
  have hext : (conf.taskClassDeepestLLLoops.keys.filter p).countP
      (conf.restrict p n ext int).isExt =
      (conf.taskClassDeepestLLLoops.keys.filter p).countP conf.isExt :=
    List.countP_congr fun c hc => by rw [hkind c hc]
  have hint : (conf.taskClassDeepestLLLoops.keys.filter p).countP
      (fun c => !(conf.restrict p n ext int).isExt c) =
      (conf.taskClassDeepestLLLoops.keys.filter p).countP fun c => !conf.isExt c :=
    List.countP_congr fun c hc => by rw [hkind c hc]
  rw [(h.restrict p n ext int).counted_iff, hkeys, hext, hint]
  rfl

/-- **The counters after the merges**: they are right when as many of the classes merged into block
    externally as of those erased. -/
theorem Counted.restrict_iff (hc : conf.Counted) (h : conf.Filed)
    {pairs : List (QProfSite × QProfSite)} (hnodup : (erasedBy pairs).Nodup)
    (hsub : ∀ d ∈ erasedBy pairs, d ∈ conf.taskClassDeepestLLLoops.keys) :
    (conf.restrict (· ∉ erasedBy pairs) pairs.length
        (pairs.countP fun p => conf.isExt p.1.taskClassID)
        (pairs.countP fun p => !conf.isExt p.1.taskClassID)).Counted ↔
      (pairs.countP fun p => conf.isExt p.1.taskClassID) =
        pairs.countP fun p => conf.isExt p.2.taskClassID := by
  obtain ⟨hall, hll, hext, hint⟩ := h.counted_iff.mp hc
  have hleft (p : ℤ → Bool) :
      (conf.taskClassDeepestLLLoops.keys.filter (· ∉ erasedBy pairs)).countP p +
        pairs.countP (fun q => p q.2.taskClassID) = conf.taskClassDeepestLLLoops.keys.countP p := by
    rw [← countP_filter_not_mem conf.taskClassDeepestLLLoops.nodup_keys hnodup hsub p,
      erasedBy, List.countP_map]
    rfl
  have hlength := hleft fun _ => true
  have hext' := hleft conf.isExt
  have hint' := hleft fun c => !conf.isExt c
  simp only [List.countP_true] at hlength
  have hsplit (q : QProfSite × QProfSite → ℤ) : pairs.length =
      (pairs.countP fun p => conf.isExt (q p)) + pairs.countP fun p => !conf.isExt (q p) := by
    rw [List.length_eq_countP_add_countP fun p => conf.isExt (q p)]
    simp
  have hfst := hsplit fun p => p.1.taskClassID
  have hsnd := hsplit fun p => p.2.taskClassID
  rw [h.counted_restrict_iff]
  omega

/-! ### When the configuration stays consistent -/

/-- **The purpose of the merge**: the maps still have the same classes, one class of each group of
    equal deepest loops, and the counters are right. -/
structure MergedConsistent (conf conf' : QProfConf) : Prop where
  stackKeys : conf'.taskClassLLSitestacks.keys = conf'.taskClassDeepestLLLoops.keys
  libKeys : conf'.taskClassDeepestLLLibs.keys = conf'.taskClassDeepestLLLoops.keys
  oneLeft : ∀ s ∈ conf.getDeepestLLLoops, ∃! t, t ∈ conf'.getDeepestLLLoops ∧ t.equals s
  counted : conf'.Counted

theorem Filed.taskClassID_mem_keys (h : conf.Filed) {s : QProfSite}
    (hs : s ∈ conf.getDeepestLLLoops) : s.taskClassID ∈ conf.taskClassDeepestLLLoops.keys := by
  obtain ⟨e, he, rfl⟩ := List.mem_map.mp hs
  rw [h.loopSites e he]
  exact List.mem_map_of_mem he

/-- The deepest loops of the classes that stay. -/
theorem Filed.mem_getDeepestLLLoops_restrict (h : conf.Filed) {n ext int : ℕ} {t : QProfSite} :
    t ∈ (conf.restrict p n ext int).getDeepestLLLoops ↔
      t ∈ conf.getDeepestLLLoops ∧ p t.taskClassID = true := by
  constructor
  · intro ht
    obtain ⟨e, he, rfl⟩ := List.mem_map.mp ht
    obtain ⟨he, hp⟩ := List.mem_filter.mp he
    rw [h.loopSites e he]
    exact ⟨List.mem_map_of_mem he, hp⟩
  · rintro ⟨ht, hp⟩
    obtain ⟨e, he, rfl⟩ := List.mem_map.mp ht
    rw [h.loopSites e he] at hp
    exact List.mem_map_of_mem (List.mem_filter.mpr ⟨he, hp⟩)

/-- The classes of a pair are classes of the configuration. -/
theorem Filed.keys_of_mem_equalPairs (h : conf.Filed) (p : QProfSite × QProfSite)
    (hp : p ∈ equalPairs conf.getDeepestLLLoops) :
    p.1.taskClassID ∈ conf.taskClassDeepestLLLoops.keys ∧
      p.2.taskClassID ∈ conf.taskClassDeepestLLLoops.keys :=
  have hp := mem_equalPairs.mp hp
  ⟨h.taskClassID_mem_keys hp.1, h.taskClassID_mem_keys hp.2.1⟩

/-- **Merging is consistent** when no three classes have equal deepest loops, and among the pairs of
    classes that have, the classes with the larger ids block externally as often as the others. -/
theorem merge_consistent_iff (conf : QProfConf) (hfiled : conf.Filed) (hcounted : conf.Counted) :
    (∃ conf', conf.mergeAllTaskClassesWithSameDeepestLLLoops = some conf' ∧
        MergedConsistent conf conf') ↔
      NoThreeEqual conf.getDeepestLLLoops ∧
      ((equalPairs conf.getDeepestLLLoops).countP fun p => conf.isExt p.1.taskClassID) =
        (equalPairs conf.getDeepestLLLoops).countP fun p => conf.isExt p.2.taskClassID := by
  have hsorted := hfiled.sorted_loops
  have hpairs : conf.mergeAllTaskClassesWithSameDeepestLLLoops =
      conf.mergePairs (equalPairs conf.getDeepestLLLoops) := by
    unfold mergeAllTaskClassesWithSameDeepestLLLoops
    rw [loopPairs_eq hsorted]
  have hsub (d : ℤ) (hd : d ∈ erasedBy (equalPairs conf.getDeepestLLLoops)) :
      d ∈ conf.taskClassDeepestLLLoops.keys := by
    obtain ⟨p, hp, rfl⟩ := List.mem_map.mp hd
    exact (hfiled.keys_of_mem_equalPairs p hp).2
  have hrun (hthree : NoThreeEqual conf.getDeepestLLLoops) :=
    hfiled.mergePairs_eq (equalPairs conf.getDeepestLLLoops)
      ((nodup_erasedBy_equalPairs_iff hsorted).mpr hthree) hfiled.keys_of_mem_equalPairs
      fun p hp => hthree.not_mem_erasedBy hsorted hp
  rw [hpairs]
  constructor
  · rintro ⟨conf', hsome, hmerged⟩
    have hnodup := (mergePairs_erases _ hsome).2
    have hthree := (nodup_erasedBy_equalPairs_iff hsorted).mp hnodup
    rw [hrun hthree] at hsome
    obtain rfl := Option.some.inj hsome
    exact ⟨hthree, (hcounted.restrict_iff hfiled hnodup hsub).mp hmerged.counted⟩
  · rintro ⟨hthree, hkinds⟩
    have hnodup := (nodup_erasedBy_equalPairs_iff hsorted).mpr hthree
    refine ⟨_, hrun hthree, (hfiled.restrict _ _ _ _).stackKeys, (hfiled.restrict _ _ _ _).libKeys,
      fun s hs => ?_, (hcounted.restrict_iff hfiled hnodup hsub).mpr hkinds⟩
    simp only [hfiled.mem_getDeepestLLLoops_restrict, decide_eq_true_eq]
    exact hthree.existsUnique hsorted hs

/-! ### Small configurations -/

/-- A site of a class, at a line. -/
def siteAt (taskClassID lineNum : ℤ) (libFlags : BitVec 64) : QProfSite :=
  ⟨taskClassID, "m", lineNum, "f", "loop", "f", libFlags⟩

/-- A configuration with one site of each sort per class: the class, the line of its deepest loop
    and the flags of its library call. -/
def sample (classes : List (ℤ × ℤ × BitVec 64)) (hsorted : (classes.map Prod.fst).Pairwise (· < ·))
    (ext int : ℤ) : QProfConf where
  taskClassLLSitestacks :=
    ⟨classes.map fun c => (c.1, [siteAt c.1 c.2.1 0]), by rwa [List.map_map]⟩
  taskClassDeepestLLLoops :=
    ⟨classes.map fun c => (c.1, siteAt c.1 c.2.1 0), by rwa [List.map_map]⟩
  taskClassDeepestLLLibs :=
    ⟨classes.map fun c => (c.1, [siteAt c.1 c.2.1 c.2.2]), by rwa [List.map_map]⟩
  numTaskClasses := classes.length
  numLLTaskClasses := classes.length
  numLLBlockExtTaskClasses := ext
  numLLBlockIntTaskClasses := int

theorem sample_filed (classes : List (ℤ × ℤ × BitVec 64))
    (hsorted : (classes.map Prod.fst).Pairwise (· < ·)) (ext int : ℤ) :
    (sample classes hsorted ext int).Filed where
  stackKeys := by simp [sample, TaskMap.keys]
  libKeys := by simp [sample, TaskMap.keys]
  stackSites e he s hs := by
    obtain ⟨c, -, rfl⟩ := List.mem_map.mp he
    rw [List.mem_singleton.mp hs]
    rfl
  loopSites e he := by
    obtain ⟨c, -, rfl⟩ := List.mem_map.mp he
    rfl
  libSites e he s hs := by
    obtain ⟨c, -, rfl⟩ := List.mem_map.mp he
    rw [List.mem_singleton.mp hs]
    rfl
  libs_ne e he := by
    obtain ⟨c, -, rfl⟩ := List.mem_map.mp he
    exact List.cons_ne_nil _ _

/-- Two classes with one loop, of which the second blocks externally. -/
def twoKinds : QProfConf := sample [(1, 7, 2), (2, 7, 1)] (by decide) 1 1

/-- Three classes with one loop. -/
def threeClasses : QProfConf := sample [(4, 7, 1), (5, 7, 1), (6, 7, 1)] (by decide) 3 0

/-- Two classes with one loop, both blocking externally, and a third one. -/
def oneKind : QProfConf := sample [(7, 7, 1), (8, 7, 1), (9, 30, 2)] (by decide) 2 1

theorem merge_consistent_oneKind :
    ∃ conf', oneKind.mergeAllTaskClassesWithSameDeepestLLLoops = some conf' ∧
      MergedConsistent oneKind conf' :=
  (merge_consistent_iff oneKind (sample_filed _ _ _ _)
    ⟨by decide, by decide, by decide, by decide⟩).mpr ⟨by decide, by decide⟩

/-- Merging three classes trips the assertion; after merging two of different kinds the class that
    is left blocks externally, and the counter of such classes is 0. -/
theorem merge_not_consistent :
    threeClasses.Filed ∧ threeClasses.Counted ∧
      threeClasses.mergeAllTaskClassesWithSameDeepestLLLoops = none ∧
      twoKinds.Filed ∧ twoKinds.Counted ∧
      twoKinds.mergeAllTaskClassesWithSameDeepestLLLoops.map (fun conf =>
        (conf.taskClassDeepestLLLoops.keys, conf.isExt 2, conf.numLLBlockExtTaskClasses)) =
        some ([2], true, 0) :=
  ⟨sample_filed _ _ _ _, ⟨by decide, by decide, by decide, by decide⟩, by decide,
    sample_filed _ _ _ _, ⟨by decide, by decide, by decide, by decide⟩, by decide⟩

end QProfConf

end Firestarter.QProf
