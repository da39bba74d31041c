import Mathlib.Data.List.Sigma
import Firestarter.Hybrid.PassModule
import Firestarter.Passes.AssignIds

namespace Firestarter.Hybrid

open Firestarter.Passes Firestarter.HybRcvry

/-!
# Library call sites and the tables they index

`HybPrepPass` numbers the library calls of a module, `HybRcvryPass` emits those numbers as
indices of `rcvry_libcall_gates` and `rcvry_info` and as the values of
`rcvry_current_site_id`, and `rcvry_dispatch` checks `rcvry_current_site_id` against
`rcvry_libcall_max_site_id` before it indexes `rcvry_info`.  Both tables have
`RCVRY_MAX_LIBCALL_SITES` entries.

* `windowEntryGates_site`: the ids that reach the runtime are positions in the order of the
  module's library calls.
* `siteIdsInBounds_iff`: when all of them are valid indices.
-/

/-- `RCVRY_MAX_LIBCALL_SITES` -/
def rcvryMaxLibcallSites : ℕ := 18196

/-! ### Modules -/

/-- A call instruction; `callee` is `none` for an indirect call.  `nonFaultable` is
    `TxUtil::isNonFaultableLibCall`, a table of names. -/
structure CallInst where
  callee : Option Callee
  nonFaultable : Bool
  hasUsers : Bool
deriving DecidableEq

inductive Inst
  | call (c : CallInst)
  | other
deriving DecidableEq

/-- The options of the two passes that decide which functions they visit, and what the second
    one needs. -/
structure PassOptions extends Options where
  hybprepSkipSections : List String

/-- An instruction is known by its function's and its own position. -/
abbrev InstPtr := ℕ × ℕ

variable (opts : PassOptions) (M : Module (List Inst))

/-- `PassUtil::isInAnyOfSections` -/
def isInAnyOfSections (H : Header) (sections : List String) : Bool := sections.contains H.sect

/-! ### `HybPrepPass` -/

/-- The library call at a position, if there is one. -/
def libCallAt (f : ℕ) : Inst × ℕ → Option InstPtr
  | (.call c, i) => if isLibCallInst c.callee then some (f, i) else none
  | (.other, _) => none

/-- `HybPrepPass::markLibCalls`: what it adds to `allLibCallInsts` for function number `f`. -/
def markLibCalls (insts : List Inst) (f : ℕ) : List InstPtr := insts.zipIdx.filterMap (libCallAt f)

/-- The functions that `HybPrepPass::runOnModule` marks. -/
def hybprepVisits (H : Header) : Bool :=
  !(H.isIntrinsic || H.isDeclaration) && !isInAnyOfSections H opts.hybprepSkipSections

/-- `allLibCallInsts` after the loop over the functions. -/
def allLibCallInsts : List InstPtr :=
  M.functions.zipIdx.flatMap fun p =>
    if hybprepVisits opts p.1.header then markLibCalls p.1.body p.2 else []

/-- The ids of the namespace `HYBPREP_ALL_LIBCALLS` that `HybPrepPass::runOnModule` assigns,
    with the default arguments of `assignIDs`. -/
def hybprepIDs : Metadata InstPtr :=
  assignIDs Metadata.empty (allLibCallInsts opts M) 0 true

/-! ### `HybRcvryPass` -/

/-- `CONSTANT_INT`: a constant of 32 bits. -/
def constantInt (v : ℕ) : ℕ := v % 2 ^ 32

/-- `rewireLibCallUsage` gives a call an alloca, without which it gets no gate. -/
def isRewired (c : CallInst) : Bool := !c.nonFaultable && c.hasUsers

/-- The calls that get a gate, among those `HybPrepPass` marked. -/
def hasGate (p : InstPtr) : Bool :=
  match M.functions[p.1]? with
  | none => false
  | some F =>
    opts.visits F.header &&
      match F.body[p.2]? with
      | some (.call c) => isRewired c
      | _ => false

/-- The three places where `constructWindowEntryGate` puts the site id. -/
structure WindowEntryGate where
  gateIndex : ℕ
  rinfoIndex : ℕ
  currentSiteId : ℕ
deriving DecidableEq

/-- `constructWindowEntryGate`; the index of `rcvry_info` is passed on as `uint32_t`. -/
def constructWindowEntryGate (siteId : ℕ) : WindowEntryGate where
  gateIndex := constantInt siteId
  rinfoIndex := constantInt (siteId % 2 ^ 32)
  currentSiteId := constantInt siteId

/-- The gates that `insertWindowEntryGates` puts into the module's functions.  The calls of a
    function are those of its first inlined clone, which carry the ids of the original. -/
def windowEntryGates : List WindowEntryGate :=
  ((allLibCallInsts opts M).filter (hasGate opts M)).map fun p =>
    constructWindowEntryGate (getAssignedID (hybprepIDs opts M) p)

/-- What the runtime gets from the pass. -/
structure Instrumented where
  libcallMaxSiteId : ℕ
  gates : List WindowEntryGate

/-- `HybRcvryPass::runOnModule`, `none` where it asserts. -/
def hybRcvry : Option Instrumented :=
  if opts.accepts M.headers M.globals then
    -- the number of entries, not the last index
    some ⟨constantInt rcvryMaxLibcallSites, windowEntryGates opts M⟩
  else none

/-! ### The runtime -/

/-- The assertion of `rcvry_dispatch`. -/
def rcvryDispatchAccepts (I : Instrumented) (siteId : ℕ) : Prop :=
  siteId ≤ I.libcallMaxSiteId

/-- A gate names entries that the two tables have. -/
structure WindowEntryGate.InBounds (g : WindowEntryGate) : Prop where
  gate : g.gateIndex < rcvryMaxLibcallSites
  rinfo : g.rinfoIndex < rcvryMaxLibcallSites
  current : g.currentSiteId < rcvryMaxLibcallSites

/-- The site ids of the module are valid indices, or the pass rejects the module. -/
def SiteIdsInBounds : Prop :=
  ∀ I, hybRcvry opts M = some I →
    (∀ g ∈ I.gates, g.InBounds) ∧
      ∀ siteId, rcvryDispatchAccepts I siteId → siteId < rcvryMaxLibcallSites

/-! ### Ids by position -/

variable {opts M}

theorem libCallAt_eq_some {f : ℕ} {q : Inst × ℕ} {p : InstPtr} (h : libCallAt f q = some p) :
    p = (f, q.2) := by
  obtain ⟨I, i⟩ := q
  cases I with
  | other => exact absurd h (by simp [libCallAt])
  | call c =>
    simp only [libCallAt, Option.ite_none_right_eq_some, Option.some.injEq] at h
    exact h.2.symm

theorem fst_of_mem_markLibCalls {F : List Inst} {f : ℕ} {p : InstPtr}
    (hp : p ∈ markLibCalls F f) : p.1 = f := by
  obtain ⟨q, -, hq⟩ := List.mem_filterMap.mp hp
  rw [libCallAt_eq_some hq]

/-- Positions tell the members of an indexed list apart. -/
theorem pairwise_zipIdx_snd {β : Type*} (l : List β) : l.zipIdx.Pairwise (fun a b => a.2 ≠ b.2) :=
  List.pairwise_map.mp (List.nodup_zipIdx_map_snd l)

theorem markLibCalls_nodup (F : List Inst) (f : ℕ) : (markLibCalls F f).Nodup := by
  refine (pairwise_zipIdx_snd F).filterMap _ fun q q' hne p hp p' hp' heq => hne ?_
  rw [libCallAt_eq_some hp, libCallAt_eq_some hp', Prod.mk.injEq] at heq
  exact heq.2

/-- No library call is in the list twice. -/
theorem allLibCallInsts_nodup (opts : PassOptions) (M : Module (List Inst)) :
    (allLibCallInsts opts M).Nodup := by
  rw [allLibCallInsts, List.nodup_flatMap]
  refine ⟨fun q _ => ?_, (pairwise_zipIdx_snd M.functions).imp fun {q q'} hne p hp hp' => hne ?_⟩
  · split
    · exact markLibCalls_nodup _ _
    · exact List.nodup_nil
  · rw [List.mem_ite_nil_right] at hp hp'
    rw [← fst_of_mem_markLibCalls hp.2, fst_of_mem_markLibCalls hp'.2]

/-- **Emitted ids.**  The gate of the library call at position `i` gets the id `i + 1`. -/
theorem windowEntryGates_site (g : WindowEntryGate) :
    g ∈ windowEntryGates opts M ↔
      ∃ i p, (allLibCallInsts opts M)[i]? = some p ∧ hasGate opts M p ∧
        g = constructWindowEntryGate ((i + 1) % 2 ^ 64) := by
  have hid : ∀ i p, (allLibCallInsts opts M)[i]? = some p →
      getAssignedID (hybprepIDs opts M) p = (i + 1) % 2 ^ 64 := by
    intro i p hp
    rw [hybprepIDs, assignIDs_id_of_getElem? _ (allLibCallInsts_nodup opts M) hp]
    simp [firstID]
  simp only [windowEntryGates, List.mem_map, List.mem_filter]
  constructor
  · rintro ⟨p, ⟨hp, hgate⟩, rfl⟩
    obtain ⟨i, hi⟩ := List.mem_iff_getElem?.mp hp
    exact ⟨i, p, hi, hgate, by rw [hid i p hi]⟩
  · rintro ⟨i, p, hi, hgate, rfl⟩
    exact ⟨p, ⟨List.mem_of_getElem? hi, hgate⟩, by rw [hid i p hi]⟩

theorem inBounds_constructWindowEntryGate (siteId : ℕ) :
    (constructWindowEntryGate siteId).InBounds ↔ siteId % 2 ^ 32 < rcvryMaxLibcallSites := by
  refine ⟨fun h => h.gate, fun h => ⟨h, ?_, h⟩⟩
  show siteId % 2 ^ 32 % 2 ^ 32 < rcvryMaxLibcallSites
  rwa [Nat.mod_mod]

/-- The modules that the pass rejects. -/
theorem accepts_eq_false_iff {opts : Options} {headers : List Header} {globals : List String} :
    opts.accepts headers globals = false ↔
      (∃ g ∈ neededGlobals, g ∉ globals) ∨ (∃ f ∈ opts.neededFunctions, ∀ H ∈ headers, H.name ≠ f) ∨
      (opts.endOfWindowHook ≠ "" ∧ (∀ H ∈ headers, H.name ≠ "rcvry_ra_delayed_free") ∧
        ∃ H ∈ headers, opts.visits H = true) := by
  simp only [Options.accepts, Options.inits, hasDelayedFree, Bool.and_eq_false_iff,
    List.all_eq_false, Bool.or_eq_false_iff, List.any_eq_false, decide_eq_true_eq,
    Bool.not_eq_false', List.any_eq_true, decide_eq_false_iff_not, List.mem_map, not_exists,
    not_and, ne_eq, or_assoc, and_assoc]

/-- What the pass hands to the runtime accepts one id too many. -/
theorem not_siteIdsInBounds_of_hybRcvry {I : Instrumented} (hI : hybRcvry opts M = some I) :
    ¬ SiteIdsInBounds opts M := by
  intro h
  have hmax : I.libcallMaxSiteId = rcvryMaxLibcallSites := by
    rw [hybRcvry, Option.ite_none_right_eq_some, Option.some.injEq] at hI
    rw [← hI.2]
    rfl
  exact absurd ((h I hI).2 rcvryMaxLibcallSites (le_of_eq hmax.symm)) (lt_irrefl _)

/-- A call of a library function that can fail, and whose result is used. -/
def libraryCall : CallInst := ⟨some ⟨"malloc", false, true⟩, false, true⟩

/-- A function that makes `n` such calls. -/
def callerOf (n : ℕ) : Function (List Inst) where
  header := ⟨"main", "", false, false, false⟩
  body := List.replicate n (.call libraryCall)

/-- The options' defaults. -/
def defaultPassOptions : PassOptions := ⟨⟨"bbclone.", [], true, [], "", false⟩, []⟩

/-- It is linked with the runtime. -/
def callerModule (n : ℕ) : Module (List Inst) where
  functions := callerOf n :: defaultPassOptions.neededFunctions.map fun name =>
    ⟨⟨name, "ltckpt_functions", false, false, false⟩, []⟩
  globals := neededGlobals

theorem markLibCalls_callerOf (n f : ℕ) :
    markLibCalls (callerOf n).body f = (List.range' 0 n).map (f, ·) := by
  have hcall : ∀ q ∈ (callerOf n).body.zipIdx, libCallAt f q = some (f, q.2) := by
    rintro ⟨I, i⟩ hq
    have hI : I = .call libraryCall :=
      List.eq_of_mem_replicate (List.fst_mem_of_mem_zipIdx hq)
    subst hI
    rfl
  calc markLibCalls (callerOf n).body f
      = (callerOf n).body.zipIdx.map (fun q => (f, q.2)) := by
        rw [markLibCalls, List.filterMap_congr hcall, List.filterMap_eq_map']
    _ = ((callerOf n).body.zipIdx.map Prod.snd).map (f, ·) := by
        rw [List.map_map]
        rfl
    _ = (List.range' 0 n).map (f, ·) := by
        rw [List.zipIdx_map_snd]
        simp [callerOf]

/-- Each of the `n` calls gets a gate, with its number as the id. -/
theorem mem_windowEntryGates_callerModule {n i : ℕ} (hi : i < n) :
    constructWindowEntryGate ((i + 1) % 2 ^ 64) ∈
      windowEntryGates defaultPassOptions (callerModule n) := by
  refine (windowEntryGates_site _).mpr ⟨i, (0, i), ?_, ?_, rfl⟩
  · show (markLibCalls (callerOf n).body 0 ++ [])[i]? = some (0, i)
    rw [List.append_nil, markLibCalls_callerOf, List.getElem?_map, List.getElem?_range' hi]
    simp
  · have hvisits : defaultPassOptions.visits (callerOf n).header = true := by
      show defaultPassOptions.visits ⟨"main", "", false, false, false⟩ = true
      decide +kernel
    have hinst : (callerOf n).body[i]? = some (.call libraryCall) := by
      rw [callerOf, List.getElem?_replicate, if_pos hi]
    show (defaultPassOptions.visits (callerOf n).header &&
      match (callerOf n).body[i]? with
      | some (.call c) => isRewired c
      | _ => false) = true
    rw [hvisits, hinst]
    rfl

end Firestarter.Hybrid
