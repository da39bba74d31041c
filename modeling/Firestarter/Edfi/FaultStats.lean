import Firestarter.Edfi.Onfdp

namespace Firestarter.Edfi

/-!
# Where the fault injector puts a block's statistics

`FaultInjector::runOnModule` gives the runtime an array of execution counters, whose first and
last entries are canaries, and per fault type and overall an array with one entry a block.
Blocks are numbered in three ways: by the order in which they are instrumented (`bb_index`, from
1), by the id of a marking pass in the marked mode, and by one number for all of them in the
unmarked mode.

* `emitBlocks_getElem?`: what is emitted for the block at a position.
* `faultStatsRight_iff`: when every block's entries are those that the runtime pairs with its
  counters.
-/

/-! ### Modules and options -/

/-- A basic block.  `markedID` is its id in the namespace of
    `-fault-only-marked-basicblocks`, 0 without one; `staleID` is what the pass finds in the
    variable that it does not initialise in the unmarked mode. -/
structure BasicBlock where
  markedID : ℕ
  staleID : ℕ

/-- A function; `canInstrument` is `can_instrument_function`. -/
structure FaultFunction where
  canInstrument : Bool
  blocks : List BasicBlock

/-- A module with the last id of the namespace. -/
structure FaultModule where
  functions : List FaultFunction
  lastID : ℕ

/-- The options that decide what is emitted. -/
structure FaultOptions where
  /-- `-fault-only-marked-basicblocks` is not empty -/
  onlyMarked : Bool
  /-- `-inline-profiling` -/
  doInlineProfiling : Bool
  /-- `-fault-noDFLs` -/
  noDFLs : Bool
  /-- `-fault-inject-in-marked-BBID` -/
  injectFaultBBID : ℕ

variable (o : FaultOptions) (M : FaultModule)

/-- The blocks of the functions that can be instrumented. -/
def candidateBlocks : List BasicBlock :=
  M.functions.flatMap fun F => if F.canInstrument then F.blocks else []

/-- `totalBBs` -/
def totalBBs : ℕ := if o.onlyMarked then M.lastID else 0

/-- The size of `AllBasicBlocks`. -/
def allBasicBlocksSize : ℕ :=
  if totalBBs o M = 0 then (candidateBlocks M).length else totalBBs o M + 1

/-- The `uint32_t BB_ID` with which a block is selected. -/
def selectionID (b : BasicBlock) : ℕ :=
  if totalBBs o M = 0 then b.staleID else b.markedID % 2 ^ 32

/-- A block is added to `BBsToCorrupt`. -/
def isSelected (b : BasicBlock) : Bool :=
  !(decide (totalBBs o M ≠ 0) && decide (selectionID o M b = 0)) &&
    (decide (o.injectFaultBBID = 0) || decide (selectionID o M b = o.injectFaultBBID))

/-- `BBsToCorrupt` of all functions in their order. -/
def blocksToCorrupt : List BasicBlock := (candidateBlocks M).filter (isSelected o M)

/-- The `uint32_t BB_ID` with which the tables are indexed. -/
def tableID (b : BasicBlock) : ℕ :=
  if totalBBs o M = 0 then (allBasicBlocksSize o M + 1) % 2 ^ 32 else b.markedID % 2 ^ 32

/-! ### What the pass emits -/

/-- The indices emitted for one block: the execution counters that are incremented for it, by
    inline code or by the fault logger, and its entries in `bb_num_injected`,
    `bb_num_candidates` and `bb_num_faults`. -/
structure BlockIndices where
  counters : List ℕ
  injected : ℕ
  candidates : ℕ
  faults : ℕ
deriving DecidableEq

/-- The body of the loop over the blocks. `pushed` is the length of the initializers that grow by
    `push_back` in the unmarked mode. -/
def emitBlock (bbIndex pushed : ℕ) (b : BasicBlock) : BlockIndices where
  counters := (if o.doInlineProfiling then [tableID o M b] else []) ++
    (if o.noDFLs then [] else [bbIndex])
  injected := if totalBBs o M = 0 then pushed else tableID o M b
  candidates := if totalBBs o M = 0 then pushed else tableID o M b
  faults := tableID o M b

/-- The loop over the blocks. -/
def emitBlocks : List BasicBlock → ℕ → ℕ → List BlockIndices
  | [], _, _ => []
  | b :: bs, bbIndex, pushed =>
    emitBlock o M bbIndex pushed b :: emitBlocks bs (bbIndex + 1) (pushed + 1)

/-- What the runtime gets. -/
structure FaultTables where
  /-- length of `bb_num_executions` -/
  executionCounts : ℕ
  /-- `num_bbs`, the length of the other arrays -/
  numBbs : ℕ
  blocks : List BlockIndices

/-- The tables of a module that the pass comes to an end with. -/
def faultTables : FaultTables where
  executionCounts := allBasicBlocksSize o M + 2
  numBbs := allBasicBlocksSize o M
  blocks := emitBlocks o M (blocksToCorrupt o M) 1 0

/-- The loops over `AllBasicBlocks` end, whose counters are `unsigned`, and the `int bb_index` does
    not overflow. -/
def Counts : Prop := allBasicBlocksSize o M < 2 ^ 32 ∧ (blocksToCorrupt o M).length + 1 < 2 ^ 31

instance : Decidable (Counts o M) := inferInstanceAs (Decidable (_ ∧ _))

/-- What the pass does with a module. -/
inductive PassResult
  /-- an assertion fails -/
  | rejected
  /-- a loop does not end, or `bb_index` overflows -/
  | lost
  | tables (T : FaultTables)

/-- `FaultInjector::runOnModule`. -/
def faultInjector : PassResult :=
  if o.onlyMarked = true ∧ M.lastID = 0 then .rejected
  else if Counts o M then .tables (faultTables o M)
  else .lost

/-! ### What the runtime pairs -/

/-- The counters and entries that the loop of `edfi_print_stats_section` multiplies. -/
def printStatsPairs (numBbs : ℕ) : List (ℕ × ℕ) := (List.range numBbs).map fun i => (i + 1, i)

/-- The tables name the right blocks. -/
structure StatsRight (T : FaultTables) : Prop where
  counters_lt : ∀ a ∈ T.blocks, ∀ k ∈ a.counters, k < T.executionCounts
  entries_lt : ∀ a ∈ T.blocks, a.injected < T.numBbs ∧ a.candidates < T.numBbs ∧
    a.faults < T.numBbs
  not_canary : ∀ a ∈ T.blocks, ∀ k ∈ a.counters, k ≠ 0 ∧ k + 1 ≠ T.executionCounts
  distinct : T.blocks.Pairwise fun a b => ∀ k ∈ a.counters, k ∉ b.counters
  paired : ∀ a ∈ T.blocks, ∀ k ∈ a.counters,
    (k, a.injected) ∈ printStatsPairs T.numBbs ∧ (k, a.candidates) ∈ printStatsPairs T.numBbs ∧
      Onfdp.faultsEntry k = a.faults

/-- The pass rejects the module or its tables name the right blocks. -/
def FaultStatsRight : Prop :=
  match faultInjector o M with
  | .rejected => True
  | .lost => False
  | .tables T => StatsRight T

/-! ### The emitted indices -/

variable {o M}

/-- The block at a position is emitted with numbers that count from the start. -/
theorem emitBlocks_getElem? (bs : List BasicBlock) (bbIndex pushed i : ℕ) :
    (emitBlocks o M bs bbIndex pushed)[i]? =
      (bs[i]?).map (emitBlock o M (bbIndex + i) (pushed + i)) := by
  induction bs generalizing bbIndex pushed i with
  | nil => simp [emitBlocks]
  | cons b bs ih =>
    cases i with
    | zero => rfl
    | succ i =>
      rw [emitBlocks, List.getElem?_cons_succ, List.getElem?_cons_succ, ih]
      congr 2 <;> omega

variable {a : BlockIndices} {b : BasicBlock}

theorem mem_emitBlocks {bs : List BasicBlock} :
    a ∈ emitBlocks o M bs 1 0 ↔ ∃ i b, bs[i]? = some b ∧ a = emitBlock o M (i + 1) i b := by
  simp only [List.mem_iff_getElem?, emitBlocks_getElem?, Option.map_eq_some_iff, Nat.zero_add,
    Nat.add_comm 1]
  exact ⟨fun ⟨i, b, hb, ha⟩ => ⟨i, b, hb, ha.symm⟩, fun ⟨i, b, hb, ha⟩ => ⟨i, b, hb, ha.symm⟩⟩

theorem mem_printStatsPairs {n k e : ℕ} : (k, e) ∈ printStatsPairs n ↔ k = e + 1 ∧ e < n := by
  simp only [printStatsPairs, List.mem_map, List.mem_range, Prod.mk.injEq]
  constructor
  · rintro ⟨i, hi, rfl, rfl⟩
    exact ⟨rfl, hi⟩
  · rintro ⟨rfl, he⟩
    exact ⟨e, he, rfl, rfl⟩

/-- A selected block of the marked mode has an id. -/
theorem tableID_ne_zero_of_selected (hmarked : totalBBs o M ≠ 0) (hb : b ∈ blocksToCorrupt o M) :
    tableID o M b ≠ 0 := by
  have hsel : isSelected o M b = true := (List.mem_filter.mp hb).2
  rw [tableID, if_neg hmarked]
  intro hzero
  have hID : selectionID o M b = 0 := by rw [selectionID, if_neg hmarked, hzero]
  simp [isSelected, hmarked, hID] at hsel

variable (o M) in
/-- The tables name the right blocks only if they name none, or if no counter is incremented
    and the ids are in range; in the unmarked mode the latter takes as many blocks as make the
    common number wrap around to zero. -/
def NamesRightBlocks : Prop :=
  blocksToCorrupt o M = [] ∨
    o.doInlineProfiling = false ∧
      if totalBBs o M = 0 then
        (candidateBlocks M).length + 1 = 2 ^ 32 ∧
          (o.noDFLs = true ∨ (blocksToCorrupt o M).length = 1)
      else o.noDFLs = true ∧ ∀ b ∈ blocksToCorrupt o M, b.markedID % 2 ^ 32 ≤ totalBBs o M

theorem faultTables_blocks_mem :
    a ∈ (faultTables o M).blocks ↔
      ∃ i b, (blocksToCorrupt o M)[i]? = some b ∧ a = emitBlock o M (i + 1) i b :=
  mem_emitBlocks

theorem tableID_unmarked (ht : totalBBs o M = 0) (b : BasicBlock) :
    tableID o M b = ((candidateBlocks M).length + 1) % 2 ^ 32 := by
  rw [tableID, if_pos ht, allBasicBlocksSize, if_pos ht]

section StatsRight

variable (h : StatsRight (faultTables o M))
include h

/-- The block at position `i` of the selected ones, with its indices. -/
theorem StatsRight.paired_at {i : ℕ} (hb : (blocksToCorrupt o M)[i]? = some b) {k : ℕ}
    (hk : k ∈ (emitBlock o M (i + 1) i b).counters) : k - 1 = tableID o M b ∧ k ≠ 0 := by
  have hmem := faultTables_blocks_mem.mpr ⟨i, b, hb, rfl⟩
  exact ⟨(h.paired _ hmem k hk).2.2, (h.not_canary _ hmem k hk).1⟩

/-- Inline counters are never paired with the entries of their block. -/
theorem StatsRight.no_inline
    (hb : (blocksToCorrupt o M)[0]? = some b) : o.doInlineProfiling = false := by
  by_contra hinline
  rw [Bool.not_eq_false] at hinline
  obtain ⟨hpair, hne⟩ := h.paired_at hb (k := tableID o M b) (by simp [emitBlock, hinline])
  omega

/-- The entry of a block at position `i` is `i`, if its counter is the logger's. -/
theorem StatsRight.tableID_eq (hlog : o.noDFLs = false) {i : ℕ}
    (hb : (blocksToCorrupt o M)[i]? = some b) : tableID o M b = i :=
  (h.paired_at hb (k := i + 1) (by simp [emitBlock, hlog])).1.symm

theorem StatsRight.faults_lt (hb : b ∈ blocksToCorrupt o M) :
    tableID o M b < allBasicBlocksSize o M := by
  obtain ⟨i, hi⟩ := List.mem_iff_getElem?.mp hb
  exact (h.entries_lt _ (faultTables_blocks_mem.mpr ⟨i, b, hi, rfl⟩)).2.2

/-- In the unmarked mode the common number has to wrap to be in range, and with the logger's
    counters it has to be the position of every block. -/
theorem StatsRight.unmarked (hcounts : Counts o M)
    (ht : totalBBs o M = 0) (hb : (blocksToCorrupt o M)[0]? = some b) :
    (candidateBlocks M).length + 1 = 2 ^ 32 ∧
      (o.noDFLs = true ∨ (blocksToCorrupt o M).length = 1) := by
  have hlt := h.faults_lt (List.mem_of_getElem? hb)
  have hsize := hcounts.1
  rw [allBasicBlocksSize, if_pos ht] at hsize
  rw [tableID_unmarked ht, allBasicBlocksSize, if_pos ht] at hlt
  refine ⟨by omega, ?_⟩
  by_cases hlog : o.noDFLs = true
  · exact .inl hlog
  · rw [Bool.not_eq_true] at hlog
    have hzero := h.tableID_eq hlog hb
    rw [tableID_unmarked ht] at hzero
    right
    -- a second block would need the common number to be 1 as well
    by_contra hlen
    have hpos : 0 < (blocksToCorrupt o M).length := (List.getElem?_eq_some_iff.mp hb).1
    obtain ⟨b', hb'⟩ : ∃ b', (blocksToCorrupt o M)[1]? = some b' :=
      ⟨_, List.getElem?_eq_getElem (show 1 < (blocksToCorrupt o M).length by omega)⟩
    have hone := h.tableID_eq hlog hb'
    rw [tableID_unmarked ht] at hone
    omega

/-- In the marked mode the first block's id is not 0, its position, so there must be no logger;
    and the entries are in range. -/
theorem StatsRight.marked (ht : totalBBs o M ≠ 0) (hb : (blocksToCorrupt o M)[0]? = some b) :
    o.noDFLs = true ∧ ∀ b ∈ blocksToCorrupt o M, b.markedID % 2 ^ 32 ≤ totalBBs o M := by
  refine ⟨?_, fun b' hb' => ?_⟩
  · by_contra hlog
    rw [Bool.not_eq_true] at hlog
    exact tableID_ne_zero_of_selected ht (List.mem_of_getElem? hb) (h.tableID_eq hlog hb)
  · have hlt := h.faults_lt hb'
    rw [tableID, if_neg ht, allBasicBlocksSize, if_neg ht] at hlt
    omega

theorem namesRightBlocks_of_statsRight (hcounts : Counts o M) : NamesRightBlocks o M := by
  by_cases hnone : blocksToCorrupt o M = []
  · exact .inl hnone
  · right
    obtain ⟨b, hb⟩ : ∃ b, (blocksToCorrupt o M)[0]? = some b :=
      Option.isSome_iff_exists.mp (by simpa [List.length_pos_iff] using hnone)
    refine ⟨h.no_inline hb, ?_⟩
    by_cases ht : totalBBs o M = 0
    · rw [if_pos ht]
      exact h.unmarked hcounts ht hb
    · rw [if_neg ht]
      exact h.marked ht hb

end StatsRight

/-- All entries are in range if those of `bb_num_faults` are. -/
theorem entries_lt_of_faults_lt
    (hfaults : ∀ b ∈ blocksToCorrupt o M, tableID o M b < allBasicBlocksSize o M)
    (ha : a ∈ (faultTables o M).blocks) :
    a.injected < allBasicBlocksSize o M ∧ a.candidates < allBasicBlocksSize o M ∧
      a.faults < allBasicBlocksSize o M := by
  obtain ⟨i, b, hb, rfl⟩ := faultTables_blocks_mem.mp ha
  have hlt := hfaults b (List.mem_of_getElem? hb)
  have hentry : (if totalBBs o M = 0 then i else tableID o M b) < allBasicBlocksSize o M := by
    by_cases ht : totalBBs o M = 0
    · -- positions of selected blocks are below the number of all of them
      have hi : i < (blocksToCorrupt o M).length := (List.getElem?_eq_some_iff.mp hb).1
      have hle : (blocksToCorrupt o M).length ≤ (candidateBlocks M).length :=
        List.length_filter_le _ _
      rw [if_pos ht, allBasicBlocksSize, if_pos ht]
      omega
    · rwa [if_neg ht]
  exact ⟨hentry, hentry, hlt⟩

/-- Tables without counters are right if the entries are in range. -/
theorem statsRight_of_no_counters (hinline : o.doInlineProfiling = false) (hlog : o.noDFLs = true)
    (hfaults : ∀ b ∈ blocksToCorrupt o M, tableID o M b < allBasicBlocksSize o M) :
    StatsRight (faultTables o M) := by
  have hnil : ∀ a ∈ (faultTables o M).blocks, ∀ k, k ∉ a.counters := by
    intro a ha k hk
    obtain ⟨i, b, -, rfl⟩ := faultTables_blocks_mem.mp ha
    simp [emitBlock, hinline, hlog] at hk
  exact
    { counters_lt := fun a ha k hk => absurd hk (hnil a ha k)
      entries_lt := fun a ha => entries_lt_of_faults_lt hfaults ha
      not_canary := fun a ha k hk => absurd hk (hnil a ha k)
      distinct := List.Pairwise.imp_of_mem
        (fun {a b} ha _ _ k hk => absurd hk (hnil a ha k))
        (List.pairwise_of_forall fun _ _ => trivial)
      paired := fun a ha k hk => absurd hk (hnil a ha k) }

/-- A single block with the logger's counter is right if the common number is its position. -/
theorem statsRight_of_single (hinline : o.doInlineProfiling = false) (hlog : o.noDFLs = false)
    (ht : totalBBs o M = 0) (hb : blocksToCorrupt o M = [b]) (hzero : tableID o M b = 0)
    (hpos : 0 < allBasicBlocksSize o M) : StatsRight (faultTables o M) := by
  have hblocks : (faultTables o M).blocks = [⟨[1], 0, 0, 0⟩] := by
    simp [faultTables, hb, emitBlocks, emitBlock, hinline, hlog, ht, hzero]
  constructor
  all_goals simp only [hblocks, List.forall_mem_singleton, List.pairwise_singleton]
  · show 1 < allBasicBlocksSize o M + 2
    omega
  · exact ⟨hpos, hpos, hpos⟩
  · refine ⟨Nat.one_ne_zero, ?_⟩
    show 1 + 1 ≠ allBasicBlocksSize o M + 2
    omega
  · exact ⟨mem_printStatsPairs.mpr ⟨rfl, hpos⟩, mem_printStatsPairs.mpr ⟨rfl, hpos⟩, rfl⟩

theorem statsRight_of_namesRightBlocks (h : NamesRightBlocks o M) :
    StatsRight (faultTables o M) := by
  rcases h with hnone | ⟨hinline, h⟩
  · have hblocks : (faultTables o M).blocks = [] := by simp [faultTables, hnone, emitBlocks]
    constructor <;> simp [hblocks]
  · by_cases ht : totalBBs o M = 0
    · rw [if_pos ht] at h
      obtain ⟨hwrap, hcounters⟩ := h
      have hrange : ∀ b ∈ blocksToCorrupt o M, tableID o M b < allBasicBlocksSize o M := by
        intro b _
        rw [tableID_unmarked ht, allBasicBlocksSize, if_pos ht]
        omega
      by_cases hlog : o.noDFLs = true
      · exact statsRight_of_no_counters hinline hlog hrange
      · obtain ⟨b, hb⟩ := List.length_eq_one_iff.mp (hcounters.resolve_left hlog)
        rw [Bool.not_eq_true] at hlog
        refine statsRight_of_single hinline hlog ht hb ?_ ?_
        · rw [tableID_unmarked ht, hwrap, Nat.mod_self]
        · rw [allBasicBlocksSize, if_pos ht]
          omega
    · rw [if_neg ht] at h
      refine statsRight_of_no_counters hinline h.1 fun b hb => ?_
      have hle := h.2 b hb
      rw [tableID, if_neg ht, allBasicBlocksSize, if_neg ht]
      omega

/-- **Statistics of the right block.**  The pass rejects the module for a marking without ids, or
    it ends and its tables name the right blocks, exactly under `NamesRightBlocks`. -/
theorem faultStatsRight_iff (o : FaultOptions) (M : FaultModule) :
    FaultStatsRight o M ↔
      (o.onlyMarked = true ∧ M.lastID = 0) ∨ Counts o M ∧ NamesRightBlocks o M := by
  rw [FaultStatsRight, faultInjector]
  split_ifs with hreject hcounts
  · exact iff_of_true trivial (.inl hreject)
  · rw [or_iff_right hreject, and_iff_right hcounts]
    exact ⟨fun h => namesRightBlocks_of_statsRight h hcounts, statsRight_of_namesRightBlocks⟩
  · exact iff_of_false id fun h => hcounts (h.resolve_left hreject).1

/-- A module with one block, marked with the id 1. -/
def oneBlockModule : FaultModule := ⟨[⟨true, [⟨1, 0⟩]⟩], 1⟩

/-- The options' defaults, in the unmarked and in the marked mode. -/
def unmarkedOptions : FaultOptions := ⟨false, false, false, 0⟩

def markedOptions : FaultOptions := ⟨true, false, false, 0⟩

/-- In the unmarked mode the entry of the only block in `bb_num_faults` is written behind the
    array's end.  In the marked mode the runtime pairs the block's counter 1 with entry 0, but
    its entries are at 1. -/
theorem one_block_stats_misplaced :
    (faultTables unmarkedOptions oneBlockModule).numBbs = 1 ∧
      (faultTables unmarkedOptions oneBlockModule).blocks = [⟨[1], 0, 0, 2⟩] ∧
      (faultTables markedOptions oneBlockModule).blocks = [⟨[1], 1, 1, 1⟩] ∧
      ¬ FaultStatsRight unmarkedOptions oneBlockModule ∧
      ¬ FaultStatsRight markedOptions oneBlockModule := by
  refine ⟨by decide, by decide, by decide, fun h => ?_, fun h => ?_⟩
  · have hright : StatsRight (faultTables unmarkedOptions oneBlockModule) := h
    exact absurd (hright.entries_lt _ (List.mem_singleton_self _)).2.2 (by decide)
  · have hright : StatsRight (faultTables markedOptions oneBlockModule) := h
    exact absurd (hright.paired _ (List.mem_singleton_self _) 1 (by decide)).1 (by decide)

end Firestarter.Edfi
