import Firestarter.Lib.JsonText

namespace Firestarter.Rcvry.Bbtrace

open JsonText

/-!
# The dump of the basic-block traces (`rcvry_prof_bbtrace_dump` in `rcvry_dispatch.c`)

The lists of basic blocks of the call sites are written as a JSON object, and the list of the
blocks seen during startup as a JSON array: by a destructor, at exit, and by a signal, each time
anew.  Built with `RCVRY_BBTRACE_EXCLUDE_STARTUP` the
dump leaves out the startup blocks; commas are placed by position, so when the last block of a
site is left out the block before it is written a second time.

* `blocksText`, `rcvryProfBbtraceDump` — the code;
* `blocksText_eq` — what is written for a site is always a list with commas between its elements;
* `written_eq` — the elements: the blocks that are kept, and one more if the last block is not;
* `rcvryProfBbtraceDump_parses` — what each dump writes is a JSON text, and when the files are;
* `siteFaithful_iff` — when the array of a site has exactly its blocks outside the startup list.
-/

/-! ### The code -/

/-- `RCVRY_MAX_LIBCALL_SITES`. -/
def maxLibcallSites : ℕ := 18196

/-- `EDFI_BB_TRACING_HASHLIST_SIZE`. -/
def hashlistSize : ℕ := 409600

/-- The data of the dump: of each site `num_hits_rcvry_branch` and the array `bbs` up to
    `num_bbs`, and `edfi_bbtrace_startuplist`. -/
structure DumpState where
  numHitsRcvryBranch : ℕ → ℕ
  bbs : ℕ → List ℕ
  startuplist : ℕ → ℕ

/-- How the library is built, and the environment variables `DISABLE_BBTRACE_DUMP` and
    `BBTRACE_OUPUT_PER_PROCESS`. -/
structure DumpConfig where
  excludeStartup : Bool
  append : Bool
  disableDump : Bool
  perProcess : Bool

/-- Whether the loop over the blocks of a site skips a block. -/
def DumpConfig.skips (cfg : DumpConfig) (st : DumpState) (bb : ℕ) : Bool :=
  cfg.excludeStartup && st.startuplist bb ≠ 0

/-- The loop over the blocks of a site, from index `j` on. -/
def blocksText (skips : ℕ → Bool) (numBbs : ℕ) : ℕ → ℕ → List ℕ → List Char
  | _, _, [] => []
  | j, prev, bb :: bbs =>
    if skips bb then
      (if j = numBbs - 1 then decimal prev else []) ++ blocksText skips numBbs (j + 1) prev bbs
    else
      decimal bb ++ (if j ≠ numBbs - 1 then [','] else []) ++
        blocksText skips numBbs (j + 1) bb bbs

/-- The array written for a site. -/
def arrayText (cfg : DumpConfig) (st : DumpState) (i : ℕ) : List Char :=
  '[' :: (blocksText (cfg.skips st) (st.bbs i).length 0 0 (st.bbs i) ++ [']'])

/-- The loop over the call sites. -/
def sitesText (cfg : DumpConfig) (st : DumpState) : Bool → List ℕ → List Char
  | _, [] => []
  | isFirst, i :: is =>
    if st.numHitsRcvryBranch i ≠ 0 then
      (if !isFirst then [','] else []) ++
        ('"' :: (decimal i ++ '"' :: ':' :: arrayText cfg st i)) ++ sitesText cfg st false is
    else sitesText cfg st isFirst is

/-- The loop over the startup list. -/
def startupText (st : DumpState) : Bool → List ℕ → List Char
  | _, [] => []
  | isFirst, i :: is =>
    if st.startuplist i ≠ 0 then
      (if isFirst then decimal (st.startuplist i)
        else ',' :: ' ' :: decimal (st.startuplist i)) ++ startupText st false is
    else startupText st isFirst is

/-- What is written to the two files. -/
structure Dump where
  sites : List Char
  startup : List Char

/-- `rcvry_prof_bbtrace_dump`; `none` if the dump is disabled. -/
def rcvryProfBbtraceDump (cfg : DumpConfig) (st : DumpState) : Option Dump :=
  if cfg.disableDump then none
  else
    let tail := if cfg.append then ['\n'] else []
    some {
      sites := '\x7b' :: (sitesText cfg st true (List.range maxLibcallSites) ++ '\x7d' :: tail)
      startup := '[' :: (startupText st true (List.range hashlistSize) ++ ']' :: tail) }

/-- A file of the dump: whether the process has it open, and what is in it. -/
structure DumpFile where
  isOpen : Bool
  content : List Char

/-- One dump to a file.  It is opened the first time, and each time with
    `BBTRACE_OUPUT_PER_PROCESS`; without `RCVRY_BBTRACE_APPEND` that empties it. -/
def DumpConfig.scribe (cfg : DumpConfig) (file : DumpFile) (text : List Char) : DumpFile where
  isOpen := true
  content := (if (!file.isOpen || cfg.perProcess) && !cfg.append then [] else file.content) ++ text

/-- A file that was not there before, after dumps of the process. -/
def DumpConfig.fileText (cfg : DumpConfig) (texts : List (List Char)) : List Char :=
  (texts.foldl cfg.scribe ⟨false, []⟩).content

/-- Both files after dumps in the states `sts`. -/
def dumpFiles (cfg : DumpConfig) (sts : List DumpState) : Dump :=
  let dumps := sts.filterMap (rcvryProfBbtraceDump cfg)
  ⟨cfg.fileText (dumps.map Dump.sites), cfg.fileText (dumps.map Dump.startup)⟩

/-! ### The elements of a site's array -/

/-- The numbers that the loop writes. -/
def written (skips : ℕ → Bool) : ℕ → List ℕ → List ℕ
  | _, [] => []
  | prev, [bb] => if skips bb then [prev] else [bb]
  | prev, bb :: next :: bbs =>
    if skips bb then written skips prev (next :: bbs) else bb :: written skips bb (next :: bbs)

variable {skips : ℕ → Bool}

/-- As long as there are blocks, something is written. -/
theorem written_ne_nil (prev bb : ℕ) (bbs : List ℕ) : written skips prev (bb :: bbs) ≠ [] := by
  induction bbs generalizing prev bb with
  | nil =>
    rw [written]
    split_ifs <;> simp
  | cons next bbs ih =>
    rw [written]
    split_ifs with hskip
    · exact ih prev next
    · exact List.cons_ne_nil _ _

/-- The numbers of the loop are written with a comma between two of them. -/
theorem blocksText_eq (prev j : ℕ) (bbs : List ℕ) :
    blocksText skips (j + bbs.length) j prev bbs =
      [','].intercalate ((written skips prev bbs).map decimal) := by
  induction bbs generalizing prev j with
  | nil => rfl
  | cons bb bbs ih =>
    have hnext : ∀ prev, blocksText skips (j + (bb :: bbs).length) (j + 1) prev bbs =
        [','].intercalate ((written skips prev bbs).map decimal) := by
      intro prev
      rw [← ih prev (j + 1), List.length_cons, Nat.add_right_comm, Nat.add_assoc]
    rw [blocksText, hnext, hnext]
    cases bbs with
    | nil =>
      -- the last block
      have hlast : j = j + [bb].length - 1 := by simp
      rw [if_pos hlast, if_neg (not_not.mpr hlast)]
      by_cases hskip : skips bb <;> simp [written, hskip]
    | cons next bbs =>
      have hlast : j ≠ j + (bb :: next :: bbs).length - 1 := by simp
      rw [if_neg hlast, if_pos hlast, written]
      split_ifs with hskip
      · rw [List.nil_append]
      · have hne : written skips bb (next :: bbs) ≠ [] := written_ne_nil bb next bbs
        obtain ⟨first, rest, hrest⟩ := List.exists_cons_of_ne_nil hne
        rw [hrest, List.map_cons, List.map_cons, List.map_cons, List.intercalate_cons_cons]

/-- The blocks of a site that are not skipped. -/
def kept (skips : ℕ → Bool) (bbs : List ℕ) : List ℕ := bbs.filter fun bb => !skips bb

/-- What is written for the last block if it is skipped: the kept block before it, or zero. -/
def surplus (skips : ℕ → Bool) (prev : ℕ) (bbs : List ℕ) : List ℕ :=
  if bbs.getLast?.any skips then [(kept skips bbs).getLastD prev] else []

/-- **The elements**: the blocks that are kept, and the surplus. -/
theorem written_eq (prev : ℕ) (bbs : List ℕ) :
    written skips prev bbs = kept skips bbs ++ surplus skips prev bbs := by
  induction bbs generalizing prev with
  | nil => rfl
  | cons bb bbs ih =>
    cases bbs with
    | nil => by_cases hskip : skips bb <;> simp [written, kept, surplus, hskip]
    | cons next bbs =>
      rw [written, ih, ih]
      by_cases hskip : skips bb
      · have hkept : kept skips (bb :: next :: bbs) = kept skips (next :: bbs) :=
          List.filter_cons_of_neg (by simp [hskip])
        rw [if_pos hskip, surplus, surplus, hkept, List.getLast?_cons_cons]
      · have hkept : kept skips (bb :: next :: bbs) = bb :: kept skips (next :: bbs) :=
          List.filter_cons_of_pos (by simp [hskip])
        rw [if_neg hskip, surplus, surplus, hkept, List.getLast?_cons_cons, List.getLastD_cons,
          List.cons_append]

/-- The surplus is no block that is kept, or one that is written already. -/
theorem surplus_spoils {bbs : List ℕ} (hlast : bbs.getLast?.any skips = true)
    (hnodup : (written skips 0 bbs).Nodup) : ¬ ∀ bb ∈ written skips 0 bbs, bb ∈ kept skips bbs := by
  rw [written_eq, surplus, if_pos hlast] at hnodup ⊢
  intro hmem
  have hin := hmem ((kept skips bbs).getLastD 0) (by simp)
  exact (List.nodup_append.mp hnodup).2.2 _ hin _ (List.mem_singleton_self _) rfl

/-! ### The files -/

theorem arrayText_eq (cfg : DumpConfig) (st : DumpState) (i : ℕ) :
    arrayText cfg st i =
      listText '[' ']' [','] ((written (cfg.skips st) 0 (st.bbs i)).map decimal) := by
  have htext : blocksText (cfg.skips st) (0 + (st.bbs i).length) 0 0 (st.bbs i) = _ :=
    blocksText_eq 0 0 (st.bbs i)
  rw [Nat.zero_add] at htext
  rw [arrayText, htext, listText]

theorem reads_decimals (ns : List ℕ) : List.Forall₂ (Reads number) ns (ns.map decimal) :=
  List.forall₂_map_right_iff.mpr (List.forall₂_same.mpr fun n _ => reads_decimal n)

/-- The array of a site is read back. -/
theorem reads_arrayText (cfg : DumpConfig) (st : DumpState) (i : ℕ) :
    Reads (array number) (written (cfg.skips st) 0 (st.bbs i)) (arrayText cfg st i) := by
  rw [arrayText_eq]
  exact Reads.array (List.forall_mem_nil _) (reads_decimals _)

theorem parse_arrayText (cfg : DumpConfig) (st : DumpState) (i : ℕ) :
    parse (array number) (arrayText cfg st i) = some (written (cfg.skips st) 0 (st.bbs i)) := by
  have hread : ReadsWhole (bracketed '[' ']' number) (written (cfg.skips st) 0 (st.bbs i)) _ :=
    readsWhole_listText (List.forall_mem_nil _) (by decide) (Or.inl rfl) (List.forall_mem_nil _)
      (reads_decimals _)
  rw [List.append_nil, ← arrayText_eq] at hread
  exact hread.parse_self

/-- The call sites that the dump lists. -/
def hitSites (st : DumpState) : List ℕ :=
  (List.range maxLibcallSites).filter (st.numHitsRcvryBranch · ≠ 0)

/-- The blocks that the dump lists as startup blocks. -/
def startupBlocks (st : DumpState) : List ℕ :=
  ((List.range hashlistSize).map st.startuplist).filter (· ≠ 0)

theorem sitesText_eq (cfg : DumpConfig) (st : DumpState) (isFirst : Bool) (is : List ℕ) :
    sitesText cfg st isFirst is = separated [','] isFirst
      ((is.filter (st.numHitsRcvryBranch · ≠ 0)).map
        fun i => memberText (decimal i) (arrayText cfg st i)) := by
  induction is generalizing isFirst with
  | nil => rfl
  | cons i is ih =>
    by_cases hhit : st.numHitsRcvryBranch i ≠ 0
    · rw [sitesText, if_pos hhit, List.filter_cons_of_pos (by simpa using hhit), List.map_cons,
        separated, ← ih]
      cases isFirst <;> rfl
    · rw [sitesText, if_neg hhit, List.filter_cons_of_neg (by simpa using hhit), ih]

theorem startupText_eq (st : DumpState) (isFirst : Bool) (is : List ℕ) :
    startupText st isFirst is = separated [',', ' '] isFirst
      (((is.map st.startuplist).filter (· ≠ 0)).map decimal) := by
  induction is generalizing isFirst with
  | nil => rfl
  | cons i is ih =>
    by_cases hset : st.startuplist i ≠ 0
    · rw [startupText, if_pos hset, List.map_cons, List.filter_cons_of_pos (by simpa using hset),
        List.map_cons, separated, ← ih]
      cases isFirst <;> rfl
    · rw [startupText, if_neg hset, List.map_cons, List.filter_cons_of_neg (by simpa using hset),
        ih]

/-- What a dump says of the sites. -/
def sitesValue (cfg : DumpConfig) (st : DumpState) : List (List Char × List ℕ) :=
  (hitSites st).map fun i => (decimal i, written (cfg.skips st) 0 (st.bbs i))

section Texts

variable {cfg : DumpConfig} {st : DumpState} {dump : Dump}

theorem isWs_of_mem_tail (cfg : DumpConfig) :
    ∀ c ∈ (if cfg.append then ['\n'] else []), isWs c = true := by
  intro c hc
  split_ifs at hc
  · rw [List.mem_singleton.mp hc]
    rfl
  · exact absurd hc List.not_mem_nil

theorem readsWhole_sites (hdump : rcvryProfBbtraceDump cfg st = some dump) :
    ReadsWhole (object (array number)) (sitesValue cfg st) dump.sites := by
  obtain ⟨-, ⟨⟩⟩ := Option.ite_none_left_eq_some.mp hdump
  have hmembers : List.Forall₂ (Reads (member (array number))) (sitesValue cfg st)
      ((hitSites st).map fun i => memberText (decimal i) (arrayText cfg st i)) := by
    rw [sitesValue, List.forall₂_map_left_iff, List.forall₂_map_right_iff, List.forall₂_same]
    exact fun i _ => (reads_arrayText cfg st i).member fun c hc =>
      Nat.isDigit_of_mem_toDigits (by decide) (by decide) hc
  have hread : ReadsWhole (bracketed '\x7b' '\x7d' _) (sitesValue cfg st) _ :=
    readsWhole_listText (List.forall_mem_nil _) (by decide) (Or.inr rfl) (isWs_of_mem_tail cfg)
      hmembers
  rw [listText, ← separated_eq_intercalate, hitSites, ← sitesText_eq, List.cons_append,
    List.append_assoc, List.singleton_append] at hread
  exact hread

theorem readsWhole_startup (hdump : rcvryProfBbtraceDump cfg st = some dump) :
    ReadsWhole (array number) (startupBlocks st) dump.startup := by
  obtain ⟨-, ⟨⟩⟩ := Option.ite_none_left_eq_some.mp hdump
  have hws : ∀ d ∈ [' '], isWs d = true := by
    intro d hd
    rw [List.mem_singleton.mp hd]
    decide
  have hread : ReadsWhole (bracketed '[' ']' number) (startupBlocks st) _ :=
    readsWhole_listText hws (by decide) (Or.inl rfl) (isWs_of_mem_tail cfg) (reads_decimals _)
  rw [listText, ← separated_eq_intercalate, startupBlocks, ← startupText_eq, List.cons_append,
    List.append_assoc, List.singleton_append] at hread
  exact hread

end Texts

/-- Every dump empties the files. -/
def DumpConfig.reopens (cfg : DumpConfig) : Bool := cfg.perProcess && !cfg.append

/-- Dumps that do not empty the file go behind one another; a file that is not open is empty. -/
theorem content_foldl_scribe {cfg : DumpConfig} (hre : cfg.reopens = false) {file : DumpFile}
    (hclosed : file.isOpen = false → file.content = []) (texts : List (List Char)) :
    (texts.foldl cfg.scribe file).content = file.content ++ texts.flatten := by
  induction texts generalizing file with
  | nil => rw [List.flatten_nil, List.append_nil, List.foldl_nil]
  | cons text texts ih =>
    have hfirst : (cfg.scribe file text).content = file.content ++ text := by
      refine congrArg (· ++ text) (ite_eq_right_iff.mpr fun hopen => ?_)
      cases hfile : file.isOpen with
      | false => exact (hclosed hfile).symm
      | true =>
        rw [hfile, Bool.not_true, Bool.false_or] at hopen
        exact absurd hopen (Bool.not_eq_true _ ▸ hre)
    rw [List.foldl_cons, ih fun h => absurd h (by simp [DumpConfig.scribe]), hfirst,
      List.flatten_cons, List.append_assoc]

/-- **The content of a file**: the last dump, and the ones before it unless the file is emptied. -/
theorem fileText_concat (cfg : DumpConfig) (texts : List (List Char)) (text : List Char) :
    cfg.fileText (texts ++ [text]) = (if cfg.reopens then [] else texts.flatten) ++ text := by
  cases hre : cfg.reopens with
  | false =>
    rw [DumpConfig.fileText, content_foldl_scribe hre fun _ => rfl, List.flatten_append]
    simp
  | true =>
    obtain ⟨hper, happ⟩ := Bool.and_eq_true_iff.mp hre
    rw [DumpConfig.fileText, List.foldl_append]
    simp [DumpConfig.scribe, hper, happ]

/-- **What is read from a file** after any number of dumps and one more. -/
theorem parse_fileText {α : Type} {value : Scan.Scanner Char α} {x : α} {texts : List (List Char)}
    {text : List Char} (cfg : DumpConfig) (hread : ReadsWhole value x text)
    (hreads : ∀ t ∈ texts, ∃ y, ReadsWhole value y t) :
    parse value (cfg.fileText (texts ++ [text])) =
      if texts.isEmpty || cfg.reopens then some x else none := by
  rw [fileText_concat]
  cases cfg.reopens with
  | true => rw [Bool.or_true, if_pos rfl, if_pos rfl, List.nil_append, hread.parse_self]
  | false =>
    rw [Bool.or_false]
    cases texts with
    | nil => exact hread.parse_self
    | cons first texts =>
      obtain ⟨y, hfirst⟩ := hreads first List.mem_cons_self
      rw [if_neg Bool.false_ne_true, List.flatten_cons, List.append_assoc, hfirst.parse,
        List.all_append, hread.visible, Bool.and_false]
      rfl

/-- **When the files are JSON.**  What a dump writes is an object with an array for each site that
    was hit, and an array of the startup blocks.  Files that were not there before hold that after
    one dump; after more dumps they hold what the last one wrote if each opens them anew, and are
    no JSON texts otherwise. -/
theorem rcvryProfBbtraceDump_parses {cfg : DumpConfig} (henabled : cfg.disableDump = false)
    (sts : List DumpState) (st : DumpState) :
    parse (object (array number)) (dumpFiles cfg (sts ++ [st])).sites =
        (if sts.isEmpty || cfg.reopens then some (sitesValue cfg st) else none) ∧
      parse (array number) (dumpFiles cfg (sts ++ [st])).startup =
        (if sts.isEmpty || cfg.reopens then some (startupBlocks st) else none) := by
  have hsome : ∀ st, ∃ dump, rcvryProfBbtraceDump cfg st = some dump := fun st => by
    rw [rcvryProfBbtraceDump, henabled]
    exact ⟨_, rfl⟩
  choose dump hdump using hsome
  have hfiles : (sts ++ [st]).filterMap (rcvryProfBbtraceDump cfg) = sts.map dump ++ [dump st] := by
    rw [List.filterMap_eq_map_iff_forall_eq_some.mpr fun st _ => hdump st, List.map_append]
    rfl
  rw [dumpFiles, hfiles, List.map_append, List.map_append, List.map_map, List.map_map]
  constructor
  · rw [← List.isEmpty_map (f := Dump.sites ∘ dump)]
    refine parse_fileText cfg (readsWhole_sites (hdump st)) fun t ht => ?_
    obtain ⟨u, -, rfl⟩ := List.mem_map.mp ht
    exact ⟨_, readsWhole_sites (hdump u)⟩
  · rw [← List.isEmpty_map (f := Dump.startup ∘ dump)]
    refine parse_fileText cfg (readsWhole_startup (hdump st)) fun t ht => ?_
    obtain ⟨u, -, rfl⟩ := List.mem_map.mp ht
    exact ⟨_, readsWhole_startup (hdump u)⟩

/-- A build that appends: a file of one dump is JSON, a file of two is not. -/
theorem rcvryProfBbtraceDump_parses_append :
    let st : DumpState := ⟨fun _ => 1, fun i => [i], fun _ => 0⟩
    parse (array number) (dumpFiles ⟨false, true, false, true⟩ [st]).startup =
        some (startupBlocks st) ∧
      parse (array number) (dumpFiles ⟨false, true, false, true⟩ [st, st]).startup = none :=
  ⟨(rcvryProfBbtraceDump_parses rfl [] _).2, (rcvryProfBbtraceDump_parses rfl [_] _).2⟩

/-! ### The arrays of the sites -/

/-- **A faithful array**: what is written for the site is a JSON array of exactly the blocks of the
    site outside the startup list, each once. -/
def SiteFaithful (cfg : DumpConfig) (st : DumpState) (i : ℕ) : Prop :=
  ∃ bbs, parse (array number) (arrayText cfg st i) = some bbs ∧ bbs.Nodup ∧
    ∀ bb, bb ∈ bbs ↔ bb ∈ st.bbs i ∧ st.startuplist bb = 0

/-- The last block of the site is not a startup block. -/
def LastKept (st : DumpState) (i : ℕ) : Prop :=
  ∀ bb, (st.bbs i).getLast? = some bb → st.startuplist bb = 0

/-- The blocks of the site outside the startup list. -/
def runtimeBlocks (st : DumpState) (i : ℕ) : List ℕ :=
  (st.bbs i).filter (st.startuplist · = 0)

section Exclude

variable {cfg : DumpConfig} (hexclude : cfg.excludeStartup = true) (st : DumpState) (i : ℕ)

include hexclude

theorem kept_eq : kept (cfg.skips st) (st.bbs i) = runtimeBlocks st i := by
  refine List.filter_congr fun bb _ => ?_
  simp [DumpConfig.skips, hexclude]

theorem lastKept_iff : LastKept st i ↔ (st.bbs i).getLast?.any (cfg.skips st) = false := by
  rw [LastKept]
  cases (st.bbs i).getLast? with
  | none => simp
  | some bb => simp [DumpConfig.skips, hexclude]

/-- Without a surplus the array has the blocks in their order, and only then. -/
theorem written_eq_runtimeBlocks_iff :
    written (cfg.skips st) 0 (st.bbs i) = runtimeBlocks st i ↔ LastKept st i := by
  rw [written_eq, kept_eq hexclude, lastKept_iff hexclude, surplus]
  split_ifs with hlast <;> simp [hlast]

/-- **When the array of a site is faithful.** Whatever the lists hold, the text is a JSON array.
    It has exactly the blocks outside the startup list, each once, if the last block of the site
    is not a startup block and the others are distinct, and only then; repeated blocks aside, only
    the last block matters. -/
theorem siteFaithful_iff :
    (SiteFaithful cfg st i ↔ LastKept st i ∧ (runtimeBlocks st i).Nodup) ∧
      (parse (array number) (arrayText cfg st i) = some (runtimeBlocks st i) ↔ LastKept st i) ∧
      ∃ bbs, parse (array number) (arrayText cfg st i) = some bbs := by
  have hparse := parse_arrayText cfg st i
  refine ⟨⟨?_, ?_⟩, ?_, _, hparse⟩
  · rintro ⟨bbs, htext, hnodup, hmem⟩
    obtain rfl := Option.some.inj (hparse.symm.trans htext)
    have hlast : LastKept st i := by
      rw [lastKept_iff hexclude, ← Bool.not_eq_true]
      intro hskipped
      refine surplus_spoils hskipped hnodup fun bb hbb => ?_
      rw [kept_eq hexclude, runtimeBlocks, List.mem_filter, decide_eq_true_eq]
      exact (hmem bb).mp hbb
    rw [(written_eq_runtimeBlocks_iff hexclude st i).mpr hlast] at hnodup
    exact ⟨hlast, hnodup⟩
  · rintro ⟨hlast, hnodup⟩
    rw [(written_eq_runtimeBlocks_iff hexclude st i).mpr hlast] at hparse
    refine ⟨_, hparse, hnodup, fun bb => ?_⟩
    rw [runtimeBlocks, List.mem_filter, decide_eq_true_eq]
  · rw [hparse, Option.some.injEq, written_eq_runtimeBlocks_iff hexclude]

end Exclude

/-- A site whose last block is not a startup block. -/
theorem siteFaithful_iff_middle :
    SiteFaithful ⟨true, false, false, false⟩
      ⟨fun _ => 1, fun _ => [5, 7, 9], fun bb => if bb = 7 then 7 else 0⟩ 0 := by
  refine (@siteFaithful_iff ⟨true, false, false, false⟩ rfl _ 0).1.mpr ⟨?_, by decide⟩
  intro bb hlast
  obtain rfl : 9 = bb := Option.some.inj hlast
  decide

/-- A site that ends with a startup block: block 5 is written twice. -/
theorem last_startup_block_repeats :
    let st : DumpState := ⟨fun _ => 1, fun _ => [5, 7], fun bb => if bb = 7 then 7 else 0⟩
    arrayText ⟨true, false, false, false⟩ st 0 = ['[', '5', ',', '5', ']'] ∧
      ¬ SiteFaithful ⟨true, false, false, false⟩ st 0 := by
  refine ⟨by decide, ?_⟩
  rintro ⟨bbs, htext, hnodup, -⟩
  rw [parse_arrayText] at htext
  obtain rfl := Option.some.inj htext
  exact absurd hnodup (by decide)

end Firestarter.Rcvry.Bbtrace
