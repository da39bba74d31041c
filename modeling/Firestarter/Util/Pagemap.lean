import Firestarter.Util.ProcMaps

namespace Firestarter.Util

/-!
# Walking `/proc/<pid>/pagemap` (`pagemap.h`)

The soft-dirty mechanism finds the pages that were written since the last checkpoint by reading one
64-bit entry for each page of the mappings.  The entries are read ten at a time into one buffer; the
address, the length that is left and the index into the buffer advance in different loops.

* `utilPagemapGet`, `utilPagemapWalk`, `utilPagemapProcWalk` — the code;
* `flaggedPages`, `callAll` — what the walk is for, page by page and without a buffer;
* `entriesLoop_agrees`, `walkLoop_agrees` — the two loops of the walk of one mapping;
* `procWalk_exact` — the walk over all mappings makes just the calls that it should.
-/

/-- `PAGE_SIZE`. -/
def pageBytes : ℕ := 4096

/-- `UTIL_PAGEMMAP_DEFAULT_BUFF_SIZE`, which is also the part of a mapping read at a time. -/
def utilPagemmapDefaultBuffSize : ℕ := pageBytes * 10

/-- `PME_SOFT_DIRTY`. -/
def pmeSoftDirty : UInt64 := (1 : UInt64) <<< 55

/-- `util_pagemap_t`: the buffer, by entries, and its length in bytes. -/
structure Pagemap where
  map : ℕ → UInt64
  buffLen : ℕ

/-- The file.  `error` is the negative result with which the reads of `size` bytes at `offset` end;
    reads that are cut short or interrupted are made again. -/
structure PagemapFile where
  entry : ℕ → UInt64
  error : (offset size : ℕ) → Option Int

/-- The assertions of the walk. -/
inductive PagemapAssert
  | buffLen
  | wholePages
  deriving DecidableEq

section Code

variable {σ : Type} (file : PagemapFile) (flags : UInt64) (cb : UInt64 → ℕ → σ → Int × σ)

/-- `util_pagemap_get`. -/
def utilPagemapGet (pm : Pagemap) (addr len : ℕ) : Except PagemapAssert (Int × Pagemap) :=
  let size := len / pageBytes * 8
  let offset := addr / pageBytes * 8
  if size ≤ pm.buffLen then
    match file.error offset size with
    | some ret => .ok (ret, pm)
    | none => .ok (size, { pm with
        map := fun i => if i < size / 8 then file.entry (offset / 8 + i) else pm.map i })
  else .error .buffLen

/-- The `for` loop over the buffer, with `n` entries to go; an error is a `return` out of it. -/
def entriesLoop (map : ℕ → UInt64) : ℕ → ℕ → ℕ → Int → σ → Except (Int × σ) (Int × ℕ × σ)
  | 0, _, addr, ret, s => .ok (ret, addr, s)
  | n + 1, i, addr, ret, s =>
    if flags = 0 ∨ map i &&& flags ≠ 0 then
      let (ret, s) := cb (map i) addr s
      if ret < 0 then .error (ret, s)
      else entriesLoop map n (i + 1) ((addr + pageBytes) % 2 ^ 64) ret s
    else entriesLoop map n (i + 1) ((addr + pageBytes) % 2 ^ 64) ret s

/-- `while (len > 0)`.  Each pass takes something off `len`, so `len` passes are enough. -/
def walkLoop : ℕ → Pagemap → ℕ → ℕ → Int → σ → Except PagemapAssert (Int × Pagemap × σ)
  | 0, pm, _, _, ret, s => .ok (ret, pm, s)
  | n + 1, pm, addr, len, ret, s =>
    if len > 0 then
      let size := min utilPagemmapDefaultBuffSize len
      match utilPagemapGet file pm addr size with
      | .error e => .error e
      | .ok (ret, pm) =>
        if ret < 0 then .ok (ret, pm, s)
        else
          match entriesLoop flags cb pm.map (size / pageBytes) 0 addr ret s with
          | .error (ret, s) => .ok (ret, pm, s)
          | .ok (ret, addr, s) => walkLoop n pm addr (len - size) ret s
    else .ok (ret, pm, s)

/-- `util_pagemap_walk`. -/
def utilPagemapWalk (pm : Pagemap) (addr len : ℕ) (s : σ) :
    Except PagemapAssert (Int × Pagemap × σ) :=
  if len % pageBytes = 0 then walkLoop file flags cb len pm addr len 0 s else .error .wholePages

/-- `util_pagemap_proc_walk`. -/
def utilPagemapProcWalk : List Entry → Pagemap → σ → Except PagemapAssert (Int × Pagemap × σ)
  | [], pm, s => .ok (0, pm, s)
  | e :: maps, pm, s =>
    let len := (2 ^ 64 + e.vmEnd - e.vmStart) % 2 ^ 64
    match utilPagemapWalk file flags cb pm e.vmStart len s with
    | .error a => .error a
    | .ok (ret, pm, s) =>
      if ret < 0 then .ok (ret, pm, s) else utilPagemapProcWalk maps pm s

end Code

/-! ### What the walk is for -/

/-- A mapping of whole pages. -/
structure Entry.Paged (e : Entry) : Prop where
  start : e.vmStart % pageBytes = 0
  stop : e.vmEnd % pageBytes = 0
  le : e.vmStart ≤ e.vmEnd
  fits : e.vmEnd < 2 ^ 64

/-- `n` pages from the address `a` on, with their entries. -/
def pagesFrom (file : PagemapFile) (a n : ℕ) : List (UInt64 × ℕ) :=
  (List.range n).map fun j => (file.entry (a / pageBytes + j), a + pageBytes * j)

/-- The pages of a mapping that have a requested flag. -/
def flaggedPages (file : PagemapFile) (flags : UInt64) (e : Entry) : List (UInt64 × ℕ) :=
  (pagesFrom file e.vmStart ((e.vmEnd - e.vmStart) / pageBytes)).filter fun p => p.1 &&& flags ≠ 0

/-- The callback for each page of a list, up to the first negative result. -/
def callAll {σ : Type} (cb : UInt64 → ℕ → σ → Int × σ) : List (UInt64 × ℕ) → σ → Int × σ
  | [], s => (0, s)
  | p :: pages, s =>
    if (cb p.1 p.2 s).1 < 0 then cb p.1 p.2 s else callAll cb pages (cb p.1 p.2 s).2

/-! ### Pages and calls -/

section Pages

variable {file : PagemapFile} {flags : UInt64}

theorem pagesFrom_succ (a n : ℕ) :
    pagesFrom file a (n + 1) =
      (file.entry (a / pageBytes), a) :: pagesFrom file (a + pageBytes) n := by
  have hdiv : (a + pageBytes) / pageBytes = a / pageBytes + 1 := Nat.add_div_right a (by decide)
  unfold pagesFrom
  rw [List.range_succ_eq_map, List.map_cons, List.map_map]
  congr 1
  apply List.map_congr_left
  intro j _
  show (file.entry (a / pageBytes + (j + 1)), a + pageBytes * (j + 1)) = _
  rw [hdiv, Nat.mul_succ, Nat.add_assoc, Nat.add_comm 1 j, Nat.add_assoc a,
    Nat.add_comm pageBytes (pageBytes * j)]

theorem pagesFrom_add (a m n : ℕ) :
    pagesFrom file a (m + n) = pagesFrom file a m ++ pagesFrom file (a + pageBytes * m) n := by
  induction m generalizing a with
  | zero => rw [Nat.zero_add, Nat.mul_zero, Nat.add_zero]; rfl
  | succ m ih =>
    rw [Nat.add_right_comm, pagesFrom_succ, pagesFrom_succ, ih, List.cons_append, Nat.add_assoc,
      Nat.mul_succ, Nat.add_comm pageBytes]

/-- The pages of a mapping that are called for, and their order. -/
theorem mem_flaggedPages {e : Entry} (he : e.Paged) {entry : UInt64} {addr : ℕ} :
    (entry, addr) ∈ flaggedPages file flags e ↔
      e.vmStart ≤ addr ∧ addr < e.vmEnd ∧ addr % pageBytes = 0 ∧
        entry = file.entry (addr / pageBytes) ∧ entry &&& flags ≠ 0 := by
  obtain ⟨hstart, hstop, hle, -⟩ := he
  unfold pageBytes at hstart hstop
  simp only [flaggedPages, pagesFrom, List.mem_filter, List.mem_map, List.mem_range,
    decide_eq_true_eq, Prod.mk.injEq, pageBytes]
  constructor
  · rintro ⟨⟨j, hj, rfl, rfl⟩, hflag⟩
    refine ⟨by omega, by omega, by omega, ?_, hflag⟩
    rw [show (e.vmStart + 4096 * j) / 4096 = e.vmStart / 4096 + j by omega]
  · rintro ⟨hlo, hhi, haligned, rfl, hflag⟩
    refine ⟨⟨(addr - e.vmStart) / 4096, by omega, ?_, by omega⟩, hflag⟩
    rw [show e.vmStart / 4096 + (addr - e.vmStart) / 4096 = addr / 4096 by omega]

theorem flaggedPages_pairwise (e : Entry) :
    (flaggedPages file flags e).Pairwise fun p q => p.2 < q.2 := by
  unfold flaggedPages pagesFrom
  apply List.Pairwise.filter
  rw [List.pairwise_map]
  refine List.pairwise_lt_range.imp fun hlt => ?_
  simp only [pageBytes]
  omega

end Pages

section Calls

variable {σ : Type} (cb : UInt64 → ℕ → σ → Int × σ)

/-- A second list is called for if no call of the first was negative. -/
theorem callAll_append (l₁ l₂ : List (UInt64 × ℕ)) (s : σ) :
    callAll cb (l₁ ++ l₂) s =
      if (callAll cb l₁ s).1 < 0 then callAll cb l₁ s else callAll cb l₂ (callAll cb l₁ s).2 := by
  induction l₁ generalizing s with
  | nil => rfl
  | cons p l₁ ih =>
    rw [List.cons_append, callAll, callAll]
    by_cases hneg : (cb p.1 p.2 s).1 < 0
    · simp only [if_pos hneg]
    · simp only [if_neg hneg]
      exact ih _

/-- The result is that of a negative call, or zero. -/
theorem callAll_fst_nonpos (l : List (UInt64 × ℕ)) (s : σ) : (callAll cb l s).1 ≤ 0 := by
  induction l generalizing s with
  | nil => exact Int.le_refl 0
  | cons p l ih =>
    rw [callAll]
    by_cases hneg : (cb p.1 p.2 s).1 < 0
    · rw [if_pos hneg]
      exact Int.le_of_lt hneg
    · rw [if_neg hneg]
      exact ih _

end Calls

/-! ### The loops -/

section Loops

variable {σ : Type} {file : PagemapFile} {flags : UInt64} {cb : UInt64 → ℕ → σ → Int × σ}

/-- **The loop over the buffer**: it returns at the first negative result, or goes on behind the
    last page with a result that is not negative. -/
theorem entriesLoop_agrees (hflags : flags ≠ 0) {map : ℕ → UInt64} {n i addr : ℕ} {ret : Int}
    (hret : 0 ≤ ret) (hmap : ∀ j < n, map (i + j) = file.entry (addr / pageBytes + j))
    (hfits : addr + pageBytes * n < 2 ^ 64) (s : σ) :
    let called := callAll cb ((pagesFrom file addr n).filter fun p => p.1 &&& flags ≠ 0) s
    (called.1 < 0 ∧ entriesLoop flags cb map n i addr ret s = .error called) ∨
      ∃ ret', 0 ≤ ret' ∧ called.1 = 0 ∧
        entriesLoop flags cb map n i addr ret s = .ok (ret', addr + pageBytes * n, called.2) := by
  induction n generalizing i addr ret s with
  | zero => exact .inr ⟨ret, hret, rfl, rfl⟩
  | succ n ih =>
    have hentry : map i = file.entry (addr / pageBytes) := hmap 0 (Nat.succ_pos n)
    have hnext : (addr + pageBytes) % 2 ^ 64 = addr + pageBytes := by
      unfold pageBytes at hfits ⊢
      omega
    have hend : addr + pageBytes * (n + 1) = addr + pageBytes + pageBytes * n := by
      rw [Nat.mul_succ]
      omega
    have hmap' : ∀ j < n, map (i + 1 + j) = file.entry ((addr + pageBytes) / pageBytes + j) := by
      intro j hj
      rw [Nat.add_assoc, Nat.add_comm 1 j, hmap (j + 1) (by omega),
        Nat.add_div_right addr (by decide), Nat.add_assoc, Nat.add_comm 1 j]
    rw [hend] at hfits ⊢
    -- one page less on both sides; a callback that fails ends both
    simp only [entriesLoop, pagesFrom_succ, hentry, hflags, false_or, hnext]
    by_cases hflag : file.entry (addr / pageBytes) &&& flags ≠ 0
    · rw [List.filter_cons_of_pos (by simpa using hflag), if_pos hflag, callAll]
      by_cases hneg : (cb (file.entry (addr / pageBytes)) addr s).1 < 0
      · exact .inl ⟨by rwa [if_pos hneg], by rw [if_pos hneg, if_pos hneg]⟩
      · simp only [if_neg hneg]
        exact ih (Int.not_lt.mp hneg) hmap' hfits _
    · rw [List.filter_cons_of_neg (by simpa using hflag), if_neg hflag]
      exact ih hret hmap' hfits s

/-- A read that does not fail fills the buffer with the entries of the pages. -/
theorem utilPagemapGet_ok (hread : ∀ offset size, file.error offset size = none) {pm : Pagemap}
    (addr : ℕ) {len : ℕ} (hbuff : len / pageBytes * 8 ≤ pm.buffLen) :
    ∃ pm', utilPagemapGet file pm addr len = .ok (((len / pageBytes * 8 : ℕ) : Int), pm') ∧
      pm'.buffLen = pm.buffLen ∧
      ∀ j < len / pageBytes, pm'.map (0 + j) = file.entry (addr / pageBytes + j) := by
  simp only [utilPagemapGet, if_pos hbuff, hread]
  refine ⟨_, rfl, rfl, fun j hj => ?_⟩
  rw [Nat.mul_div_cancel _ (by decide), Nat.mul_div_cancel _ (by decide), Nat.zero_add]
  exact if_pos hj

/-- A chunk has at least one page and at most ten. -/
theorem chunk_pages {len : ℕ} (hpos : 0 < len) (hpages : len % pageBytes = 0) :
    ∃ k m, min utilPagemmapDefaultBuffSize len = pageBytes * k ∧ 1 ≤ k ∧ k ≤ 10 ∧
      len = pageBytes * k + pageBytes * m := by
  unfold utilPagemmapDefaultBuffSize pageBytes at *
  exact ⟨min 40960 len / 4096, (len - min 40960 len) / 4096, by omega, by omega, by omega,
    by omega⟩

theorem Entry.Paged.len_eq {e : Entry} (he : e.Paged) :
    (2 ^ 64 + e.vmEnd - e.vmStart) % 2 ^ 64 = e.vmEnd - e.vmStart := by
  have hle := he.le
  have hfits := he.fits
  omega

variable (hflags : flags ≠ 0) (hread : ∀ offset size, file.error offset size = none)
include hflags hread

/-- **The walk of a mapping**: the chunks make the calls of all its pages, and the result is
    negative if that of a call was. -/
theorem walkLoop_agrees
    (n len addr : ℕ) (hlen : len ≤ n) (hpages : len % pageBytes = 0) (hfits : addr + len < 2 ^ 64)
    (pm : Pagemap) (hbuff : 80 ≤ pm.buffLen) {ret : Int} (hret : 0 ≤ ret) (s : σ) :
    let called := callAll cb
      ((pagesFrom file addr (len / pageBytes)).filter fun p => p.1 &&& flags ≠ 0) s
    ∃ ret' pm', walkLoop file flags cb n pm addr len ret s = .ok (ret', pm', called.2) ∧
      min ret' 0 = called.1 ∧ pm'.buffLen = pm.buffLen := by
  induction n generalizing len addr pm ret s with
  | zero =>
    obtain rfl : len = 0 := Nat.le_zero.mp hlen
    exact ⟨ret, pm, rfl, Int.min_eq_right hret, rfl⟩
  | succ n ih =>
    rw [walkLoop]
    by_cases hpos : len > 0
    · obtain ⟨k, m, hsize, hk, hk10, rfl⟩ := chunk_pages hpos hpages
      have hpage : 0 < pageBytes := by decide
      have hdiv : (pageBytes * k + pageBytes * m) / pageBytes = k + m := by
        rw [← Nat.mul_add, Nat.mul_div_cancel_left _ hpage]
      have hshorter : pageBytes * m ≤ n := by
        unfold pageBytes at *
        omega
      have hentries : pageBytes * k / pageBytes * 8 ≤ pm.buffLen := by
        rw [Nat.mul_div_cancel_left k hpage]
        omega
      obtain ⟨pm₁, hget, hbuff₁, hmap⟩ := utilPagemapGet_ok hread addr hentries
      rw [Nat.mul_div_cancel_left k hpage] at hget hmap
      simp only [if_pos hpos, hsize, hget, Nat.mul_div_cancel_left k hpage, Nat.add_sub_cancel_left]
      rw [if_neg (Int.not_lt.mpr (Int.natCast_nonneg _)), hdiv, pagesFrom_add, List.filter_append,
        callAll_append]
      rcases entriesLoop_agrees hflags (Int.natCast_nonneg (k * 8)) hmap (by omega) s with
        ⟨hneg, hloop⟩ | ⟨ret₁, hret₁, hzero, hloop⟩
      · -- a callback returned out of the chunk
        rw [hloop, if_pos hneg]
        exact ⟨_, pm₁, rfl, Int.min_eq_left (Int.le_of_lt hneg), hbuff₁⟩
      · rw [hloop, if_neg (by rw [hzero]; decide)]
        have hrec := ih (pageBytes * m) (addr + pageBytes * k) hshorter (Nat.mul_mod_right _ _)
          (by omega) pm₁ (hbuff₁ ▸ hbuff) hret₁
          (callAll cb ((pagesFrom file addr k).filter fun p => p.1 &&& flags ≠ 0) s).2
        rw [Nat.mul_div_cancel_left m hpage, hbuff₁] at hrec
        exact hrec
    · obtain rfl : len = 0 := by omega
      rw [if_neg hpos]
      exact ⟨ret, pm, rfl, Int.min_eq_right hret, rfl⟩

variable (cb) in
/-- One mapping. -/
theorem utilPagemapWalk_agrees {e : Entry} (he : e.Paged)
    (pm : Pagemap) (hbuff : 80 ≤ pm.buffLen) (s : σ) :
    let called := callAll cb (flaggedPages file flags e) s
    ∃ ret pm', utilPagemapWalk file flags cb pm e.vmStart (e.vmEnd - e.vmStart) s =
        .ok (ret, pm', called.2) ∧ min ret 0 = called.1 ∧ pm'.buffLen = pm.buffLen := by
  have hstart := he.start
  have hstop := he.stop
  have hle := he.le
  have hfits := he.fits
  have hpages : (e.vmEnd - e.vmStart) % pageBytes = 0 := by
    unfold pageBytes at *
    omega
  unfold utilPagemapWalk
  rw [if_pos hpages]
  exact walkLoop_agrees hflags hread _ _ _ (Nat.le_refl _) hpages (by omega) pm hbuff
    (Int.le_refl 0) s

/-- The mappings, one after the other. -/
theorem utilPagemapProcWalk_eq {maps : List Entry}
    (hmaps : ∀ e ∈ maps, e.Paged) (pm : Pagemap) (hbuff : 80 ≤ pm.buffLen) (s : σ) :
    let called := callAll cb (maps.flatMap (flaggedPages file flags)) s
    ∃ pm', utilPagemapProcWalk file flags cb maps pm s = .ok (called.1, pm', called.2) := by
  induction maps generalizing pm s with
  | nil => exact ⟨pm, rfl⟩
  | cons e maps ih =>
    obtain ⟨he, hmaps⟩ := List.forall_mem_cons.mp hmaps
    obtain ⟨ret, pm₁, hwalk, hmin, hbuff₁⟩ :=
      utilPagemapWalk_agrees cb hflags hread he pm hbuff s
    have hnonpos := callAll_fst_nonpos cb (flaggedPages file flags e) s
    simp only [utilPagemapProcWalk, he.len_eq, hwalk, List.flatMap_cons, callAll_append]
    by_cases hneg : ret < 0
    · have hret : (callAll cb (flaggedPages file flags e) s).1 = ret := by omega
      rw [if_pos hneg, if_pos (hret ▸ hneg), hret]
      exact ⟨pm₁, rfl⟩
    · rw [if_neg hneg, if_neg (by omega)]
      exact ih hmaps pm₁ (hbuff₁ ▸ hbuff) _

end Loops

/-- **The walk is exact**: with complete reads it calls the callback for just the pages whose own
    entry has a requested flag, each once and those of a mapping by rising addresses, and returns
    the first negative result, or 0. -/
theorem procWalk_exact {σ : Type} (file : PagemapFile)
    (hread : ∀ offset size, file.error offset size = none) {flags : UInt64} (hflags : flags ≠ 0)
    (cb : UInt64 → ℕ → σ → Int × σ) (maps : List Entry) (hmaps : ∀ e ∈ maps, e.Paged)
    (pm : Pagemap) (hbuff : utilPagemmapDefaultBuffSize ≤ pm.buffLen) (s : σ) :
    (∃ pm', utilPagemapProcWalk file flags cb maps pm s =
        .ok ((callAll cb (maps.flatMap (flaggedPages file flags)) s).1, pm',
          (callAll cb (maps.flatMap (flaggedPages file flags)) s).2)) ∧
      ∀ e ∈ maps, ((flaggedPages file flags e).Pairwise fun p q => p.2 < q.2) ∧
        ∀ entry addr, (entry, addr) ∈ flaggedPages file flags e ↔
          e.vmStart ≤ addr ∧ addr < e.vmEnd ∧ addr % pageBytes = 0 ∧
            entry = file.entry (addr / pageBytes) ∧ entry &&& flags ≠ 0 := by
  have h80 : 80 ≤ pm.buffLen := by
    unfold utilPagemmapDefaultBuffSize pageBytes at hbuff
    omega
  refine ⟨utilPagemapProcWalk_eq hflags hread hmaps pm h80 s, fun e he => ?_⟩
  exact ⟨flaggedPages_pairwise e, fun entry addr => mem_flaggedPages (hmaps e he)⟩

/-- A mapping of twelve pages. -/
def twelvePages : Entry where
  vmStart := 0x10000
  vmEnd := 0x1c000
  r := 'r'
  w := 'w'
  x := '-'
  s := 'p'
  pgoff := 0
  major := 0
  minor := 0
  ino := 0
  name := []

/-- A file in which the second and the last page of it are soft-dirty. -/
def twoDirty : PagemapFile where
  entry n := if n = 0x11 ∨ n = 0x1b then pmeSoftDirty else 0
  error _ _ := none

/-- The walk finds both, though they are read in different chunks. -/
theorem procWalk_exact_chunks :
    ∃ pm', utilPagemapProcWalk twoDirty pmeSoftDirty (fun _ addr s => (0, s ++ [addr]))
      [twelvePages] ⟨fun _ => 0, utilPagemmapDefaultBuffSize⟩ [] =
        .ok (0, pm', [0x11000, 0x1b000]) := by
  have hpaged : ∀ e ∈ [twelvePages], e.Paged := by
    intro e he
    obtain rfl := List.mem_singleton.mp he
    exact ⟨by decide, by decide, by decide, by decide⟩
  have hflags : pmeSoftDirty ≠ 0 := by decide
  obtain ⟨pm', hwalk⟩ := (procWalk_exact twoDirty (fun _ _ => rfl) hflags
    (fun _ addr s => (0, s ++ [addr])) [twelvePages] hpaged
    ⟨fun _ => 0, utilPagemmapDefaultBuffSize⟩ (Nat.le_refl _) ([] : List ℕ)).1
  exact ⟨pm', hwalk⟩

end Firestarter.Util
