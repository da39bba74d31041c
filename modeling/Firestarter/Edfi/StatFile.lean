import Mathlib.Algebra.Group.Nat.Defs
import Mathlib.Data.List.Perm.Basic
import Mathlib.Data.List.TakeWhile
import Firestarter.Lib.FlatMem

namespace Firestarter.Edfi

open FlatMem

/-!
# The shared statistics file

`edfi_stats_per_bb_add_with_fd` adds the execution counts of a process to a file that all processes
of one binary share: a header, the names of the fault types, one counter for each basic block and
the candidate counts, one row for each fault type.

* `statsPerBbAddWithFd`: the function, on the content of the file;
* `Matches`: the layout of `statfile.h`, filled in for one binary;
* `Accumulates`: what the file is for;
* `addCounts_comm`, `statsPerBbAddAll_counter`: processes that add to one file;
* `stat_file_accumulates`: the file accumulates exactly if the buffer is read and written at once.
-/

/-- What a binary fixes: `num_bbs`, `num_fault_types`, and the names and candidate counts of the
    fault types.  The injector knows ten fault types and, without `-fault-dsn-compat`, six more. -/
structure StatContext where
  numBbs : ℕ
  numFaultTypes : ℕ
  name : ℕ → List UInt8
  bbNumCandidates : ℕ → ℕ → UInt32
  numBbs_lt : numBbs < 2 ^ 32
  numFaultTypes_le : numFaultTypes ≤ 16
  name_ne_zero : ∀ i, 0 ∉ name i

/-- `EDFI_STATS_MAGIC`. -/
def statsMagic : ℕ := 0x74536445

/-- `EDFI_STATS_FAULT_NAME_LEN`. -/
def faultNameLen : ℕ := 64

/-- `sizeof(struct edfi_stats_header)`. -/
def headerSize : ℕ := 16

/-- The most bytes that one `read` or `write` transfers. -/
def maxRwCount : ℕ := 0x7ffff000

/-- The bytes of a buffer, from address 0 on. -/
def memOf (bs : List UInt8) : Mem := write (fun _ => 0) 0 bs

/-- `strncpy(dst, src, n)`: the bytes stored at `dst`. -/
def strncpy (src : List UInt8) (n : ℕ) : List UInt8 :=
  src.take n ++ List.replicate (n - src.length) 0

/-- `strncmp(a, b, n) == 0` for an array `a` of `n` bytes. -/
def strncmpEq (a b : List UInt8) (n : ℕ) : Bool :=
  a.takeWhile (· ≠ 0) = (b.take n).takeWhile (· ≠ 0)

section Function

variable (C : StatContext)

/-- `EDFI_STATS_FAULT_NAME_LEN * num_fault_types`, an `unsigned int`. -/
def namesSize : ℕ := faultNameLen * C.numFaultTypes % 2 ^ 32

/-- The offset of `data_bb_num_executions`. -/
def executionsOff : ℕ := headerSize + namesSize C

/-- The offset of `data_bb_num_candidates`. -/
def candidatesOff : ℕ := executionsOff C + 8 * C.numBbs

/-- `datasize`, a `size_t`. -/
def datasize : ℕ :=
  (headerSize + namesSize C + 8 * C.numBbs + 4 * C.numBbs * C.numFaultTypes) % 2 ^ 64

/-- The candidate counts of fault type `i`, as `fault_type->bb_num_candidates` stores them. -/
def candidateRow (i : ℕ) : List UInt8 :=
  (List.range C.numBbs).flatMap fun j => wordLE 4 (C.bbNumCandidates i j).toNat

/-- The offset of `data_bb_num_candidates + i * num_bbs`: the product is an `unsigned int`. -/
def rowOff (i : ℕ) : ℕ := candidatesOff C + 4 * (i * C.numBbs % 2 ^ 32)

/-- Whether `i * EDFI_STATS_FAULT_NAME_LEN` overflows the `int` it is computed in. -/
def NameOverflows (i : ℕ) : Prop := 2 ^ 31 ≤ i * faultNameLen

instance (i : ℕ) : Decidable (NameOverflows i) := inferInstanceAs (Decidable (_ ≤ _))

/-- The header of a new file. -/
def newHeader : Mem :=
  writeLE (writeLE (writeLE (writeLE (fun _ => 0) 0 4 statsMagic) 4 4 C.numBbs)
    8 4 C.numFaultTypes) 12 4 faultNameLen

/-- Name and candidate counts of fault type `i` for a new file; `none` stands for undefined
    behaviour. -/
def putFault (m : Mem) (i : ℕ) : Option Mem :=
  if NameOverflows i then none
  else some (write (write m (headerSize + i * faultNameLen) (strncpy (C.name i) faultNameLen))
    (rowOff C i) (candidateRow C i))

/-- The buffer for a new file. -/
def newData : Option Mem := (List.range C.numFaultTypes).foldlM (putFault C) (newHeader C)

/-- The check of the header of an old file. -/
def headerMatches (m : Mem) : Bool :=
  readLE m 0 4 = statsMagic && readLE m 4 4 = C.numBbs && readLE m 8 4 = C.numFaultTypes &&
    readLE m 12 4 = faultNameLen

/-- The check of name and candidate counts of fault type `i`. -/
def faultMatches (m : Mem) (i : ℕ) : Bool :=
  strncmpEq (read m (headerSize + i * faultNameLen) faultNameLen) (C.name i) faultNameLen &&
    read m (rowOff C i) (4 * C.numBbs) = candidateRow C i

/-- The loop over the fault types of an old file. -/
def verifyFaults (m : Mem) : List ℕ → Option Bool
  | [] => some true
  | i :: is =>
    if NameOverflows i then none
    else if faultMatches C m i then verifyFaults m is else some false

/-- `data_bb_num_executions[i] += edfi_context->bb_num_executions[i + 1]` for all `i`. -/
def addExecutions (executions : ℕ → UInt64) (m : Mem) : Mem :=
  (List.range C.numBbs).foldl
    (fun m i => addLE m (executionsOff C + 8 * i) 8 (executions (i + 1)).toNat) m

/-- The end of the function: add the counts (the index is an `int`) and write the buffer over the
    head of the file. -/
def addAndWrite (executions : ℕ → UInt64) (file : List UInt8) (m : Mem) : Option (List UInt8) :=
  let w := min (datasize C) maxRwCount
  if 2 ^ 31 ≤ C.numBbs then none
  else some (read (addExecutions C executions m) 0 w ++ file.drop w)

/-- `edfi_stats_per_bb_add_with_fd`: the content of the file after a process with the counters
    `executions`, or `none` for undefined behaviour. -/
def statsPerBbAddWithFd (executions : ℕ → UInt64) (file : List UInt8) : Option (List UInt8) :=
  let r := min file.length (min (datasize C) maxRwCount)
  let data := memOf (file.take r)
  if r = 0 then (newData C).bind (addAndWrite C executions file)
  else if r = datasize C then
    if headerMatches C data then
      (verifyFaults C data (List.range C.numFaultTypes)).bind fun ok =>
        if ok then addAndWrite C executions file data else some file
    else some file
  else some file

/-- The processes of one binary, one after the other. -/
def statsPerBbAddAll (ps : List (ℕ → UInt64)) (file : List UInt8) : Option (List UInt8) :=
  ps.foldl (fun file p => file.bind (statsPerBbAddWithFd C p)) (some file)

/-! ### The layout -/

/-- The offset of the counters in the layout. -/
def countersAt : ℕ := 16 + 64 * C.numFaultTypes

/-- The size of the layout. -/
def layoutSize : ℕ := countersAt C + 8 * C.numBbs + 4 * (C.numFaultTypes * C.numBbs)

/-- The counter of basic block `i`. -/
def counter (file : List UInt8) (i : ℕ) : ℕ := readLE (memOf file) (countersAt C + 8 * i) 8

/-- **A file of the binary**: at least the layout, with the binary's header, names and rows. -/
structure Matches (file : List UInt8) : Prop where
  size : layoutSize C ≤ file.length
  header : headerMatches C (memOf file)
  names : ∀ i < C.numFaultTypes, strncmpEq (read (memOf file) (16 + 64 * i) 64) (C.name i) 64
  rows : ∀ i < C.numFaultTypes,
    read (memOf file) (countersAt C + 8 * C.numBbs + 4 * (i * C.numBbs)) (4 * C.numBbs) =
      candidateRow C i

/-- `file'` is `file` with the counts added to its counters, and no other change. -/
structure Adds (executions : ℕ → UInt64) (file file' : List UInt8) : Prop where
  length : file'.length = file.length
  frame : ∀ k, k < countersAt C ∨ countersAt C + 8 * C.numBbs ≤ k → file'[k]? = file[k]?
  counters : ∀ i < C.numBbs,
    counter C file' i = (counter C file i + (executions (i + 1)).toNat) % 2 ^ 64

/-- **The file accumulates exactly.** -/
structure Accumulates : Prop where
  unchanged : ∀ p file, file ≠ [] → ¬ Matches C file → statsPerBbAddWithFd C p file = some file
  adds : ∀ p file, Matches C file →
    ∃ file', statsPerBbAddWithFd C p file = some file' ∧ Adds C p file file'
  creates : ∀ p, ∃ file', statsPerBbAddWithFd C p [] = some file' ∧ Matches C file' ∧
    ∀ i < C.numBbs, counter C file' i = (p (i + 1)).toNat
  total : ∀ ps file, Matches C file → ∃ file', statsPerBbAddAll C ps file = some file' ∧
    Matches C file' ∧ ∀ i < C.numBbs, counter C file' i =
      (counter C file i + (ps.map fun p => (p (i + 1)).toNat).sum) % 2 ^ 64
  order : ∀ file ps ps', ps.Perm ps' → statsPerBbAddAll C ps file = statsPerBbAddAll C ps' file

/-- **Reads and writes complete**: the buffer is transferred by one call. -/
def TransfersComplete : Prop := datasize C ≤ maxRwCount

instance : Decidable (TransfersComplete C) := inferInstanceAs (Decidable (_ ≤ _))

end Function

/-! ### Buffers -/

theorem memOf_apply (bs : List UInt8) (k : ℕ) : memOf bs k = bs.getD k 0 := by
  by_cases hk : k < bs.length
  · rw [memOf, write_of_inside _ _ _ (Nat.zero_le k) (by omega), Nat.sub_zero]
  · rw [memOf, write_of_outside _ _ _ (by omega), List.getD_eq_getElem?_getD,
      List.getElem?_eq_none (by omega)]
    rfl

theorem memOf_take {bs : List UInt8} {n k : ℕ} (hk : k < n) : memOf (bs.take n) k = memOf bs k := by
  rw [memOf_apply, memOf_apply, List.getD_eq_getElem?_getD, List.getD_eq_getElem?_getD,
    List.getElem?_take_of_lt hk]

section Sizes

variable {C : StatContext}

theorem namesSize_eq (C : StatContext) : namesSize C = 64 * C.numFaultTypes :=
  Nat.mod_eq_of_lt (by
    have := C.numFaultTypes_le
    rw [faultNameLen]
    omega)

theorem executionsOff_eq (C : StatContext) : executionsOff C = countersAt C := by
  rw [executionsOff, namesSize_eq]
  rfl

/-- The size of the buffer does not wrap. -/
theorem datasize_eq (C : StatContext) : datasize C = layoutSize C := by
  have hb := C.numBbs_lt
  have hf := C.numFaultTypes_le
  have hprod : C.numBbs * C.numFaultTypes ≤ 2 ^ 32 * 16 := Nat.mul_le_mul (Nat.le_of_lt hb) hf
  rw [datasize, namesSize_eq, layoutSize, countersAt, Nat.mul_assoc 4,
    Nat.mul_comm C.numFaultTypes, headerSize]
  exact Nat.mod_eq_of_lt (by omega)

theorem TransfersComplete.layoutSize_le (hio : TransfersComplete C) :
    layoutSize C ≤ 0x7ffff000 := by
  rw [← datasize_eq]
  exact hio

theorem TransfersComplete.numBbs_lt (hio : TransfersComplete C) : C.numBbs < 2 ^ 31 := by
  have hle := hio.layoutSize_le
  rw [layoutSize] at hle
  omega

variable {i : ℕ} {m m' : Mem}

/-- A row that comes before another ends before it. -/
theorem row_end_le {j : ℕ} (h : i < j) : i * C.numBbs + C.numBbs ≤ j * C.numBbs := by
  rw [← Nat.succ_mul]
  exact Nat.mul_le_mul_right C.numBbs h

theorem candidateRow_length (C : StatContext) (i : ℕ) :
    (candidateRow C i).length = 4 * C.numBbs := by
  rw [candidateRow, List.length_flatMap]
  simp [Nat.mul_comm]

theorem not_nameOverflows (hi : i < C.numFaultTypes) : ¬ NameOverflows i := by
  have := C.numFaultTypes_le
  rw [NameOverflows, faultNameLen]
  omega

/-! ### Verification -/

/-- The loop over the fault types checks each of them. -/
theorem verifyFaults_eq (m : Mem) {is : List ℕ} (his : ∀ i ∈ is, ¬ NameOverflows i) :
    verifyFaults C m is = some (is.all (faultMatches C m)) := by
  induction is with
  | nil => rfl
  | cons i is ih =>
    obtain ⟨hi, his⟩ := List.forall_mem_cons.mp his
    rw [verifyFaults, if_neg hi, List.all_cons]
    cases faultMatches C m i with
    | true => exact ih his
    | false => rfl

theorem headerMatches_congr (h : ∀ k < 16, m k = m' k) :
    headerMatches C m = headerMatches C m' := by
  have hword : ∀ a ≤ 12, readLE m a 4 = readLE m' a 4 :=
    fun a ha => readLE_congr fun i hi => h (a + i) (by omega)
  rw [headerMatches, headerMatches, hword 0 (by omega), hword 4 (by omega), hword 8 (by omega),
    hword 12 (by omega)]

/-- The check of a fault type looks at its name and at the row the offset points to. -/
theorem faultMatches_congr (hname : ∀ k < 64, m (16 + i * 64 + k) = m' (16 + i * 64 + k))
    (hrow : ∀ k < 4 * C.numBbs, m (rowOff C i + k) = m' (rowOff C i + k)) :
    faultMatches C m i = faultMatches C m' i := by
  rw [faultMatches, faultMatches, read_congr hrow]
  exact congrArg (fun bs => strncmpEq bs _ _ && _) (read_congr hname)

/-! ### Adding the counts -/

variable (p : ℕ → UInt64)

/-- The loop changes the counters only. -/
theorem addExecutions_of_outside (m : Mem) {k : ℕ}
    (hk : k < executionsOff C ∨ executionsOff C + 8 * C.numBbs ≤ k) :
    addExecutions C p m k = m k := by
  have hslots : ∀ n ≤ C.numBbs, (List.range n).foldl
      (fun m i => addLE m (executionsOff C + 8 * i) 8 (p (i + 1)).toNat) m k = m k := by
    intro n hn
    induction n with
    | zero => rfl
    | succ n ih =>
      rw [List.range_succ, List.foldl_append]
      exact (writeLE_of_outside _ _ _ _ (by omega)).trans (ih (by omega))
  exact hslots C.numBbs le_rfl

/-- The loop adds to each counter once. -/
theorem readLE_addExecutions (m : Mem) (hi : i < C.numBbs) :
    readLE (addExecutions C p m) (executionsOff C + 8 * i) 8 =
      (readLE m (executionsOff C + 8 * i) 8 + (p (i + 1)).toNat) % 2 ^ 64 := by
  have hslots : ∀ n, readLE ((List.range n).foldl
      (fun m i => addLE m (executionsOff C + 8 * i) 8 (p (i + 1)).toNat) m)
        (executionsOff C + 8 * i) 8 =
      if i < n then (readLE m (executionsOff C + 8 * i) 8 + (p (i + 1)).toNat) % 2 ^ 64
      else readLE m (executionsOff C + 8 * i) 8 := by
    intro n
    induction n with
    | zero => rfl
    | succ n ih =>
      rw [List.range_succ, List.foldl_append, List.foldl_cons, List.foldl_nil]
      rcases Nat.lt_trichotomy i n with hlt | rfl | hgt
      · rw [addLE, readLE_writeLE_of_apart _ (Or.inr (by omega)), ih, if_pos hlt,
          if_pos (by omega)]
      · rw [readLE_addLE, ih, if_neg (Nat.lt_irrefl i), if_pos (Nat.lt_succ_self i),
          show (256 : ℕ) ^ 8 = 2 ^ 64 by decide]
      · rw [addLE, readLE_writeLE_of_apart _ (Or.inl (by omega)), ih, if_neg (by omega),
          if_neg (by omega)]
  exact (hslots C.numBbs).trans (if_pos hi)

/-- The counts of two processes are added in either order. -/
theorem addExecutions_comm (q : ℕ → UInt64) (m : Mem) :
    addExecutions C q (addExecutions C p m) = addExecutions C p (addExecutions C q m) := by
  have hslot : ∀ (m : Mem) (i j : ℕ),
      addLE (addLE m (executionsOff C + 8 * i) 8 (p (i + 1)).toNat)
        (executionsOff C + 8 * j) 8 (q (j + 1)).toNat =
      addLE (addLE m (executionsOff C + 8 * j) 8 (q (j + 1)).toNat)
        (executionsOff C + 8 * i) 8 (p (i + 1)).toNat := by
    intro m i j
    refine addLE_comm m ?_ _ _
    unfold Apart
    omega
  -- one addition of `q` moves in front of all additions of `p`, then all of them do
  refine List.foldl_hom (addExecutions C p) fun m j => Eq.symm ?_
  unfold addExecutions
  exact List.foldl_hom (fun m => addLE m (executionsOff C + 8 * j) 8 (q (j + 1)).toNat)
    fun m i => (hslot m i j).symm

/-! ### The buffer for a new file -/

/-- A name that was copied compares equal. -/
theorem strncmpEq_strncpy (C : StatContext) (i n : ℕ) :
    strncmpEq (strncpy (C.name i) n) (C.name i) n := by
  have hne : ∀ c ∈ (C.name i).take n, decide (c ≠ 0) = true := by
    intro c hc
    have hc0 : c ≠ 0 := fun h => C.name_ne_zero i (h ▸ List.mem_of_mem_take hc)
    simpa using hc0
  rw [strncmpEq, strncpy, decide_eq_true_eq, List.takeWhile_append_of_pos hne,
    List.takeWhile_eq_self_iff.mpr hne]
  cases n - (C.name i).length with
  | zero => exact List.append_nil _
  | succ k => simp [List.replicate_succ]

theorem strncpy_length (src : List UInt8) (n : ℕ) : (strncpy src n).length = n := by
  rw [strncpy, List.length_append, List.length_take, List.length_replicate]
  omega

/-- What holds of the buffer after the first `k` fault types. -/
structure Filled (C : StatContext) (k : ℕ) (m : Mem) : Prop where
  header : headerMatches C m
  faults : ∀ i < k, faultMatches C m i
  zero : ∀ x, countersAt C ≤ x → x < countersAt C + 8 * C.numBbs → m x = 0

theorem filled_newHeader (C : StatContext) : Filled C 0 (newHeader C) where
  header := by
    have hlt : ∀ n < 2 ^ 32, n < 256 ^ 4 := fun n hn => by omega
    have hb := hlt _ C.numBbs_lt
    have hf := hlt _ (Nat.lt_of_le_of_lt C.numFaultTypes_le (by decide))
    rw [headerMatches]
    simp only [Bool.and_eq_true, decide_eq_true_eq]
    rw [newHeader]
    refine ⟨⟨⟨?_, ?_⟩, ?_⟩, ?_⟩
    · rw [readLE_writeLE_of_apart _ (by decide), readLE_writeLE_of_apart _ (by decide),
        readLE_writeLE_of_apart _ (by decide), readLE_writeLE _ _ (by decide)]
    · rw [readLE_writeLE_of_apart _ (by decide), readLE_writeLE_of_apart _ (by decide),
        readLE_writeLE _ _ hb]
    · rw [readLE_writeLE_of_apart _ (by decide), readLE_writeLE _ _ hf]
    · rw [readLE_writeLE _ _ (by decide)]
  faults i hi := absurd hi (Nat.not_lt_zero i)
  zero x hx _ := by
    rw [countersAt] at hx
    rw [newHeader, writeLE_of_outside _ _ _ _ (by omega), writeLE_of_outside _ _ _ _ (by omega),
      writeLE_of_outside _ _ _ _ (by omega), writeLE_of_outside _ _ _ _ (by omega)]

theorem layoutSize_pos (C : StatContext) : 0 < layoutSize C := by
  rw [layoutSize, countersAt]
  omega

/-- The loop over the fault types is defined, and checks all of them. -/
theorem verifyFaults_range (C : StatContext) (m : Mem) :
    verifyFaults C m (List.range C.numFaultTypes) =
      some ((List.range C.numFaultTypes).all (faultMatches C m)) :=
  verifyFaults_eq m fun _ hi => not_nameOverflows (List.mem_range.mp hi)

section Defined

variable (hio : TransfersComplete C)

include hio

/-- The offsets of a buffer that one call transfers do not wrap, so the rows are where the layout
    has them. -/
theorem rowOff_eq (hi : i < C.numFaultTypes) :
    rowOff C i = countersAt C + 8 * C.numBbs + 4 * (i * C.numBbs) := by
  have hle : i * C.numBbs ≤ C.numFaultTypes * C.numBbs :=
    Nat.mul_le_mul_right C.numBbs (Nat.le_of_lt hi)
  have hsize := hio.layoutSize_le
  rw [layoutSize] at hsize
  rw [rowOff, candidatesOff, executionsOff_eq, Nat.mod_eq_of_lt (by omega)]

/-- The next fault type is put where none of the others is. -/
theorem putFault_filled {k : ℕ} (hk : k < C.numFaultTypes) (h : Filled C k m) :
    ∃ m', putFault C m k = some m' ∧ Filled C (k + 1) m' := by
  have hname : (strncpy (C.name k) faultNameLen).length = 64 := strncpy_length _ _
  have hrow := candidateRow_length C k
  have hoff := rowOff_eq hio hk
  have hstart : 16 + 64 * C.numFaultTypes = countersAt C := rfl
  have hout : ∀ x, x < 16 + k * 64 ∨ 16 + k * 64 + 64 ≤ x →
      x < rowOff C k ∨ rowOff C k + 4 * C.numBbs ≤ x →
      write (write m (headerSize + k * faultNameLen) (strncpy (C.name k) faultNameLen))
        (rowOff C k) (candidateRow C k) x = m x := by
    intro x hx₁ hx₂
    rw [write_of_outside _ _ _ (by rw [hrow]; omega),
      write_of_outside _ _ _ (by rw [hname, headerSize, faultNameLen]; omega)]
  refine ⟨_, if_neg (not_nameOverflows hk), ?_, ?_, ?_⟩
  · rw [headerMatches_congr fun x hx => hout x (by omega) (by omega)]
    exact h.header
  · intro i hi
    rcases Nat.lt_succ_iff_lt_or_eq.mp hi with hi | rfl
    · have hoffi := rowOff_eq hio (Nat.lt_trans hi hk)
      have hend := row_end_le (C := C) hi
      rw [faultMatches_congr (fun x hx => hout _ (by omega) (by omega))
        (fun x hx => hout _ (by omega) (by omega))]
      exact h.faults i hi
    · -- the name is below the row, and each reads back
      have hreadRow := read_write
        (write m (headerSize + i * faultNameLen) (strncpy (C.name i) faultNameLen))
        (rowOff C i) (candidateRow C i)
      have hreadName := read_write m (headerSize + i * faultNameLen)
        (strncpy (C.name i) faultNameLen)
      rw [hrow] at hreadRow
      rw [strncpy_length] at hreadName
      have happart : Apart (rowOff C i) (candidateRow C i).length
          (headerSize + i * faultNameLen) faultNameLen := by
        rw [Apart, hrow, headerSize, faultNameLen]
        omega
      rw [faultMatches, hreadRow, read_write_of_apart _ happart, hreadName,
        strncmpEq_strncpy C i faultNameLen]
      simp
  · intro x hlo hhi
    rw [hout x (by omega) (by omega)]
    exact h.zero x hlo hhi

/-- **A new file** has the binary's header, names and rows, and counters that are zero. -/
theorem newData_filled :
    ∃ m, newData C = some m ∧ Filled C C.numFaultTypes m := by
  have hloop : ∀ n ≤ C.numFaultTypes,
      ∃ m, (List.range n).foldlM (putFault C) (newHeader C) = some m ∧ Filled C n m := by
    intro n hn
    induction n with
    | zero => exact ⟨_, rfl, filled_newHeader C⟩
    | succ n ih =>
      obtain ⟨m, hm, hfilled⟩ := ih (by omega)
      obtain ⟨m', hm', hfilled'⟩ := putFault_filled hio hn hfilled
      refine ⟨m', ?_, hfilled'⟩
      rw [List.range_succ, List.foldlM_append, hm]
      show (putFault C m n).bind pure = some m'
      rw [hm']
      rfl
  exact hloop C.numFaultTypes le_rfl

/-! ### One process -/

/-- The part of the file that is read into the buffer. -/
def bufOf (C : StatContext) (file : List UInt8) : Mem := memOf (file.take (layoutSize C))

/-- A buffer that passes the checks comes from a file of the binary. -/
theorem matches_iff {file : List UInt8}
    (hlen : layoutSize C ≤ file.length) :
    Matches C file ↔ headerMatches C (bufOf C file) ∧
      ∀ i < C.numFaultTypes, faultMatches C (bufOf C file) i := by
  have hsize : layoutSize C = countersAt C + 8 * C.numBbs + 4 * (C.numFaultTypes * C.numBbs) := rfl
  have hstart : 16 + 64 * C.numFaultTypes = countersAt C := rfl
  have hbuf : ∀ k < layoutSize C, bufOf C file k = memOf file k := fun k hk => memOf_take hk
  have hheader : headerMatches C (bufOf C file) = headerMatches C (memOf file) :=
    headerMatches_congr fun k hk => hbuf k (by omega)
  have hfault : ∀ i < C.numFaultTypes, (faultMatches C (bufOf C file) i = true ↔
      strncmpEq (read (memOf file) (16 + 64 * i) 64) (C.name i) 64 ∧
      read (memOf file) (countersAt C + 8 * C.numBbs + 4 * (i * C.numBbs)) (4 * C.numBbs) =
        candidateRow C i) := by
    intro i hi
    have hoff := rowOff_eq hio hi
    have hend := row_end_le (C := C) hi
    rw [faultMatches_congr (fun k hk => hbuf _ (by omega)) (fun k hk => hbuf _ (by omega)),
      faultMatches, Bool.and_eq_true, decide_eq_true_eq, hoff, headerSize, faultNameLen,
      Nat.mul_comm i 64]
  rw [hheader]
  constructor
  · intro h
    exact ⟨h.header, fun i hi => (hfault i hi).mpr ⟨h.names i hi, h.rows i hi⟩⟩
  · rintro ⟨hh, hf⟩
    exact ⟨hlen, hh, fun i hi => ((hfault i hi).mp (hf i hi)).1,
      fun i hi => ((hfault i hi).mp (hf i hi)).2⟩

/-- The file with the counts of `p` added. -/
def addCounts (C : StatContext) (p : ℕ → UInt64) (file : List UInt8) : List UInt8 :=
  read (addExecutions C p (bufOf C file)) 0 (layoutSize C) ++ file.drop (layoutSize C)

/-- The checks the function makes of an old file. -/
structure Accepted (C : StatContext) (file : List UInt8) : Prop where
  size : layoutSize C ≤ file.length
  header : headerMatches C (bufOf C file)
  faults : ∀ i < C.numFaultTypes, faultMatches C (bufOf C file) i

theorem min_maxRwCount : min (datasize C) maxRwCount = layoutSize C := by
  rw [Nat.min_eq_left hio, datasize_eq]

variable (p : ℕ → UInt64)

theorem addAndWrite_eq (file : List UInt8) (m : Mem) :
    addAndWrite C p file m =
      some (read (addExecutions C p m) 0 (layoutSize C) ++ file.drop (layoutSize C)) := by
  have hb := hio.numBbs_lt
  rw [addAndWrite, if_neg (by omega), min_maxRwCount hio]

/-- A process adds its counts to a file that is accepted. -/
theorem statsPerBbAddWithFd_of_accepted {file : List UInt8} (h : Accepted C file) :
    statsPerBbAddWithFd C p file = some (addCounts C p file) := by
  have hpos := layoutSize_pos C
  have hsize := h.size
  have hall : (List.range C.numFaultTypes).all (faultMatches C (bufOf C file)) = true :=
    List.all_eq_true.mpr fun i hi => h.faults i (List.mem_range.mp hi)
  have hdata : memOf (file.take (layoutSize C)) = bufOf C file := rfl
  dsimp only [statsPerBbAddWithFd]
  rw [min_maxRwCount hio, datasize_eq, Nat.min_eq_right hsize, hdata, if_neg (by omega),
    if_pos rfl, if_pos h.header, verifyFaults_range, hall, Option.bind_some, if_pos rfl,
    addAndWrite_eq hio]
  rfl

/-- A process leaves every other file that is not empty as it is. -/
theorem statsPerBbAddWithFd_of_rejected {file : List UInt8} (hne : file ≠ [])
    (h : ¬ Accepted C file) : statsPerBbAddWithFd C p file = some file := by
  have hpos := layoutSize_pos C
  have hlen := List.length_pos_iff.mpr hne
  dsimp only [statsPerBbAddWithFd]
  rw [min_maxRwCount hio, datasize_eq, if_neg (by omega), verifyFaults_range, Option.bind_some]
  split_ifs with hr hheader hall
  · rw [hr] at hheader hall
    have hfaults : ∀ i < C.numFaultTypes, faultMatches C (bufOf C file) i :=
      fun i hi => List.all_eq_true.mp hall i (List.mem_range.mpr hi)
    exact absurd ⟨by omega, hheader, hfaults⟩ h
  · rfl
  · rfl
  · rfl

/-- A process on the empty file adds its counts to the new buffer. -/
theorem statsPerBbAddWithFd_nil {m : Mem} (hm : newData C = some m) :
    statsPerBbAddWithFd C p [] = some (read (addExecutions C p m) 0 (layoutSize C)) := by
  dsimp only [statsPerBbAddWithFd]
  rw [List.length_nil, Nat.zero_min, if_pos rfl, hm, Option.bind_some, addAndWrite_eq hio,
    List.drop_nil, List.append_nil]

end Defined

/-- The counters lie in the layout. -/
theorem counters_le_layoutSize (C : StatContext) : countersAt C + 8 * C.numBbs ≤ layoutSize C := by
  rw [layoutSize]
  omega

theorem drop_addCounts (file : List UInt8) :
    (addCounts C p file).drop (layoutSize C) = file.drop (layoutSize C) := by
  rw [addCounts, List.drop_append_of_le_length (by rw [read_length]),
    List.drop_of_length_le (by rw [read_length]), List.nil_append]

section AddCounts

variable {file : List UInt8} (hlen : layoutSize C ≤ file.length)

include hlen

variable (p : ℕ → UInt64)

/-- The buffer of a file with counts added. -/
theorem bufOf_addCounts : bufOf C (addCounts C p file) = addExecutions C p (bufOf C file) := by
  funext k
  have hin := counters_le_layoutSize C
  rw [bufOf, addCounts, List.take_append_of_le_length (by rw [read_length]),
    List.take_of_length_le (by rw [read_length])]
  by_cases hk : k < layoutSize C
  · rw [memOf_apply, read_getD _ _ hk, Nat.zero_add]
  · rw [addExecutions_of_outside p _ (by rw [executionsOff_eq]; omega), bufOf, memOf_apply,
      memOf_apply, List.getD_eq_getElem?_getD, List.getD_eq_getElem?_getD,
      List.getElem?_eq_none (by rw [read_length]; omega),
      List.getElem?_eq_none (by rw [List.length_take]; omega)]

theorem addCounts_comm (q : ℕ → UInt64) :
    addCounts C q (addCounts C p file) = addCounts C p (addCounts C q file) := by
  rw [addCounts, bufOf_addCounts hlen, drop_addCounts, addExecutions_comm,
    ← bufOf_addCounts hlen, ← drop_addCounts q]
  rfl

/-- **Only the counters change**, each by the count of the process. -/
theorem adds_addCounts : Adds C p file (addCounts C p file) := by
  have hin := counters_le_layoutSize C
  have hsame : ∀ k, k < layoutSize C →
      (addCounts C p file)[k]? = some (addExecutions C p (bufOf C file) k) := by
    intro k hk
    rw [addCounts, List.getElem?_append_left (by rwa [read_length])]
    simp [FlatMem.read, hk]
  have hfile : ∀ k, k < layoutSize C → file[k]? = some (bufOf C file k) := by
    intro k hk
    rw [bufOf, memOf_take hk, memOf_apply, List.getD_eq_getElem?_getD,
      List.getElem?_eq_getElem (by omega)]
    rfl
  have hcounter : ∀ (g : List UInt8) (i : ℕ), i < C.numBbs →
      counter C g i = readLE (bufOf C g) (countersAt C + 8 * i) 8 := by
    intro g i hi
    exact readLE_congr fun k hk => (memOf_take (by omega)).symm
  refine ⟨?_, ?_, ?_⟩
  · rw [addCounts, List.length_append, read_length, List.length_drop]
    omega
  · intro k hk
    by_cases hlt : k < layoutSize C
    · rw [hsame k hlt, hfile k hlt,
        addExecutions_of_outside p _ (by rw [executionsOff_eq]; exact hk)]
    · rw [addCounts, List.getElem?_append_right (by rw [read_length]; omega), read_length,
        List.getElem?_drop, Nat.add_sub_cancel' (by omega)]
  · intro i hi
    rw [hcounter _ i hi, hcounter _ i hi, bufOf_addCounts hlen, ← executionsOff_eq]
    exact readLE_addExecutions p _ hi

end AddCounts

/-! ### Files that are accepted -/

/-- The function accepts the files of the binary. -/
theorem accepted_iff_matches (hio : TransfersComplete C) {file : List UInt8} :
    Accepted C file ↔ Matches C file := by
  constructor
  · intro h
    exact (matches_iff hio h.size).mpr ⟨h.header, h.faults⟩
  · intro h
    obtain ⟨hheader, hfaults⟩ := (matches_iff hio h.size).mp h
    exact ⟨h.size, hheader, hfaults⟩

/-- The checks do not look at the counters. -/
theorem accepted_of_agree {file file' : List UInt8}
    (h : Accepted C file) (hlen : layoutSize C ≤ file'.length)
    (hagree : ∀ k, k < countersAt C ∨ countersAt C + 8 * C.numBbs ≤ k →
      bufOf C file' k = bufOf C file k) : Accepted C file' := by
  have hstart : 16 + 64 * C.numFaultTypes = countersAt C := rfl
  refine ⟨hlen, ?_, fun i hi => ?_⟩
  · rw [headerMatches_congr fun k hk => hagree k (by omega)]
    exact h.header
  · have hoff : countersAt C + 8 * C.numBbs ≤ rowOff C i := by
      rw [rowOff, candidatesOff, executionsOff_eq]
      omega
    rw [faultMatches_congr (fun k hk => hagree _ (by omega)) (fun k hk => hagree _ (by omega))]
    exact h.faults i hi

theorem addCounts_accepted {file : List UInt8} (h : Accepted C file) :
    Accepted C (addCounts C p file) := by
  refine accepted_of_agree h ?_ fun k hk => ?_
  · rw [(adds_addCounts h.size p).length]
    exact h.size
  · rw [bufOf_addCounts h.size]
    exact addExecutions_of_outside p _ (by rwa [executionsOff_eq])

/-- Adding counts to buffers that agree on the layout. -/
theorem addExecutions_congr (h : ∀ k < layoutSize C, m k = m' k) :
    ∀ k < layoutSize C, addExecutions C p m k = addExecutions C p m' k := by
  have hin := counters_le_layoutSize C
  have hslots : ∀ n ≤ C.numBbs, ∀ k < layoutSize C, (List.range n).foldl
      (fun m i => addLE m (executionsOff C + 8 * i) 8 (p (i + 1)).toNat) m k =
      (List.range n).foldl
        (fun m i => addLE m (executionsOff C + 8 * i) 8 (p (i + 1)).toNat) m' k := by
    intro n hn
    induction n with
    | zero => exact h
    | succ n ih =>
      rw [List.range_succ, List.foldl_append, List.foldl_append]
      exact addLE_congr (ih (by omega)) (by rw [executionsOff_eq]; omega) _
  exact hslots C.numBbs le_rfl

/-- **The empty file.**  A process makes of it what it makes of the file with zero counters. -/
theorem exists_blank (hio : TransfersComplete C) : ∃ blank, Accepted C blank ∧
    (∀ p, statsPerBbAddWithFd C p [] = some (addCounts C p blank)) ∧
    ∀ i < C.numBbs, counter C blank i = 0 := by
  obtain ⟨m, hm, hfilled⟩ := newData_filled hio
  have hin := counters_le_layoutSize C
  have hlen : (read m 0 (layoutSize C)).length = layoutSize C := read_length ..
  have hbuf : ∀ k < layoutSize C, bufOf C (read m 0 (layoutSize C)) k = m k := by
    intro k hk
    rw [bufOf, List.take_of_length_le (by rw [hlen]), memOf_apply, read_getD _ _ hk, Nat.zero_add]
  refine ⟨read m 0 (layoutSize C), ⟨hlen.ge, ?_, ?_⟩, ?_, ?_⟩
  · have hpos : 16 ≤ layoutSize C := by
      rw [layoutSize, countersAt]
      omega
    rw [headerMatches_congr fun k hk => hbuf k (by omega)]
    exact hfilled.header
  · intro i hi
    have hsize : layoutSize C =
        countersAt C + 8 * C.numBbs + 4 * (C.numFaultTypes * C.numBbs) := rfl
    have hstart : 16 + 64 * C.numFaultTypes = countersAt C := rfl
    have hoff := rowOff_eq hio hi
    have hend := row_end_le (C := C) hi
    rw [faultMatches_congr (fun k hk => hbuf _ (by omega)) (fun k hk => hbuf _ (by omega))]
    exact hfilled.faults i hi
  · intro p
    rw [statsPerBbAddWithFd_nil hio p hm, addCounts,
      List.drop_of_length_le (by rw [hlen]), List.append_nil]
    refine congrArg some (read_congr fun k hk => ?_)
    exact addExecutions_congr p (fun k hk => (hbuf k hk).symm) _ (by omega)
  · intro i hi
    have hzero : counter C (read m 0 (layoutSize C)) i = readLE (fun _ => 0) 0 8 := by
      rw [counter, readLE, readLE]
      refine congrArg ofWordLE (List.map_congr_left fun k hk => ?_)
      have hk := List.mem_range.mp hk
      rw [memOf_apply, read_getD _ _ (by omega), Nat.zero_add]
      exact hfilled.zero _ (by omega) (by omega)
    rw [hzero]
    decide

/-! ### Any number of processes -/

/-- Two processes can be exchanged. -/
theorem statsPerBbAddWithFd_comm (hio : TransfersComplete C) (p q : ℕ → UInt64)
    (file : Option (List UInt8)) :
    (file.bind (statsPerBbAddWithFd C p)).bind (statsPerBbAddWithFd C q) =
      (file.bind (statsPerBbAddWithFd C q)).bind (statsPerBbAddWithFd C p) := by
  have hacc : ∀ file, Accepted C file → ∀ p q,
      statsPerBbAddWithFd C q (addCounts C p file) =
        some (addCounts C q (addCounts C p file)) :=
    fun file h p q => statsPerBbAddWithFd_of_accepted hio q (addCounts_accepted p h)
  cases file with
  | none => simp only [Option.bind_none]
  | some file =>
    rw [Option.bind_some, Option.bind_some]
    by_cases hnil : file = []
    · obtain ⟨blank, hblank, hstep, -⟩ := exists_blank hio
      rw [hnil, hstep, hstep, Option.bind_some, Option.bind_some, hacc _ hblank, hacc _ hblank,
        addCounts_comm hblank.size]
    · by_cases h : Accepted C file
      · rw [statsPerBbAddWithFd_of_accepted hio p h, statsPerBbAddWithFd_of_accepted hio q h,
          Option.bind_some, Option.bind_some, hacc _ h, hacc _ h, addCounts_comm h.size]
      · rw [statsPerBbAddWithFd_of_rejected hio p hnil h,
          statsPerBbAddWithFd_of_rejected hio q hnil h, Option.bind_some, Option.bind_some,
          statsPerBbAddWithFd_of_rejected hio p hnil h,
          statsPerBbAddWithFd_of_rejected hio q hnil h]

/-- **A run.**  The counters of a file of the binary grow by what all processes counted. -/
theorem statsPerBbAddAll_counter (hio : TransfersComplete C) (ps : List (ℕ → UInt64))
    {file : List UInt8} (hm : Matches C file) :
    ∃ file', statsPerBbAddAll C ps file = some file' ∧ Matches C file' ∧
      ∀ i < C.numBbs, counter C file' i =
        (counter C file i + (ps.map fun p => (p (i + 1)).toNat).sum) % 2 ^ 64 := by
  induction ps generalizing file with
  | nil =>
    refine ⟨file, rfl, hm, fun i _ => ?_⟩
    have hlt : counter C file i < 256 ^ 8 := readLE_lt ..
    rw [List.map_nil, List.sum_nil, Nat.add_zero, show (2 : ℕ) ^ 64 = 256 ^ 8 by decide,
      Nat.mod_eq_of_lt hlt]
  | cons p ps ih =>
    have hacc := (accepted_iff_matches hio).mpr hm
    obtain ⟨file', hrun, hm', hsum⟩ :=
      ih ((accepted_iff_matches hio).mp (addCounts_accepted p hacc))
    refine ⟨file', ?_, hm', fun i hi => ?_⟩
    · rw [← hrun, statsPerBbAddAll, List.foldl_cons, Option.bind_some,
        statsPerBbAddWithFd_of_accepted hio p hacc]
      rfl
    · rw [hsum i hi, (adds_addCounts hm.size p).counters i hi, Nat.mod_add_mod,
        List.map_cons, List.sum_cons, Nat.add_assoc]

/-- **The file accumulates exactly**, on every content and for any number of processes in any
    order, when reads and writes complete. -/
theorem stat_file_accumulates (C : StatContext) (hio : TransfersComplete C) : Accumulates C where
  unchanged p file hne h :=
    statsPerBbAddWithFd_of_rejected hio p hne (h ∘ (accepted_iff_matches hio).mp)
  adds p file h :=
    ⟨_, statsPerBbAddWithFd_of_accepted hio p ((accepted_iff_matches hio).mpr h),
      adds_addCounts h.size p⟩
  creates p := by
    obtain ⟨blank, hblank, hstep, hzero⟩ := exists_blank hio
    refine ⟨_, hstep p, (accepted_iff_matches hio).mp (addCounts_accepted p hblank), ?_⟩
    intro i hi
    rw [(adds_addCounts hblank.size p).counters i hi, hzero i hi, Nat.zero_add]
    exact Nat.mod_eq_of_lt (p (i + 1)).toNat_lt
  total ps _ h := statsPerBbAddAll_counter hio ps h
  order file ps ps' h := h.foldl_eq' (fun p _ q _ o => statsPerBbAddWithFd_comm hio p q o) _

end Sizes

/-- A binary with two basic blocks and one fault type, `swap`. -/
def swapContext : StatContext where
  numBbs := 2
  numFaultTypes := 1
  name := fun _ => [0x73, 0x77, 0x61, 0x70]
  bbNumCandidates := fun _ j => if j = 0 then 3 else 0
  numBbs_lt := by decide
  numFaultTypes_le := by decide
  name_ne_zero := fun _ => by decide

/-- Its file has 104 bytes. -/
theorem stat_file_accumulates_swap :
    layoutSize swapContext = 104 ∧ Accumulates swapContext :=
  ⟨by decide, stat_file_accumulates swapContext (by decide)⟩

end Firestarter.Edfi
